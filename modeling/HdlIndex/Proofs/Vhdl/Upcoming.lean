import HdlIndex.Proofs.Token.Reader
import HdlIndex.Vhdl.Reading

/-! The events of a VHDL text that are still to come. What a reader adds does not depend on what it
has added, so the events of a token list are those of its first token, and then those that the
reader behind it still has to add. What a token adds depends on what the reader is inside of. -/
namespace HdlIndex.Vhdl

namespace Reader

variable {reader : Reader} {token : Token} {tokens rest : List Token} {size : Nat}

/-- The reader with further events in front of its own. -/
def behind (events : Array Event) (reader : Reader) : Reader :=
  { reader with events := events ++ reader.events }

theorem emit_behind (events : Array Event) (event : Event) :
    (reader.behind events).emit event = (reader.emit event).behind events := by
  simp [emit, behind]

/-- In code the events that are there already are kept in front of the new ones. -/
theorem readCode_behind (events : Array Event) :
    (reader.behind events).readCode token rest = (reader.readCode token rest).behind events := by
  have hCharacter : (reader.behind events).isCharacter rest = reader.isCharacter rest := rfl
  rw [readCode, readCode, hCharacter]
  split
  · rfl
  split
  · rfl
  split
  · rw [emit_behind]
    rfl
  split
  · exact emit_behind events _
  · dsimp only
    rw [emit_behind]
    rfl

/-- So are they in every mode. -/
theorem read_behind (events : Array Event) :
    (reader.behind events).read token rest = (reader.read token rest).behind events := by
  rw [read, read, readCode_behind]
  have hMode : (reader.behind events).mode = reader.mode := rfl
  rw [hMode]
  split
  · split
    · rw [emit_behind]
      rfl
    · rfl
  · split
    · rw [emit_behind]
      rfl
    · rfl
  · rw [emit_behind]
    rfl
  · rfl

theorem finish_behind (events : Array Event) :
    (reader.behind events).finish size = events ++ reader.finish size := by
  have hMode : (reader.behind events).mode = reader.mode := rfl
  rw [finish, finish, hMode]
  split <;> simp [behind]

/-- The reader without its events. -/
def forget (reader : Reader) : Reader := { reader with events := #[] }

/-- The events that reading a token adds. -/
def emitted (reader : Reader) (token : Token) (rest : List Token) : List Event :=
  (reader.forget.read token rest).events.toList

/-- The events that are to come with the tokens, and with the end of a text of `size` bytes. -/
def upcoming (size : Nat) (reader : Reader) (tokens : List Token) : List Event :=
  ((reader.forget.readAll tokens).finish size).toList

/-- Reads tokens in view of those behind them. -/
def readOver : Reader → (tokens rest : List Token) → Reader
  | reader, [], _ => reader
  | reader, token :: tokens, rest => (reader.read token (tokens ++ rest)).readOver tokens rest

/-- The events that reading tokens adds in view of those behind them. -/
def emittedOver : Reader → (tokens rest : List Token) → List Event
  | _, [], _ => []
  | reader, token :: tokens, rest =>
    reader.emitted token (tokens ++ rest) ++
      (reader.read token (tokens ++ rest)).emittedOver tokens rest

/-- The reader of VHDL texts is one in the general sense. -/
theorem isReader : IsReader read readAll readOver events behind forget emitted emittedOver finish
    upcoming where
  readAll_nil _ := rfl
  readAll_cons _ _ _ := rfl
  readOver_nil _ _ := rfl
  readOver_cons _ _ _ _ := rfl
  behind_forget reader := by simp [forget, behind]
  events_behind _ _ := rfl
  forget_behind _ _ := rfl
  read_behind added _ _ _ := read_behind added
  finish_behind added _ _ := finish_behind added
  emitted_eq _ _ _ := rfl
  emittedOver_nil _ _ := rfl
  emittedOver_cons _ _ _ _ := rfl
  upcoming_def _ _ _ := rfl

/-- What reading a token adds, and what the reader is inside of behind it. -/
inductive Takes (reader : Reader) (token : Token) (rest : List Token) (after : Reader) :
    List Event → Prop where
  | opensLine (hMode : reader.mode = .code) (hText : token.text = "--")
      (hAfter : after.mode = .lineComment token.span.start) : Takes reader token rest after []
  | opensBlock (hMode : reader.mode = .code) (hText : token.text = "/*")
      (hAfter : after.mode = .blockComment token.span.start) : Takes reader token rest after []
  | inLine {start : Nat} (hMode : reader.mode = .lineComment start) (hText : token.text ≠ "\n")
      (hAfter : after.mode = .lineComment start) : Takes reader token rest after []
  | inBlock {start : Nat} (hMode : reader.mode = .blockComment start) (hText : token.text ≠ "*/")
      (hAfter : after.mode = .blockComment start) : Takes reader token rest after []
  | closesLine {start : Nat} (hMode : reader.mode = .lineComment start) (hText : token.text = "\n")
      (hAfter : after.mode = .code) :
      Takes reader token rest after [.comment ⟨start, token.span.start⟩]
  | closesBlock {start : Nat} (hMode : reader.mode = .blockComment start)
      (hText : token.text = "*/") (hAfter : after.mode = .code) :
      Takes reader token rest after [.comment ⟨start, token.span.stop⟩]
  | inString (hMode : reader.mode = .string) : Takes reader token rest after [.filler token]
  | quote (hMode : reader.mode = .code) (hText : token.text = "\"") :
      Takes reader token rest after [.filler token]
  | character (hMode : reader.mode = .code) (hText : isPunctuation token.text = true) :
      Takes reader token rest after [.filler token]
  | blank (hMode : reader.mode = .code) (hBlank : token.isBlank = true)
      (hAfter : after.mode = .code) : Takes reader token rest after [.filler token]
  | word (hMode : reader.mode = .code) (hBlank : token.isBlank = false)
      (hText : token.text ≠ "--" ∧ token.text ≠ "/*") (hAfter : after.mode = .code) :
      Takes reader token rest after [.word (.ofToken token) reader.before
        ((Token.nextSignificant comments none rest).map .ofToken)]

/-- What a token does to mode and events is `Takes`: there is one case for each way of reading
it. -/
theorem takes (reader : Reader) (token : Token) (rest : List Token) :
    reader.Takes token rest (reader.read token rest) (reader.emitted token rest) := by
  have hMode : reader.forget.mode = reader.mode := rfl
  have hCharacter : reader.forget.isCharacter rest = reader.isCharacter rest := rfl
  rw [emitted, read, read, hMode]
  cases hCase : reader.mode with
  | lineComment start =>
      dsimp only
      split
      · next hText => exact .closesLine hCase hText rfl
      · next hText => exact .inLine hCase hText hCase
  | blockComment start =>
      dsimp only
      split
      · next hText => exact .closesBlock hCase hText rfl
      · next hText => exact .inBlock hCase hText hCase
  | string => exact .inString hCase
  | code =>
      dsimp only
      rw [readCode, readCode, hCharacter]
      split
      · next hText => exact .opensLine hCase hText rfl
      split
      · next hText => exact .opensBlock hCase hText rfl
      split
      · next hText => exact .quote hCase hText
      next hLine hBlock _ =>
      split
      · next hFiller =>
        rw [Bool.or_eq_true, Bool.and_eq_true] at hFiller
        rcases hFiller with hPunctuation | hBlank
        · exact .character hCase hPunctuation.1
        · exact .blank hCase hBlank hCase
      · next hFiller =>
        rw [Bool.or_eq_true, not_or, Bool.not_eq_true] at hFiller
        exact .word hCase (by simpa using hFiller.2) ⟨hLine, hBlock⟩ hCase

/-- The events of a token list begin with what its first token adds. -/
theorem upcoming_cons (size : Nat) (reader : Reader) (token : Token) (rest : List Token) :
    ∃ events after, reader.Takes token rest after events ∧
      reader.upcoming size (token :: rest) = events ++ after.upcoming size rest :=
  ⟨_, _, reader.takes token rest, isReader.upcoming_eq reader size token rest⟩

end Reader

theorem readEvents_eq_upcoming (size : Nat) (tokens : List Token) :
    readEvents size tokens = Reader.upcoming size {} tokens := rfl

end HdlIndex.Vhdl

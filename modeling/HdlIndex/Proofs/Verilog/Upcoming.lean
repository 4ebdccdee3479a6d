import HdlIndex.Proofs.Token.Reader
import HdlIndex.Verilog.Reading

/-! The events of a Verilog text that are still to come. What a reader adds does not depend on what
it has added, so the events of a token list are those of its first token, and then those that the
reader behind it still has to add. What a token adds depends on what the reader is inside of. -/
namespace HdlIndex.Verilog

namespace Reader

variable {reader : Reader} {token : Token} {tokens rest : List Token} {size : Nat}

/-- The reader with further events in front of its own. -/
def behind (events : Array Event) (reader : Reader) : Reader :=
  { reader with events := events ++ reader.events }

theorem emit_behind (events : Array Event) (event : Event) :
    (reader.behind events).emit event = (reader.emit event).behind events := by
  simp [emit, behind]

/-- In code the events that are there already are kept in front of the new ones. -/
theorem readCode_behind (events : Array Event) :
    (reader.behind events).readCode token rest = (reader.readCode token rest).behind events := by
  rw [readCode, readCode]
  split
  · rfl
  split
  · rfl
  split
  · rw [emit_behind]
    rfl
  split
  · exact emit_behind events _
  split
  · rfl
  split
  · exact emit_behind events _
  · dsimp only
    rw [emit_behind]

/-- So are they in every mode. -/
theorem read_behind (events : Array Event) :
    (reader.behind events).read token rest = (reader.read token rest).behind events := by
  rw [read, read, readCode_behind]
  have hMode : (reader.behind events).mode = reader.mode := rfl
  have hEscaped : (reader.behind events).isEscaped = reader.isEscaped := rfl
  rw [hMode, hEscaped]
  split
  · split
    · rw [emit_behind]
      rfl
    · rfl
  · split
    · rw [emit_behind]
      rfl
    · rfl
  · split
    · rw [emit_behind]
      rfl
    · rfl
  · rw [emit_behind]
    rfl
  · rfl

theorem finish_behind (events : Array Event) :
    (reader.behind events).finish size = events ++ reader.finish size := by
  have hMode : (reader.behind events).mode = reader.mode := rfl
  rw [finish, finish, hMode]
  split <;> simp [behind]

/-- The reader without its events. -/
def forget (reader : Reader) : Reader := { reader with events := #[] }

/-- The events that reading a token adds. -/
def emitted (reader : Reader) (token : Token) (rest : List Token) : List Event :=
  (reader.forget.read token rest).events.toList

/-- The events that are to come with the tokens, and with the end of a text of `size` bytes. -/
def upcoming (size : Nat) (reader : Reader) (tokens : List Token) : List Event :=
  ((reader.forget.readAll tokens).finish size).toList

/-- Reads tokens in view of those behind them. -/
def readOver : Reader → (tokens rest : List Token) → Reader
  | reader, [], _ => reader
  | reader, token :: tokens, rest => (reader.read token (tokens ++ rest)).readOver tokens rest

/-- The events that reading tokens adds in view of those behind them. -/
def emittedOver : Reader → (tokens rest : List Token) → List Event
  | _, [], _ => []
  | reader, token :: tokens, rest =>
    reader.emitted token (tokens ++ rest) ++
      (reader.read token (tokens ++ rest)).emittedOver tokens rest

/-- The reader of Verilog texts is one in the general sense. -/
theorem isReader : IsReader read readAll readOver events behind forget emitted emittedOver finish
    upcoming where
  readAll_nil _ := rfl
  readAll_cons _ _ _ := rfl
  readOver_nil _ _ := rfl
  readOver_cons _ _ _ _ := rfl
  behind_forget reader := by simp [forget, behind]
  events_behind _ _ := rfl
  forget_behind _ _ := rfl
  read_behind added _ _ _ := read_behind added
  finish_behind added _ _ := finish_behind added
  emitted_eq _ _ _ := rfl
  emittedOver_nil _ _ := rfl
  emittedOver_cons _ _ _ _ := rfl
  upcoming_def _ _ _ := rfl

/-- Outside of comments, strings and directives the sentinel ends a reading. -/
theorem finish_sentinel (hReader : reader.mode = .code) (offset size : Nat) :
    (reader.readAll [.sentinel offset]).finish size = reader.events.push (.ended offset) := by
  have hLine : (Token.sentinel offset).text ≠ "//" := (by decide : Token.sentinelText ≠ "//")
  have hBlock : (Token.sentinel offset).text ≠ "/*" := (by decide : Token.sentinelText ≠ "/*")
  have hString : (Token.sentinel offset).text ≠ "\"" := (by decide : Token.sentinelText ≠ "\"")
  have hRead : reader.readCode (.sentinel offset) [] = reader.emit (.ended offset) := by
    rw [readCode, if_neg hLine, if_neg hBlock, if_neg hString,
      Token.isSentinel_sentinel, if_pos rfl]
    rfl
  rw [readAll, readAll, read, hReader]
  dsimp only
  rw [hRead, finish, emit, hReader]

theorem upcoming_sentinel (hReader : reader.mode = .code) (offset size : Nat) :
    reader.upcoming size [.sentinel offset] = [.ended offset] := by
  have hForget : reader.forget.mode = .code := hReader
  rw [upcoming, finish_sentinel hForget, forget]
  rfl

/-- What reading a token adds, and what the reader is inside of behind it. -/
inductive Takes (reader : Reader) (token : Token) (rest : List Token) (after : Reader) :
    List Event → Prop where
  | opensLine (hMode : reader.mode = .code) (hText : token.text = "//")
      (hAfter : after.mode = .lineComment token.span.start) : Takes reader token rest after []
  | opensBlock (hMode : reader.mode = .code) (hText : token.text = "/*")
      (hAfter : after.mode = .blockComment token.span.start) : Takes reader token rest after []
  | opensDirective (hMode : reader.mode = .code) (hText : isLineDirective token.text = true)
      (hAfter : after.mode = .directive token.span.start) : Takes reader token rest after []
  | inLine {start : Nat} (hMode : reader.mode = .lineComment start) (hText : token.text ≠ "\n")
      (hAfter : after.mode = .lineComment start) : Takes reader token rest after []
  | inBlock {start : Nat} (hMode : reader.mode = .blockComment start) (hText : token.text ≠ "*/")
      (hAfter : after.mode = .blockComment start) : Takes reader token rest after []
  | inDirective {start : Nat} (hMode : reader.mode = .directive start)
      (hAfter : after.mode = .directive start) : Takes reader token rest after []
  | closesLine {start : Nat} (hMode : reader.mode = .lineComment start) (hText : token.text = "\n")
      (hAfter : after.mode = .code) :
      Takes reader token rest after [.comment ⟨start, token.span.start⟩]
  | closesBlock {start : Nat} (hMode : reader.mode = .blockComment start)
      (hText : token.text = "*/") (hAfter : after.mode = .code) :
      Takes reader token rest after [.comment ⟨start, token.span.stop⟩]
  | closesDirective {start : Nat} (hMode : reader.mode = .directive start)
      (hAfter : after.mode = .code) :
      Takes reader token rest after [.directive ⟨start, token.span.start⟩]
  | inString (hMode : reader.mode = .string) : Takes reader token rest after [.filler token]
  | quote (hMode : reader.mode = .code) (hText : token.text = "\"") :
      Takes reader token rest after [.filler token]
  | ended (hMode : reader.mode = .code) (hSentinel : token.isSentinel = true) :
      Takes reader token rest after [.ended token.span.start]
  | blank (hMode : reader.mode = .code) (hBlank : token.isBlank = true)
      (hAfter : after.mode = .code) : Takes reader token rest after [.filler token]
  | word (hMode : reader.mode = .code) (hBlank : token.isBlank = false)
      (hSentinel : token.isSentinel = false) (hAfter : after.mode = .code) :
      Takes reader token rest after [.word (.ofToken token)
        ((Token.nextSignificant comments none rest).map .ofToken)]

/-- What a token does to mode and events is `Takes`: there is one case for each way of reading
it. -/
theorem takes (reader : Reader) (token : Token) (rest : List Token) :
    reader.Takes token rest (reader.read token rest) (reader.emitted token rest) := by
  have hMode : reader.forget.mode = reader.mode := rfl
  rw [emitted, read, read, hMode]
  cases hCase : reader.mode with
  | lineComment start =>
      dsimp only
      split
      · next hText => exact .closesLine hCase hText rfl
      · next hText => exact .inLine hCase hText hCase
  | blockComment start =>
      dsimp only
      split
      · next hText => exact .closesBlock hCase hText rfl
      · next hText => exact .inBlock hCase hText hCase
  | directive start =>
      dsimp only
      split
      · exact .closesDirective hCase rfl
      · exact .inDirective hCase hCase
  | string => exact .inString hCase
  | code =>
      dsimp only
      rw [readCode, readCode]
      split
      · next hText => exact .opensLine hCase hText rfl
      split
      · next hText => exact .opensBlock hCase hText rfl
      split
      · next hText => exact .quote hCase hText
      split
      · next hSentinel => exact .ended hCase hSentinel
      next hSentinel =>
      split
      · next hText => exact .opensDirective hCase hText rfl
      split
      · next hBlank => exact .blank hCase hBlank hCase
      · next hBlank => exact .word hCase (by simpa using hBlank) (by simpa using hSentinel) hCase

/-- The events of a token list begin with what its first token adds. -/
theorem upcoming_cons (size : Nat) (reader : Reader) (token : Token) (rest : List Token) :
    ∃ events after, reader.Takes token rest after events ∧
      reader.upcoming size (token :: rest) = events ++ after.upcoming size rest :=
  ⟨_, _, reader.takes token rest, isReader.upcoming_eq reader size token rest⟩

/-- A token makes a blank, a word or the end of it, or it ends a comment or a directive. -/
theorem Takes.forall {after : Reader} {events : List Event} {Q : Event → Prop}
    (h : reader.Takes token rest after events) (hSpans : ∀ span, Q (.comment span) ∧
      Q (.directive span))
    (hToken : Q (.filler token) ∧ Q (.ended token.span.start) ∧
      ∀ next, Q (.word (.ofToken token) next)) :
    ∀ event ∈ events, Q event := by
  obtain ⟨hFiller, hEnded, hWord⟩ := hToken
  cases h <;> simp [hSpans, hFiller, hEnded, hWord]

/-- So what holds of comments, of directives and of what tokens make holds of every event to
come. -/
theorem upcoming_forall {Q : Event → Prop}
    (hSpans : ∀ span, Q (.comment span) ∧ Q (.directive span))
    (hTokens : ∀ token ∈ tokens, Q (.filler token) ∧ Q (.ended token.span.start) ∧
      ∀ next, Q (.word (.ofToken token) next))
    (size : Nat) (reader : Reader) : ∀ event ∈ reader.upcoming size tokens, Q event := by
  induction tokens generalizing reader with
  | nil =>
      intro event hEvent
      have hEvents : event ∈ reader.forget.finish size := Array.mem_toList_iff.1 hEvent
      rw [Reader.finish] at hEvents
      split at hEvents
      all_goals first
        | (obtain rfl : event = _ := by simpa [Reader.forget] using hEvents
           first
             | exact (hSpans _).1
             | exact (hSpans _).2)
        | simp [Reader.forget] at hEvents
  | cons token rest ih =>
      rw [List.forall_mem_cons] at hTokens
      obtain ⟨events, after, hTakes, hEvents⟩ := reader.upcoming_cons size token rest
      rw [hEvents, List.forall_mem_append]
      exact ⟨hTakes.forall hSpans hTokens.1, ih hTokens.2 after⟩

end Reader

theorem readEvents_eq_upcoming (size : Nat) (tokens : List Token) :
    readEvents size tokens = Reader.upcoming size {} tokens := rfl

end HdlIndex.Verilog

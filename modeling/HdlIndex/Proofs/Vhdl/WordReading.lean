import HdlIndex.Proofs.Token.Leads
import HdlIndex.Vhdl.Reading
import HdlIndex.Vhdl.Symbol
import HdlIndex.Vhdl.Walk
import Mathlib.Data.List.Forall2
import Mathlib.Tactic.FinCases

/-! The reading of tokens among which no comment, string or character literal opens. Each token
makes one event: a filler if it is blank, and a word otherwise. Such readings are what a machine
takes when it walks, also in front of further tokens. -/
namespace HdlIndex.Vhdl

/-- The token opens no comment and no string, and it is no tick. -/
def IsPlain (token : Token) : Prop := token.text ∉ ["--", "/*", "\"", "'"]

/-- The event that a plain token makes. What stands around a word is left open. -/
inductive Event.OfPlain : Token → Event → Prop where
  | filler {token : Token} (hBlank : token.isBlank = true) : OfPlain token (.filler token)
  | word {token : Token} (hBlank : token.isBlank = false) (before next : Option Lexeme) :
      OfPlain token (.word (.ofToken token) before next)

namespace Reader

/-- The reader is outside of comments and strings, and it passed no tick. -/
structure IsPlain (reader : Reader) : Prop where
  mode : reader.mode = .code
  last : ∀ token ∈ reader.passed.1, Vhdl.IsPlain token
  earlier : ∀ token ∈ reader.passed.2, Vhdl.IsPlain token

variable {reader : Reader} {token : Token} {tokens rest : List Token}

/-- A reader whose tokens had no tick is in no character literal. -/
theorem IsPlain.isCharacter (h : reader.IsPlain) : reader.isCharacter rest = false := by
  unfold Reader.isCharacter
  split
  · next last earlier following closing _ hPassed =>
    have hPlain : Vhdl.IsPlain earlier := h.earlier earlier (by rw [hPassed]; rfl)
    have hTick : earlier.text ≠ "'" := by
      intro hTick
      simp [Vhdl.IsPlain, hTick] at hPlain
    simp [hTick]
  · rfl

theorem IsPlain.readCode_blank (h : reader.IsPlain) (hToken : Vhdl.IsPlain token)
    (hBlank : token.isBlank = true) (rest : List Token) :
    reader.readCode token rest = reader.emit (.filler token) := by
  simp only [Vhdl.IsPlain, List.mem_cons, List.not_mem_nil, or_false, not_or] at hToken
  obtain ⟨hLine, hBlock, hString, -⟩ := hToken
  rw [Reader.readCode, if_neg hLine, if_neg hBlock, if_neg hString, h.isCharacter, hBlank]
  simp

/-- A plain word is read together with the word passed last and the one that follows. -/
theorem IsPlain.readCode_word (h : reader.IsPlain) (hToken : Vhdl.IsPlain token)
    (hBlank : token.isBlank = false) (rest : List Token) :
    reader.readCode token rest =
      { reader.emit (.word (.ofToken token) reader.before
          ((Token.nextSignificant comments none rest).map .ofToken)) with
        before := some (.ofToken token) } := by
  simp only [Vhdl.IsPlain, List.mem_cons, List.not_mem_nil, or_false, not_or] at hToken
  obtain ⟨hLine, hBlock, hString, -⟩ := hToken
  rw [Reader.readCode, if_neg hLine, if_neg hBlock, if_neg hString, h.isCharacter, hBlank]
  simp

/-- A plain token is read as one event, and the mode stays what it is. -/
theorem IsPlain.readCode (h : reader.IsPlain) (hToken : Vhdl.IsPlain token) (rest : List Token) :
    ∃ event before, Event.OfPlain token event ∧
      reader.readCode token rest = { reader.emit event with before } := by
  cases hBlank : token.isBlank with
  | true =>
      exact ⟨.filler token, reader.before, .filler hBlank, h.readCode_blank hToken hBlank rest⟩
  | false => exact ⟨_, _, .word hBlank _ _, h.readCode_word hToken hBlank rest⟩

/-- A plain token makes one event, and behind it the reader is as before. -/
theorem IsPlain.read (h : reader.IsPlain) (hToken : Vhdl.IsPlain token) (rest : List Token) :
    (reader.read token rest).IsPlain ∧
    ∃ event, Event.OfPlain token event ∧
      (reader.read token rest).events = reader.events.push event := by
  obtain ⟨event, before, hEvent, hRead⟩ := h.readCode hToken rest
  have hNext : reader.read token rest =
      { reader.emit event with before, passed := (some token, reader.passed.1) } := by
    rw [Reader.read, h.mode, hRead]
  rw [hNext]
  refine ⟨⟨h.mode, ?_, h.last⟩, event, hEvent, rfl⟩
  intro last hLast
  obtain rfl := Option.some.inj hLast
  exact hToken

/-- Plain tokens make one event each. -/
theorem IsPlain.readAll (h : reader.IsPlain) (hTokens : ∀ token ∈ tokens, Vhdl.IsPlain token) :
    (reader.readAll tokens).IsPlain ∧
    ∃ events, List.Forall₂ Event.OfPlain tokens events ∧
      (reader.readAll tokens).events.toList = reader.events.toList ++ events := by
  induction tokens generalizing reader with
  | nil => exact ⟨h, [], .nil, by simp [Reader.readAll]⟩
  | cons token tokens ih =>
      rw [List.forall_mem_cons] at hTokens
      obtain ⟨hRead, event, hEvent, hFirst⟩ := h.read hTokens.1 tokens
      obtain ⟨hAll, events, hEvents, hRest⟩ := ih hRead hTokens.2
      refine ⟨hAll, event :: events, .cons hEvent hEvents, ?_⟩
      rw [Reader.readAll, hRest, hFirst, Array.toList_push, List.append_assoc,
        List.singleton_append]

end Reader

/-- The reading of plain tokens is the list of their events. -/
theorem readEvents_ofPlain (size : Nat) {tokens : List Token}
    (hTokens : ∀ token ∈ tokens, IsPlain token) :
    List.Forall₂ Event.OfPlain tokens (readEvents size tokens) := by
  have hStart : Reader.IsPlain {} := ⟨rfl, by simp, by simp⟩
  obtain ⟨hEnd, events, hEvents, hList⟩ := hStart.readAll hTokens
  rw [readEvents, Reader.finish, hEnd.mode]
  simpa [hList] using hEvents

/-- The walk takes the events of plain tokens. No tick stands in front of a word. -/
def machine : Machine Event Walk where
  filler := .filler
  IsWord token next event := ∃ before : Option Lexeme,
    (∀ lexeme ∈ before, lexeme.symbol ≠ .tick) ∧
      event = .word (.ofToken token) before (next.map .ofToken)
  step := Walk.step

/-- A plain token is no tick. -/
theorem IsPlain.symbol_ne_tick {token : Token} (h : IsPlain token) :
    (Lexeme.ofToken token).symbol ≠ .tick := by
  intro hTick
  have hText : token.text = "'" := by
    apply Symbol.eq_of_spelling?
    rw [← Lexeme.symbol_ofToken rfl, hTick]
    rfl
  simp [IsPlain, hText] at h

namespace Reader

/-- Reads tokens in front of others. -/
def readBefore (rest : List Token) : Reader → List Token → Reader
  | reader, [] => reader
  | reader, token :: tokens => readBefore rest (reader.read token (tokens ++ rest)) tokens

/-- The reader is outside of comments and strings, and it passed no tick, however long ago the last
word was. -/
structure IsClear (reader : Reader) : Prop extends reader.IsPlain where
  before : ∀ lexeme ∈ reader.before, lexeme.symbol ≠ .tick

variable {reader : Reader} {token : Token} {tokens : List Token}

/-- A token list is read up to some place, and from there to its end. -/
theorem readAll_append (reader : Reader) (tokens rest : List Token) :
    reader.readAll (tokens ++ rest) = (reader.readBefore rest tokens).readAll rest := by
  induction tokens generalizing reader with
  | nil => rfl
  | cons token tokens ih => exact ih _

/-- Behind a plain token the reader is as clear as before. -/
theorem IsClear.read (h : reader.IsClear) (hToken : Vhdl.IsPlain token) (rest : List Token) :
    (reader.read token rest).IsClear := by
  refine ⟨(h.toIsPlain.read hToken rest).1, ?_⟩
  intro lexeme hLexeme
  rw [Reader.read, h.mode] at hLexeme
  dsimp only at hLexeme
  cases hBlank : token.isBlank with
  | true =>
      rw [h.readCode_blank hToken hBlank] at hLexeme
      exact h.before lexeme hLexeme
  | false =>
      rw [h.readCode_word hToken hBlank] at hLexeme
      obtain rfl := Option.some.inj hLexeme
      exact hToken.symbol_ne_tick

/-- Plain tokens are read as events that the walk takes, whatever follows them. -/
theorem IsClear.readBefore (h : reader.IsClear) (hTokens : ∀ token ∈ tokens, Vhdl.IsPlain token)
    (rest : List Token) :
    (reader.readBefore rest tokens).IsClear ∧
    ∃ events, machine.Reads tokens (Token.nextSignificant comments none rest) events ∧
      (reader.readBefore rest tokens).events.toList = reader.events.toList ++ events := by
  induction tokens generalizing reader with
  | nil => exact ⟨h, [], .nil _, by simp [Reader.readBefore]⟩
  | cons token tokens ih =>
      rw [List.forall_mem_cons] at hTokens
      obtain ⟨hClear, events, hReads, hEvents⟩ := ih (h.read hTokens.1 _) hTokens.2
      refine ⟨hClear, ?_⟩
      rw [Reader.readBefore, hEvents, Reader.read, h.mode]
      dsimp only
      cases hBlank : token.isBlank with
      | true =>
          refine ⟨.filler token :: events, .filler hBlank hReads, ?_⟩
          rw [h.readCode_blank hTokens.1 hBlank]
          simp [emit]
      | false =>
          have hNext : Token.nextSignificant comments none (tokens ++ rest) =
              (significant tokens).head?.or (Token.nextSignificant comments none rest) := by
            apply Token.nextSignificant_append
            intro other hOther pair hPair hText
            have hPlain := hTokens.2 other hOther
            simp only [comments, List.mem_cons, List.not_mem_nil, or_false] at hPair
            rcases hPair with rfl | rfl <;> simp [Vhdl.IsPlain, ← hText] at hPlain
          refine ⟨_ :: events, .word hBlank ⟨reader.before, h.before, rfl⟩ hReads, ?_⟩
          rw [h.readCode_word hTokens.1 hBlank, hNext]
          simp [emit]

end Reader

/-- The reading of plain tokens is one that the walk takes. -/
theorem readEvents_reads (size : Nat) {tokens : List Token}
    (hTokens : ∀ token ∈ tokens, IsPlain token) :
    machine.Reads tokens none (readEvents size tokens) := by
  have hStart : Reader.IsClear {} := ⟨⟨rfl, by simp, by simp⟩, by simp⟩
  obtain ⟨hClear, events, hReads, hEvents⟩ := hStart.readBefore hTokens []
  have hAll := Reader.readAll_append {} tokens []
  rw [List.append_nil] at hAll
  rw [readEvents, Reader.finish, hAll, Reader.readAll, hClear.mode]
  rwa [hEvents]

namespace Walk

/-- The walk is another one brought to a place, apart from its notes. -/
def Stands (base : Walk) (place : Place) (walk : Walk) : Prop :=
  ∃ notes, walk = { base with place, notes }

variable {base : Walk} {place : Place} {Q R : Walk → Prop} {word : Token} {words : List Token}
  {after : Option Token}

/-- A place that no blank changes is kept. -/
theorem Stands.idle (hPlace : ∀ token, token.isBlank = true → place.absorb token = place) :
    machine.Idle (base.Stands place) := by
  rintro token _ hBlank ⟨notes, rfl⟩
  exact ⟨notes, by simp [machine, step, hPlace token hBlank]⟩

/-- A word is read where the walk stands, with the word that follows it. -/
theorem Stands.leads (hPlace : ∀ token, token.isBlank = true → place.absorb token = place)
    (hRead : ∀ (before : Option Lexeme) notes, (∀ lexeme ∈ before, lexeme.symbol ≠ .tick) →
      Q (({ base with place, notes } : Walk).read (.ofToken word) before
        ((words.head?.or after).map .ofToken)))
    (hRest : machine.LeadsThrough words after Q R) :
    machine.LeadsThrough (word :: words) after (base.Stands place) R := by
  apply Machine.LeadsThrough.cons (idle hPlace) _ hRest
  rintro _ _ ⟨before, hBefore, rfl⟩ ⟨notes, rfl⟩
  exact hRead before _ hBefore

end Walk

end HdlIndex.Vhdl

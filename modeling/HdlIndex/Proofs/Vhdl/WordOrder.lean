import HdlIndex.Proofs.Token.Words
import HdlIndex.Proofs.Vhdl.StatementWords
import HdlIndex.Proofs.Vhdl.Upcoming
import HdlIndex.Proofs.Vhdl.WordReading
import HdlIndex.Vhdl.Reading
import Mathlib.Tactic.FinCases

/-! The order of the words of a reading. Each word is behind the one before it, and a reserved word
that was seen ahead of time is the word that comes next. -/
namespace HdlIndex.Vhdl

/-- The word that an event is. -/
def Event.word? : Event → Option Lexeme
  | .word here _ _ => some here
  | _ => none

/-- The first word of the events. -/
def firstWord? (events : List Event) : Option Lexeme := events.findSome? Event.word?

/-- From a byte offset on, the words follow each other up to another offset, and a reserved word
that is seen behind one of them comes next. -/
def Follows : Nat → List Event → Nat → Prop
  | offset, [], stop => offset ≤ stop
  | offset, .word here _ next :: events, stop =>
    offset ≤ here.span.start ∧ here.span.start < here.span.stop ∧
    (∀ lexeme ∈ next, lexeme.symbol.isKeyword = true → firstWord? events = some lexeme) ∧
    Follows here.span.stop events stop
  | offset, _ :: events, stop => Follows offset events stop

/-- Events that follow an offset follow every earlier one. -/
theorem Follows.mono {offset later stop : Nat} {events : List Event} (h : Follows later events stop)
    (hLe : offset ≤ later) : Follows offset events stop := by
  induction events with
  | nil => exact hLe.trans h
  | cons event events ih =>
      cases event with
      | comment span => exact ih h
      | filler token => exact ih h
      | word here before next => exact ⟨hLe.trans h.1, h.2⟩

/-- The first word of events that follow an offset stands behind it, and is not empty. -/
theorem Follows.firstWord {offset stop : Nat} {events : List Event} {lexeme : Lexeme}
    (h : Follows offset events stop) (hFirst : firstWord? events = some lexeme) :
    offset ≤ lexeme.span.start ∧ lexeme.span.start < lexeme.span.stop := by
  induction events with
  | nil => cases hFirst
  | cons event events ih =>
      cases event with
      | comment span => exact ih h hFirst
      | filler token => exact ih h hFirst
      | word here before next =>
          obtain rfl := Option.some.inj hFirst
          exact ⟨h.1, h.2.1⟩

/-- The token that ends the comment under way. -/
def Mode.closer? : Mode → Option String
  | .lineComment _ => some "\n"
  | .blockComment _ => some "*/"
  | .code | .string => none

section Ahead

variable {token : Token} (rest : List Token)

theorem nextSignificant_line (h : token.text = "--") :
    Token.nextSignificant comments none (token :: rest) =
      Token.nextSignificant comments (some "\n") rest := by
  have hBlank : token.isBlank = false := by rw [Token.isBlank, h]; decide
  have hFind : comments.find? (·.1 = token.text) = some ("--", "\n") := by rw [h]; rfl
  rw [Token.nextSignificant, hBlank, hFind]
  rfl

theorem nextSignificant_block (h : token.text = "/*") :
    Token.nextSignificant comments none (token :: rest) =
      Token.nextSignificant comments (some "*/") rest := by
  have hBlank : token.isBlank = false := by rw [Token.isBlank, h]; decide
  have hFind : comments.find? (·.1 = token.text) = some ("/*", "*/") := by rw [h]; rfl
  rw [Token.nextSignificant, hBlank, hFind]
  rfl

theorem nextSignificant_blank (h : token.isBlank = true) :
    Token.nextSignificant comments none (token :: rest) =
      Token.nextSignificant comments none rest := by
  rw [Token.nextSignificant, h]
  rfl

theorem nextSignificant_word (hBlank : token.isBlank = false)
    (hText : token.text ≠ "--" ∧ token.text ≠ "/*") :
    Token.nextSignificant comments none (token :: rest) = some token := by
  have hFind : comments.find? (·.1 = token.text) = none := by
    simp [comments, hText.1.symm, hText.2.symm]
  rw [Token.nextSignificant, hBlank, hFind]
  rfl

theorem nextSignificant_inside {closer : String} (h : token.text ≠ closer) :
    Token.nextSignificant comments (some closer) (token :: rest) =
      Token.nextSignificant comments (some closer) rest := by
  rw [Token.nextSignificant, if_neg h]

theorem nextSignificant_closer {closer : String} (h : token.text = closer) :
    Token.nextSignificant comments (some closer) (token :: rest) =
      Token.nextSignificant comments none rest := by
  rw [Token.nextSignificant, if_pos h]

theorem Symbol.isWord_of_isKeyword {symbol : Symbol} (h : symbol.isKeyword = true) :
    symbol.isWord = true := by
  cases symbol <;> first | rfl | cases h

/-- Quotes and the punctuation of character literals do not start like identifiers. -/
theorem symbol_of_mark (h : token.text ∈ ["\"", "(", ")", ";", ","]) :
    ¬ (Symbol.ofText token.text).isWord = true ∧ token.isBlank = false ∧
      token.text ≠ "--" ∧ token.text ≠ "/*" := by
  rw [Token.isBlank]
  generalize token.text = text at h
  fin_cases h <;> decide

end Ahead

namespace Reader

variable {reader : Reader} {tokens : List Token}

/-- What looking ahead makes of a token that is read outside of strings. It passes over comments and
blanks as the reader does, and sees every other token. Those are words, unless they are quotes or
the punctuation of character literals. -/
theorem Takes.ahead {after : Reader} {events : List Event} {token : Token} {rest : List Token}
    (h : reader.Takes token rest after events) (hMode : reader.mode ≠ .string) :
    (after.mode ≠ .string ∧
      Token.nextSignificant comments reader.mode.closer? (token :: rest) =
        Token.nextSignificant comments after.mode.closer? rest ∧
      ∀ event ∈ events, (∃ span, event = .comment span) ∨
        event = .filler token ∧ token.isBlank = true) ∨
    (Token.nextSignificant comments reader.mode.closer? (token :: rest) = some token ∧
      ((∃ before next, events = [.word (.ofToken token) before next]) ∨
        events = [.filler token] ∧ token.text ∈ ["\"", "(", ")", ";", ","])) := by
  have hMark (hCode : reader.mode = .code) (hText : token.text ∈ ["\"", "(", ")", ";", ","]) :
      Token.nextSignificant comments reader.mode.closer? (token :: rest) = some token := by
    rw [hCode]
    exact nextSignificant_word rest (symbol_of_mark hText).2.1 (symbol_of_mark hText).2.2
  cases h with
  | opensLine hCode hText hAfter =>
      refine .inl ⟨by simp [hAfter], ?_, by simp⟩
      rw [hCode, hAfter]
      exact nextSignificant_line rest hText
  | opensBlock hCode hText hAfter =>
      refine .inl ⟨by simp [hAfter], ?_, by simp⟩
      rw [hCode, hAfter]
      exact nextSignificant_block rest hText
  | inLine hLine hText hAfter =>
      refine .inl ⟨by simp [hAfter], ?_, by simp⟩
      rw [hLine, hAfter]
      exact nextSignificant_inside rest hText
  | inBlock hBlock hText hAfter =>
      refine .inl ⟨by simp [hAfter], ?_, by simp⟩
      rw [hBlock, hAfter]
      exact nextSignificant_inside rest hText
  | closesLine hLine hText hAfter =>
      refine .inl ⟨by simp [hAfter], ?_, by simp⟩
      rw [hLine, hAfter]
      exact nextSignificant_closer rest hText
  | closesBlock hBlock hText hAfter =>
      refine .inl ⟨by simp [hAfter], ?_, by simp⟩
      rw [hBlock, hAfter]
      exact nextSignificant_closer rest hText
  | inString hString => exact absurd hString hMode
  | quote hCode hText =>
      have hText : token.text ∈ ["\"", "(", ")", ";", ","] := by simp [hText]
      exact .inr ⟨hMark hCode hText, .inr ⟨rfl, hText⟩⟩
  | character hCode hText =>
      have hText : token.text ∈ ["\"", "(", ")", ";", ","] := by
        simp only [isPunctuation, Bool.or_eq_true, decide_eq_true_eq] at hText
        rcases hText with ((hText | hText) | hText) | hText <;> simp [hText]
      exact .inr ⟨hMark hCode hText, .inr ⟨rfl, hText⟩⟩
  | blank hCode hBlank hAfter =>
      refine .inl ⟨by simp [hAfter], ?_, by simp [hBlank]⟩
      rw [hCode, hAfter]
      exact nextSignificant_blank rest hBlank
  | word hCode hBlank hText hAfter =>
      refine .inr ⟨?_, .inl ⟨_, _, rfl⟩⟩
      rw [hCode]
      exact nextSignificant_word rest hBlank hText

/-- What is seen ahead is the word that comes next, if it starts like an identifier, and if nothing
is seen there is no further word. -/
theorem firstWord?_upcoming (size : Nat) (hMode : reader.mode ≠ .string)
    (hNext : ∀ token ∈ Token.nextSignificant comments reader.mode.closer? tokens,
      (Lexeme.ofToken token).symbol.isWord = true) :
    firstWord? (reader.upcoming size tokens) =
      (Token.nextSignificant comments reader.mode.closer? tokens).map .ofToken := by
  induction tokens generalizing reader with
  | nil =>
      rw [upcoming, readAll, finish, firstWord?]
      have hForget : reader.forget.mode = reader.mode := rfl
      rw [hForget, Token.nextSignificant]
      split <;> simp [forget, Event.word?]
  | cons token rest ih =>
      obtain ⟨events, after, hTakes, hUpcoming⟩ := reader.upcoming_cons size token rest
      rw [hUpcoming, firstWord?, List.findSome?_append]
      rcases hTakes.ahead hMode with
        ⟨hAfter, hSame, hLayout⟩ | ⟨hSeen, ⟨before, next, rfl⟩ | ⟨-, hText⟩⟩
      · have hNone : events.findSome? Event.word? = none := by
          rw [List.findSome?_eq_none_iff]
          intro event hMem
          rcases hLayout event hMem with ⟨span, rfl⟩ | ⟨rfl, -⟩ <;> rfl
        rw [hNone, Option.none_or, hSame]
        exact ih hAfter (hSame ▸ hNext)
      · rw [hSeen]
        rfl
      · exact absurd (hNext token hSeen) (symbol_of_mark hText).1

/-- Words have text, and they follow each other as the tokens do. -/
theorem follows_upcoming (size : Nat) {offset stop : Nat}
    (hContiguous : Contiguous offset tokens stop)
    (hTokens : ∀ token ∈ tokens, token.span.stop = token.span.start + token.text.utf8ByteSize) :
    Follows offset (reader.upcoming size tokens) stop := by
  induction tokens generalizing reader offset with
  | nil =>
      have hEnd : offset ≤ stop := Nat.le_of_eq hContiguous
      rw [upcoming, readAll, finish]
      split <;> exact hEnd
  | cons token rest ih =>
      obtain ⟨hStart, hStop, hRest⟩ := hContiguous
      rw [List.forall_mem_cons] at hTokens
      obtain ⟨events, after, hTakes, hUpcoming⟩ := reader.upcoming_cons size token rest
      rw [hUpcoming]
      have hAll : Follows token.span.stop (after.upcoming size rest) stop := ih hRest hTokens.2
      have hFrom := hAll.mono hStop
      cases hTakes with
      | word hCode hBlank hText hAfter =>
          have hSize : token.text.utf8ByteSize ≠ 0 := by
            intro hEmpty
            rw [String.utf8ByteSize_eq_zero_iff] at hEmpty
            simp [Token.isBlank, hEmpty] at hBlank
          refine ⟨hStart.ge, ?_, fun lexeme hNext hKeyword => ?_, hAll⟩
          · show token.span.start < token.span.stop
            omega
          · obtain ⟨next, hSeen, rfl⟩ := Option.map_eq_some_iff.1 hNext
            have hAhead : Token.nextSignificant comments after.mode.closer? rest = some next := by
              rw [hAfter]
              exact hSeen
            have hMode : after.mode ≠ .string := by simp [hAfter]
            have hWord : ∀ token ∈ Token.nextSignificant comments after.mode.closer? rest,
                (Lexeme.ofToken token).symbol.isWord = true := by
              rw [hAhead]
              rintro _ ⟨⟩
              exact Symbol.isWord_of_isKeyword hKeyword
            have hComes := firstWord?_upcoming size hMode hWord
            rw [hAhead] at hComes
            exact hComes
      | _ => exact hFrom

end Reader

/-- The words of a text follow each other up to where reading ended. -/
theorem follows_readEvents (limit : Option Nat) (text : String) (size : Nat) :
    Follows 0 (readEvents size (tokens limit text).list) (tokens limit text).scanned := by
  rw [readEvents_eq_upcoming]
  refine Reader.follows_upcoming size (tokenize_contiguous ..) fun token hToken => ?_
  have hStands : token.word.StandsIn (Text.foldCase text) := by
    simpa using tokenize_standsIn delimiters limit false (Text.foldCase text) token hToken
  exact (standsIn_inherited _).stop_eq hStands

end HdlIndex.Vhdl

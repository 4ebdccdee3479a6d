import HdlIndex.Proofs.Token.Leads
import HdlIndex.Verilog.Symbol
import HdlIndex.Verilog.Walk
import Mathlib.Tactic.FinCases

/-! The reading of tokens among which no comment, string or directive opens, and the walk as a
machine that takes it. -/
namespace HdlIndex.Verilog

/-- The word opens no comment, no string and no directive, and it closes no token list. -/
def isPlainText (text : String) : Bool :=
  ! ["//", "/*", "\"", Token.sentinelText].contains text && ! isLineDirective text

/-- The walk takes the events of plain tokens. -/
def machine : Machine Event Walk where
  filler := .filler
  IsWord token next event := event = .word (.ofToken token) (next.map .ofToken)
  step := Walk.step

variable {token : Token} {tokens rest : List Token}

theorem isPlainText_of_isBlank (hBlank : token.isBlank = true) : isPlainText token.text = true := by
  rw [Token.isBlank] at hBlank
  rw [← Bool.not_eq_false, isPlainText, Bool.and_eq_false_iff, Bool.not_eq_false',
    Bool.not_eq_false', isLineDirective, List.contains_iff_mem, List.contains_iff_mem]
  generalize token.text = text at hBlank
  rintro (hMem | hMem) <;> fin_cases hMem <;> exact absurd hBlank (by decide)

/-- Blanks are plain, so that it suffices to look at words. -/
theorem isPlainText_of_significant
    (h : ∀ word ∈ (significant tokens).map (·.text), isPlainText word = true) :
    ∀ token ∈ tokens, isPlainText token.text = true := by
  intro token hMem
  cases hBlank : token.isBlank with
  | true => exact isPlainText_of_isBlank hBlank
  | false =>
      exact h token.text (List.mem_map_of_mem (List.mem_filter.2 ⟨hMem, by simp [hBlank]⟩))

namespace Reader

variable {reader : Reader}

/-- Reads tokens in front of others. -/
def readBefore (rest : List Token) : Reader → List Token → Reader
  | reader, [] => reader
  | reader, token :: tokens => readBefore rest (reader.read token (tokens ++ rest)) tokens

/-- A token list is read up to some place, and from there to its end. -/
theorem readAll_append (reader : Reader) (tokens rest : List Token) :
    reader.readAll (tokens ++ rest) = (reader.readBefore rest tokens).readAll rest := by
  induction tokens generalizing reader with
  | nil => rfl
  | cons token tokens ih => exact ih _

/-- A plain token makes one event. -/
theorem readCode_of_isPlainText (hToken : isPlainText token.text = true) (rest : List Token) :
    reader.readCode token rest = reader.emit (if token.isBlank then .filler token
      else .word (.ofToken token) ((Token.nextSignificant comments none rest).map .ofToken)) := by
  simp only [isPlainText, Bool.and_eq_true, Bool.not_eq_true', List.contains_eq_mem,
    decide_eq_false_iff_not, List.mem_cons, List.not_mem_nil, or_false, not_or] at hToken
  obtain ⟨⟨hLine, hBlock, hString, hSentinel⟩, hDirective⟩ := hToken
  have hOpen : token.isSentinel = false := by simp [Token.isSentinel, hSentinel]
  rw [readCode, if_neg hLine, if_neg hBlock, if_neg hString, hOpen, hDirective]
  cases token.isBlank <;> simp

/-- Plain tokens are read as events that the walk takes, whatever follows them. -/
theorem reads_readBefore (hReader : reader.mode = .code)
    (hTokens : ∀ token ∈ tokens, isPlainText token.text = true) (rest : List Token) :
    (reader.readBefore rest tokens).mode = .code ∧
    ∃ events, machine.Reads tokens (Token.nextSignificant comments none rest) events ∧
      (reader.readBefore rest tokens).events.toList = reader.events.toList ++ events := by
  induction tokens generalizing reader with
  | nil => exact ⟨hReader, [], .nil _, by simp [readBefore]⟩
  | cons token tokens ih =>
      rw [List.forall_mem_cons] at hTokens
      have hRead : reader.read token (tokens ++ rest) =
          { reader.readCode token (tokens ++ rest) with passed := some token } := by
        rw [read, hReader]
      rw [readCode_of_isPlainText hTokens.1] at hRead
      have hCode : (reader.read token (tokens ++ rest)).mode = .code := by
        rw [hRead]
        exact hReader
      obtain ⟨hMode, events, hReads, hEvents⟩ := ih hCode hTokens.2
      refine ⟨hMode, ?_⟩
      rw [readBefore, hEvents, hRead]
      cases hBlank : token.isBlank with
      | true => exact ⟨.filler token :: events, .filler hBlank hReads, by simp [emit]⟩
      | false =>
          have hNext : Token.nextSignificant comments none (tokens ++ rest) =
              (significant tokens).head?.or (Token.nextSignificant comments none rest) := by
            apply Token.nextSignificant_append
            intro other hOther pair hPair hText
            have hPlain := hTokens.2 other hOther
            simp only [comments, List.mem_cons, List.not_mem_nil, or_false] at hPair
            rcases hPair with rfl | rfl <;> simp [isPlainText, ← hText] at hPlain
          exact ⟨_ :: events, .word hBlank rfl hReads, by simp [emit, hNext]⟩

end Reader

namespace Walk

/-- The walk is another one brought to a place with a label awaited there, apart from its notes. -/
def Awaits (base : Walk) (label : Label) (place : Place) (walk : Walk) : Prop :=
  ∃ notes, walk = { base with place, label, notes }

/-- The walk is another one brought to a place, apart from its notes. -/
def Stands (base : Walk) (place : Place) : Walk → Prop := base.Awaits .idle place

variable {base : Walk} {label : Label} {place : Place} {Q R : Walk → Prop} {word : Token}
  {words : List Token} {after : Option Token}

/-- What plain tokens lead to, the walk over them leads to, whatever stands in front of them and
behind them. -/
theorem run_readBefore {start : Walk} {reader : Reader} {tokens rest : List Token}
    {P Q : Walk → Prop} (hReader : reader.mode = .code)
    (hTokens : ∀ token ∈ tokens, isPlainText token.text = true)
    (hLeads : machine.Leads tokens (Token.nextSignificant comments none rest) P Q)
    (hStart : P (start.run reader.events.toList)) :
    Q (start.run (reader.readBefore rest tokens).events.toList) := by
  obtain ⟨-, events, hReads, hEvents⟩ := Reader.reads_readBefore hReader hTokens rest
  rw [hEvents, run, List.foldl_append]
  exact hLeads events _ hReads hStart

/-- A place that no blank changes is kept. -/
theorem Awaits.idle (hPlace : ∀ token, token.isBlank = true → place.absorb token = place) :
    machine.Idle (base.Awaits label place) := by
  rintro token _ hBlank ⟨notes, rfl⟩
  exact ⟨notes, by simp [machine, step, hPlace token hBlank]⟩

/-- A word is read where the walk stands. -/
theorem Stands.reads {walk : Walk} (h : base.Stands place walk) {here : Lexeme}
    {next : Option Lexeme}
    (hRead : ∀ notes, Q (({ base with place, label := .idle, notes } : Walk).read here next)) :
    Q (walk.step (.word here next)) := by
  obtain ⟨notes, rfl⟩ := h
  exact hRead _

/-- A word is read where the walk stands, with the word that follows it. -/
theorem Stands.leads (hPlace : ∀ token, token.isBlank = true → place.absorb token = place)
    (hRead : ∀ notes, Q (({ base with place, label := .idle, notes } : Walk).read (.ofToken word)
      ((words.head?.or after).map .ofToken)))
    (hRest : machine.LeadsThrough words after Q R) :
    machine.LeadsThrough (word :: words) after (base.Stands place) R := by
  apply Machine.LeadsThrough.cons (Awaits.idle hPlace) _ hRest
  rintro _ walk rfl hWalk
  exact Stands.reads hWalk hRead

/-- A colon and a name are taken as the label that is awaited. -/
theorem Awaits.leads_label {colon : Token} (recorded : Bool)
    (hPlace : ∀ token, token.isBlank = true → place.absorb token = place)
    (hColon : colon.text = ":") (hWord : (Symbol.ofText word.text).isWord = true)
    (hRest : machine.LeadsThrough words after
      (Stands { base with
        found.labels :=
          if recorded then base.found.labels.push (Lexeme.ofToken word).word
          else base.found.labels } place) Q) :
    machine.LeadsThrough (colon :: word :: words) after
      (base.Awaits (.colon recorded) place) Q := by
  have hName : machine.LeadsThrough (word :: words) after
      (base.Awaits (.name recorded) place) Q := by
    apply Machine.LeadsThrough.cons (Awaits.idle hPlace) _ hRest
    rintro _ _ rfl ⟨notes, rfl⟩
    refine ⟨notes, ?_⟩
    have hSymbol : (Lexeme.ofToken word).symbol.isWord = true := hWord
    cases recorded <;> simp [machine, step, readWord, readLabel?, hSymbol, collect]
  apply Machine.LeadsThrough.cons (Awaits.idle hPlace) _ hName
  rintro _ _ rfl ⟨notes, rfl⟩
  refine ⟨notes, ?_⟩
  have hSymbol : (Lexeme.ofToken colon).symbol = .colon := Lexeme.symbol_ofToken hColon
  simp [machine, step, readWord, readLabel?, hSymbol]

end Walk

end HdlIndex.Verilog

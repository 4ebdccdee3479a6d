import HdlIndex.Proofs.LookAhead
import HdlIndex.Proofs.Token.Collected

/-! White space where texts are split and where tokens are read. Splitting takes a run of spaces,
tabs, carriage returns, vertical tabs and form feeds for one delimiter; reading skips the tokens
that are made of ASCII blanks, among which a vertical tab is not. The two agree on every run without
a vertical tab, and a run with one in it is read as a word. -/
namespace HdlIndex

open String (utf8Len)

namespace Language

theorem delimiters_areBroken (language : Language) : Delimiter.AreBroken language.delimiters := by
  cases language with
  | vhdl => exact Vhdl.delimiters_areBroken
  | verilog => exact Verilog.delimiters_areBroken

/-- No comment opens with a run of blanks. -/
theorem opener_hasBlack (language : Language) :
    ∀ pair ∈ language.comments, pair.1.toList.any (! Delimiter.isGap ·) = true := by
  cases language <;> decide

end Language

namespace Token

/-- The token is a run of blanks of the text. Such a run is cut off as a delimiter of its own: there
are no blanks in words, and none in delimiters that are fixed texts. -/
def IsGap (token : Token) (text : String) : Prop :=
  Delimiter.blank.MatchesAt text token.span.start token.text

variable {token : Token} {text : String} {tokens : List Token}

theorem IsGap.forall_isGap (h : token.IsGap text) :
    ∀ c ∈ token.text.toList, Delimiter.isGap c = true := by
  obtain ⟨before, rest, -, -, hMatch⟩ := h
  cases hMatch with
  | blank hRun hGaps hRest => exact hGaps

theorem IsGap.isEmpty_eq_false (h : token.IsGap text) : token.isEmpty = false := by
  obtain ⟨before, rest, -, -, hMatch⟩ := h
  have hSome := hMatch.ne_nil
  simpa [isEmpty] using hSome

/-- A run of blanks is blank to the reader unless there is a vertical tab in it. -/
theorem IsGap.isBlank_iff (h : token.IsGap text) :
    token.isBlank = true ↔ '\x0b' ∉ token.text.toList := by
  rw [isBlank, List.all_eq_true]
  constructor
  · intro hBlank hTab
    cases hBlank _ hTab
  · intro hTab c hChar
    refine isAsciiBlank_of_isGap (h.forall_isGap c hChar) ?_
    rintro rfl
    exact hTab hChar

/-- A run of blanks is no text that has something else in it. -/
theorem IsGap.text_ne (h : token.IsGap text) {other : String}
    (hOther : other.toList.any (! Delimiter.isGap ·) = true) : token.text ≠ other := by
  rintro rfl
  obtain ⟨c, hChar, hNot⟩ := List.any_eq_true.1 hOther
  rw [h.forall_isGap c hChar] at hNot
  cases hNot

theorem isBlank_sentinel (offset : Nat) : (sentinel offset).isBlank = false := by
  have hText : sentinelText.toList.all Text.isAsciiBlank = false := by decide
  exact hText

/-- Looking ahead finds no blank token. -/
theorem nextSignificant_ne {comments : List (String × String)} {closer : Option String}
    (h : token.isBlank = true) : nextSignificant comments closer tokens ≠ some token := by
  intro hNext
  obtain ⟨-, -, -, -, hBlank, -⟩ := exists_of_nextSignificant hNext
  rw [h] at hBlank
  cases hBlank

/-- It finds the first token outside of comments if that is not passed over. -/
theorem nextSignificant_cons {comments : List (String × String)} (hBlank : token.isBlank = false)
    (hOpener : ∀ pair ∈ comments, token.text ≠ pair.1) (rest : List Token) :
    nextSignificant comments none (token :: rest) = some token := by
  have hFind : comments.find? (·.1 = token.text) = none := by
    rw [List.find?_eq_none]
    intro pair hMem
    simpa using (hOpener pair hMem).symm
  rw [nextSignificant, if_neg (by simp [hBlank]), hFind]

end Token

variable {delimiters : List Delimiter} {limit : Option Nat} {closed : Bool} {offset scanned : Nat}
  {chars : List Char} {tokens : List Token} {text : String}

/-- White space is in no token but new-lines and runs of blanks. -/
theorem SplitsInto.isGap_of_isWhite
    (h : SplitsInto delimiters limit closed offset chars tokens scanned)
    (hBroken : Delimiter.AreBroken delimiters) (before : List Char)
    (hText : text.toList = before ++ chars) (hOffset : utf8Len before = offset) :
    ∀ token ∈ tokens, ∀ c ∈ token.text.toList, Delimiter.isWhite c = true →
      token.text = "\n" ∨ token.IsGap text := by
  induction h generalizing before with
  | done => simp
  | stopped => simp
  | @cut offset scanned chars cut tokens hLimit hCut rest ih =>
      obtain ⟨hParts, -, -⟩ := cut?_eq_some hCut
      subst hOffset
      rw [hParts] at hText
      have hNext : text.toList = before ++ cut.word ++ cut.delimiter ++ cut.rest := by simp [hText]
      rw [List.forall_mem_cons, List.forall_mem_cons, toList_text_placed, toList_text_placed]
      refine ⟨fun c hChar hWhite => ?_, fun c hChar hWhite => ?_, ?_⟩
      · exact absurd hChar (not_mem_word (Delimiter.takeFirst?_white hBroken hWhite) hCut)
      · obtain ⟨delimiter, hMem, hMatch⟩ := cut_matches hCut
        cases hMatch with
        | literal hSome =>
            left
            rw [Token.placed, hBroken.alone _ hMem c hChar hWhite]
        | blank hRun hGaps hRest =>
            refine .inr ⟨before ++ cut.word, cut.rest, ?_, String.utf8Len_append _ _, ?_⟩
            · rw [toList_text_placed, hNext]
            · rw [toList_text_placed]
              exact .blank hRun hGaps hRest
      · exact ih (before ++ cut.word ++ cut.delimiter) hNext (by simp [Nat.add_assoc])
  | @last offset chars hChars hLimit hCut =>
      rw [List.forall_mem_cons, toList_text_placed]
      refine ⟨fun c hChar hWhite => ?_, ?_⟩
      · exact absurd hChar (not_mem_last (Delimiter.takeFirst?_white hBroken hWhite) hCut)
      · cases closed with
        | true => simp
        | false =>
            rw [if_neg (by decide), List.forall_mem_singleton, toList_text_placed]
            simp

/-- The tokens that the reader takes for white space are those without text, the new-lines, and the
runs of blanks without vertical tabs. -/
theorem tokenize_isBlank_iff (hBroken : Delimiter.AreBroken delimiters) (limit : Option Nat)
    (closed : Bool) (text : String) :
    ∀ token ∈ (tokenize delimiters limit closed text).list, token.isBlank = true ↔
      token.text = "" ∨ token.text = "\n" ∨ token.IsGap text ∧ '\x0b' ∉ token.text.toList := by
  obtain ⟨tokens, hList, hSplits⟩ := tokenize_splitsInto delimiters limit closed text
  have hWhite := hSplits.isGap_of_isWhite hBroken [] rfl rfl
  intro token hMem
  constructor
  · intro hBlank
    rw [hList, List.mem_append] at hMem
    rcases hMem with hMem | hMem
    · cases hChars : token.text.toList with
      | nil => exact .inl (String.toList_eq_nil_iff.1 hChars)
      | cons c chars =>
          have hChar : c ∈ token.text.toList := hChars ▸ List.mem_cons_self
          have hGap := hWhite token hMem c hChar
            (Delimiter.isWhite_of_isAsciiBlank (List.all_eq_true.1 hBlank c hChar))
          rw [← hChars]
          exact .inr (hGap.imp_right fun hGap => ⟨hGap, hGap.isBlank_iff.1 hBlank⟩)
    · cases closed with
      | false => cases hMem
      | true =>
          rw [if_pos rfl, List.mem_singleton] at hMem
          rw [hMem, Token.isBlank_sentinel] at hBlank
          cases hBlank
  · rintro (hText | hText | ⟨hGap, hTab⟩)
    · simp [Token.isBlank, hText]
    · rw [Token.isBlank, hText]
      decide
    · exact hGap.isBlank_iff.2 hTab

namespace Vhdl

variable {tokens : List Token} {index : Nat} {token : Token} {next : Option Lexeme}

/-- Blank tokens are not handed to the walk. -/
theorem Dispatches.isBlank_eq_false (h : Dispatches tokens index next)
    (hToken : tokens[index]? = some token) :
    token.isBlank = false := by
  obtain ⟨token', before, hToken', hTakes⟩ := h.takes
  obtain rfl := Option.some.inj (hToken.symm.trans hToken')
  cases hTakes with
  | word hMode hBlank hText hAfter => exact hBlank

/-- Outside of comments and strings a run of blanks that is not blank is read as a word. -/
theorem dispatches_gap (hToken : tokens[index]? = some token) (hGap : token.IsGap text)
    (hBlank : token.isBlank = false) (hCode : (readerBefore tokens index).mode = .code) :
    Dispatches tokens index
      ((Token.nextSignificant comments none (tokens.drop (index + 1))).map Lexeme.ofToken) := by
  have hText {other : String} : other.toList.any (! Delimiter.isGap ·) = true →
      token.text ≠ other :=
    hGap.text_ne
  have hPunctuation : Reader.isPunctuation token.text = false := by
    simp only [Reader.isPunctuation, Bool.or_eq_false_iff, decide_eq_false_iff_not]
    exact ⟨⟨⟨hText (by decide), hText (by decide)⟩, hText (by decide)⟩, hText (by decide)⟩
  refine ⟨token, (readerBefore tokens index).before, hToken, ?_⟩
  rw [readerBefore_succ hToken, Reader.read, hCode]
  dsimp only
  rw [Reader.readCode, if_neg (hText (by decide)), if_neg (hText (by decide)),
    if_neg (hText (by decide)), if_neg (by simp [hPunctuation, hBlank])]
  rfl

end Vhdl

namespace Verilog

variable {tokens : List Token} {index : Nat} {token : Token} {next : Option Lexeme}

/-- Blank tokens are not handed to the walk. -/
theorem Dispatches.isBlank_eq_false (h : Dispatches tokens index next)
    (hToken : tokens[index]? = some token) :
    token.isBlank = false := by
  obtain ⟨token', hToken', hTakes⟩ := h.takes
  obtain rfl := Option.some.inj (hToken.symm.trans hToken')
  cases hTakes with
  | word hMode hBlank hText hAfter => exact hBlank

/-- Outside of comments, strings and directives a run of blanks that is not blank is read as a
word. -/
theorem dispatches_gap (hToken : tokens[index]? = some token) (hGap : token.IsGap text)
    (hBlank : token.isBlank = false) (hCode : (readerBefore tokens index).mode = .code) :
    Dispatches tokens index
      ((Token.nextSignificant comments none (tokens.drop (index + 1))).map Lexeme.ofToken) := by
  have hText {other : String} : other.toList.any (! Delimiter.isGap ·) = true →
      token.text ≠ other :=
    hGap.text_ne
  have hSentinel : token.isSentinel = false := by
    rw [Token.isSentinel, beq_false_of_ne (hText (by decide)), Bool.false_and]
  have hDirective : isLineDirective token.text = false := by
    rw [← Bool.not_eq_true, isLineDirective, List.contains_iff_mem]
    intro hMem
    have hAll : lineDirectives.all (·.toList.any (! Delimiter.isGap ·)) = true := by decide
    exact hText (List.all_eq_true.1 hAll _ hMem) rfl
  refine ⟨token, hToken, ?_⟩
  rw [readerBefore_succ hToken, Reader.read, hCode]
  dsimp only
  rw [Reader.readCode, if_neg (hText (by decide)), if_neg (hText (by decide)),
    if_neg (hText (by decide)), if_neg (by simp [hSentinel]), if_neg (by simp [hDirective]),
    if_neg (by simp [hBlank])]
  rfl

end Verilog

namespace Language

variable {language : Language} {index : Nat} {token : Token}

theorem Dispatches.isBlank_eq_false (h : language.Dispatches tokens index)
    (hToken : tokens[index]? = some token) : token.isBlank = false := by
  cases language with
  | vhdl =>
      obtain ⟨next, hNext⟩ := h
      exact hNext.isBlank_eq_false hToken
  | verilog =>
      obtain ⟨next, hNext⟩ := h
      exact hNext.isBlank_eq_false hToken

theorem dispatches_gap (hToken : tokens[index]? = some token) (hGap : token.IsGap text)
    (hBlank : token.isBlank = false) (hCode : language.ReadsCodeAt tokens index) :
    language.Dispatches tokens index := by
  cases language with
  | vhdl => exact ⟨_, Vhdl.dispatches_gap hToken hGap hBlank hCode⟩
  | verilog => exact ⟨_, Verilog.dispatches_gap hToken hGap hBlank hCode⟩

/-- The runs of blanks of a text are blank to the reader of a language. -/
def TakesGapsForBlank (language : Language) (text : String) : Prop :=
  ∀ token ∈ (tokenize language.delimiters none false text).list, token.IsGap text →
    token.isBlank = true

/-- What becomes of the white space among the tokens of a text. -/
structure SkipsWhiteSpace (language : Language) (text : String) (tokens : List Token) : Prop where
  /-- A token without text is blank, a new-line is, and a run of blanks is unless there is a
  vertical tab in it. No other token is. -/
  isBlank_iff : ∀ token ∈ tokens, token.isBlank = true ↔
    token.text = "" ∨ token.text = "\n" ∨ token.IsGap text ∧ '\x0b' ∉ token.text.toList
  /-- A run of blanks without vertical tabs is not handed to the walk, no look-ahead finds it, and
  it is collected as one space. -/
  skipped : ∀ index token, tokens[index]? = some token → token.IsGap text →
    '\x0b' ∉ token.text.toList → ¬ language.Dispatches tokens index ∧
      (∀ comments start, Token.nextSignificant comments none (tokens.drop start) ≠ some token) ∧
      ∀ capture : Capture, capture.push token = capture.pushBlank
  /-- One with a vertical tab in it is handed to the walk wherever words are, a look-ahead that
  comes to it finds it, and it is collected as it stands. -/
  met : ∀ index token, tokens[index]? = some token → token.IsGap text → '\x0b' ∈ token.text.toList →
    (language.ReadsCodeAt tokens index → language.Dispatches tokens index) ∧
      Token.nextSignificant language.comments none (tokens.drop index) = some token ∧
      ∀ capture : Capture, capture.push token = capture.pushText token.text

end Language

/-- White space is the same where a text of either language is split and where its tokens are read,
but for the runs of blanks with a vertical tab in them. -/
theorem tokenize_skipsWhiteSpace (language : Language) (limit : Option Nat) (closed : Bool)
    (text : String) :
    language.SkipsWhiteSpace text (tokenize language.delimiters limit closed text).list where
  isBlank_iff := tokenize_isBlank_iff language.delimiters_areBroken limit closed text
  skipped index token hToken hGap hTab := by
    have hBlank : token.isBlank = true := hGap.isBlank_iff.2 hTab
    refine ⟨fun hDispatches => ?_, fun comments start => Token.nextSignificant_ne hBlank,
      fun capture => ?_⟩
    · rw [hDispatches.isBlank_eq_false hToken] at hBlank
      cases hBlank
    · exact Capture.push_blank hBlank hGap.isEmpty_eq_false
  met index token hToken hGap hTab := by
    have hBlank : token.isBlank = false := by
      rw [← Bool.not_eq_true, hGap.isBlank_iff, not_not]
      exact hTab
    obtain ⟨hIndex, rfl⟩ := List.getElem?_eq_some_iff.1 hToken
    refine ⟨Language.dispatches_gap hToken hGap hBlank, ?_, fun capture => ?_⟩
    · rw [List.drop_eq_getElem_cons hIndex]
      refine Token.nextSignificant_cons hBlank (fun pair hMem => ?_) _
      exact hGap.text_ne (language.opener_hasBlack pair hMem)
    · rw [Capture.push, hGap.isEmpty_eq_false, hBlank]
      rfl

/-- A vertical tab between two words is a run of blanks, and it is not blank. -/
theorem tokenize_verticalTab : ¬ Language.vhdl.TakesGapsForBlank "a\x0bb" ∧
    ¬ Language.verilog.TakesGapsForBlank "a\x0bb" := by
  have hMatch : Delimiter.blank.Matches "\x0b".toList ['b'] := by
    refine .blank (by decide) ?_ ?_
    · simp [Delimiter.isGap]
    · simp [Delimiter.isGap]
  have hGap : Token.IsGap ⟨"\x0b", ⟨1, 2⟩⟩ "a\x0bb" := ⟨['a'], ['b'], by decide, by decide, hMatch⟩
  have hBlank : ¬ Token.isBlank ⟨"\x0b", ⟨1, 2⟩⟩ = true := by decide
  exact ⟨fun h => hBlank (h _ (by decide +kernel) hGap),
    fun h => hBlank (h _ (by decide +kernel) hGap)⟩

end HdlIndex

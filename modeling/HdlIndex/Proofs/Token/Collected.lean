import HdlIndex.Proofs.Text.Collected
import HdlIndex.Proofs.Token.BlockComment
import HdlIndex.Proofs.Token.Relaid

/-! What is collected from the tokens of a text. As long as no vertical tab is in it, a token is
blank or has no blank in it, so that tokens are collected like the characters that they are made
of. -/
namespace HdlIndex

open String (utf8Len)

/-- The characters are all blank, or none of them is. -/
def Text.IsUniform (chars : List Char) : Prop :=
  (∀ c ∈ chars, isAsciiBlank c = true) ∨ ∀ c ∈ chars, isAsciiBlank c = false

variable {delimiters : List Delimiter} {limit : Option Nat} {closed opened : Bool}
  {chars : List Char} {tokens : List Token} {offset scanned : Nat} {capture : Capture}

/-- No blank is in a word that a delimiter ends. -/
theorem isUniform_word {cut : Cut} (hBroken : Delimiter.AreBroken delimiters)
    (hCut : cut? delimiters chars = some cut) : Text.IsUniform cut.word := by
  refine .inr fun c hMem => ?_
  rw [← Bool.not_eq_true]
  intro hBlank
  exact not_mem_word
    (Delimiter.takeFirst?_white hBroken (Delimiter.isWhite_of_isAsciiBlank hBlank)) hCut hMem

/-- Nor in one at the end of the text. -/
theorem isUniform_last (hBroken : Delimiter.AreBroken delimiters)
    (hCut : cut? delimiters chars = none) :
    Text.IsUniform chars := by
  refine .inr fun c hMem => ?_
  rw [← Bool.not_eq_true]
  intro hBlank
  exact not_mem_last
    (Delimiter.takeFirst?_white hBroken (Delimiter.isWhite_of_isAsciiBlank hBlank)) hCut hMem

/-- A delimiter is a run of white space, or it has none in it. A vertical tab is white space and no
blank. -/
theorem isUniform_delimiter {cut : Cut} (hBroken : Delimiter.AreBroken delimiters)
    (hCut : cut? delimiters chars = some cut) (hTab : '\x0b' ∉ cut.delimiter) :
    Text.IsUniform cut.delimiter := by
  obtain ⟨delimiter, hMem, hMatch⟩ := cut_matches hCut
  cases hMatch with
  | blank hRun hGap =>
      refine .inl fun c hChar => isAsciiBlank_of_isGap (hGap c hChar) ?_
      rintro rfl
      exact hTab hChar
  | literal hText =>
      by_cases hLine : cut.delimiter = ['\n']
      · left
        rw [hLine]
        exact List.forall_mem_singleton.2 (by decide)
      · right
        intro c hChar
        rw [← Bool.not_eq_true]
        intro hBlank
        exact hLine (hBroken.alone _ hMem c hChar (Delimiter.isWhite_of_isAsciiBlank hBlank))

theorem toList_text_placed (offset : Nat) (chars : List Char) :
    (Token.placed offset chars).text.toList = chars :=
  String.toList_ofList

/-- The tokens of a text are uniform if there is no vertical tab in them. -/
theorem SplitsInto.isUniform (h : SplitsInto delimiters limit closed offset chars tokens scanned)
    (hBroken : Delimiter.AreBroken delimiters) :
    ∀ token ∈ tokens, '\x0b' ∉ token.text.toList → Text.IsUniform token.text.toList := by
  have hNone : Text.IsUniform [] := .inl (by simp)
  induction h with
  | done | stopped => simp
  | @cut offset scanned chars cut tokens hLimit hCut rest ih =>
      rw [List.forall_mem_cons, List.forall_mem_cons, toList_text_placed, toList_text_placed]
      exact ⟨fun _ => isUniform_word hBroken hCut, isUniform_delimiter hBroken hCut, ih⟩
  | @last offset chars hChars hLimit hCut =>
      rw [List.forall_mem_cons, toList_text_placed]
      refine ⟨fun _ => isUniform_last hBroken hCut, ?_⟩
      cases closed with
      | true => simp
      | false =>
          rw [if_neg (by decide), List.forall_mem_singleton, toList_text_placed]
          exact fun _ => hNone

/-- A token is either layout throughout or without any, once it has no vertical tab. -/
theorem tokenize_isUniform (hBroken : Delimiter.AreBroken delimiters) (limit : Option Nat)
    (text : String) :
    ∀ token ∈ (tokenize delimiters limit false text).list, '\x0b' ∉ token.text.toList →
      Text.IsUniform token.text.toList := by
  obtain ⟨tokens, hTokens, hSplits⟩ := tokenize_splitsInto delimiters limit false text
  rw [hTokens, if_neg (by decide), List.append_nil]
  exact hSplits.isUniform hBroken

/-- Uniform tokens are collected character by character. -/
theorem Capture.pushAll_eq_foldl (h : ∀ token ∈ tokens, Text.IsUniform token.text.toList) :
    capture.pushAll tokens = (tokens.flatMap (·.text.toList)).foldl pushChar capture := by
  induction tokens generalizing capture with
  | nil => rfl
  | cons token tokens ih =>
      rw [List.forall_mem_cons] at h
      rw [pushAll, List.foldl_cons, ← pushAll, ih h.2, push_eq_foldl h.1, List.flatMap_cons,
        List.foldl_append]

/-- A text without vertical tabs is collected character by character. -/
theorem SplitsUpTo.pushAll (h : SplitsUpTo delimiters offset chars tokens opened)
    (hBroken : Delimiter.AreBroken delimiters) (hTab : '\x0b' ∉ chars) :
    capture.pushAll tokens = chars.foldl Capture.pushChar capture := by
  have hPush {part : List Char} (start : Nat) (capture : Capture) (hPart : Text.IsUniform part) :
      capture.push (.placed start part) = part.foldl Capture.pushChar capture := by
    rw [Capture.push_eq_foldl (by rwa [toList_text_placed]), toList_text_placed]
  induction h generalizing capture with
  | done => rfl
  | @cut offset chars cut tokens opened hCut rest ih =>
      obtain ⟨hParts, -, -⟩ := cut?_eq_some hCut
      rw [hParts, List.mem_append, List.mem_append, not_or, not_or] at hTab
      rw [Capture.pushAll, List.foldl_cons, List.foldl_cons, ← Capture.pushAll,
        hPush _ _ (isUniform_word hBroken hCut), hPush _ _
          (isUniform_delimiter hBroken hCut hTab.2.1), ih hTab.2.2, hParts, List.foldl_append,
        List.foldl_append]
  | @last offset chars hChars hCut =>
      rw [Capture.pushAll, List.foldl_cons, List.foldl_nil, hPush _ _ (isUniform_last hBroken hCut)]

end HdlIndex

import HdlIndex.Proofs.Token.Words

/-! The tokens of a text that is given in words and delimiters. A text is lexed from its end on, so
that each delimiter is matched against the rest of the text that it really has. The tokenizer adds
empty words between delimiters; apart from them it finds the parts that the text is given in. -/
namespace HdlIndex

open String (utf8Len)

/-- No delimiter begins with the character. -/
def Delimiter.Plain (delimiters : List Delimiter) (c : Char) : Prop :=
  ∀ rest, takeFirst? delimiters (c :: rest) = none

/-- The delimiter may match where the character stands. -/
def Delimiter.leads (c : Char) : Delimiter → Bool
  | literal [] => false
  | literal (first :: _) => c == first
  | blank => isGap c

/-- The characters of a fixed text. -/
def Delimiter.chars : Delimiter → List Char
  | literal text => text
  | blank => []

/-- Blanks separate words, and no fixed text has a space in it. -/
def Delimiter.IsSpaced (delimiters : List Delimiter) : Prop :=
  blank ∈ delimiters ∧ ∀ delimiter ∈ delimiters, ' ' ∉ delimiter.chars

/-- The text is made of the parts: words of characters that begin no delimiter, each up to the end
or to a delimiter, and delimiters that are matched where they stand. -/
inductive Lexes (delimiters : List Delimiter) : List Char → List (List Char) → Prop where
  | nil : Lexes delimiters [] []
  | word {word rest : List Char} {parts : List (List Char)} (hNonempty : word ≠ [])
      (hPlain : ∀ c ∈ word, Delimiter.Plain delimiters c)
      (hEnds : rest = [] ∨ Delimiter.takeFirst? delimiters rest ≠ none)
      (hRest : Lexes delimiters rest parts) : Lexes delimiters (word ++ rest) (word :: parts)
  | delimiter {delimiter rest : List Char} {parts : List (List Char)}
      (hFound : Delimiter.takeFirst? delimiters (delimiter ++ rest) = some delimiter.length)
      (hRest : Lexes delimiters rest parts) :
      Lexes delimiters (delimiter ++ rest) (delimiter :: parts)

/-- Tokens that follow each other from a byte offset on. -/
def Token.row : Nat → List (List Char) → List Token
  | _, [] => []
  | offset, part :: parts => .placed offset part :: row (offset + utf8Len part) parts

variable {delimiters : List Delimiter} {word delimiter rest chars : List Char}
  {parts : List (List Char)}

theorem Delimiter.isBlank_of_isGap {c : Char} (h : isGap c = true) : Text.isBlank c = true := by
  simp only [isGap, Bool.or_eq_true, beq_iff_eq] at h
  rcases h with (((rfl | rfl) | rfl) | rfl) | rfl <;> decide

theorem Delimiter.isGap_eq_false {c : Char} (h : Text.isBlank c = false) : isGap c = false := by
  rw [← Bool.not_eq_true]
  intro hGap
  rw [isBlank_of_isGap hGap] at h
  cases h

/-- A character that no delimiter begins with is plain. -/
theorem Delimiter.plain_of_leads {c : Char}
    (h : ∀ delimiter ∈ delimiters, delimiter.leads c = false) : Plain delimiters c := by
  intro rest
  rw [takeFirst?, List.findSome?_eq_none_iff]
  intro delimiter hMem
  have hLeads := h delimiter hMem
  cases delimiter with
  | blank =>
      have hGap : isGap c = false := hLeads
      simp [take?, hGap]
  | literal text =>
      cases text with
      | nil => rfl
      | cons first text =>
          have hFirst : first ≠ c := by
            rintro rfl
            simp [leads] at hLeads
          simp [take?, hFirst]

/-- Where all delimiters that match take the same number of characters, that many are found. -/
theorem Delimiter.takeFirst?_of_forall {delimiter : Delimiter} {count : Nat}
    (hMem : delimiter ∈ delimiters) (hTake : delimiter.take? chars = some count)
    (hAll : ∀ other ∈ delimiters, ∀ taken, other.take? chars = some taken → taken = count) :
    takeFirst? delimiters chars = some count := by
  cases hFound : takeFirst? delimiters chars with
  | none =>
      have hNone := List.findSome?_eq_none_iff.1 hFound delimiter hMem
      cases hTake.symm.trans hNone
  | some taken =>
      obtain ⟨other, hOther, hTaken⟩ := List.exists_of_findSome?_eq_some hFound
      rw [hAll other hOther taken hTaken]

/-- A space is found as a whole, unless another blank follows it. -/
theorem Delimiter.takeFirst?_space (h : IsSpaced delimiters)
    (hRest : ∀ c ∈ rest.head?, isGap c = false) : takeFirst? delimiters (' ' :: rest) = some 1 := by
  have hGap : (' ' :: rest).takeWhile isGap = [' '] := by
    cases rest with
    | nil => rfl
    | cons c rest =>
        have hNext : isGap c = false := hRest c rfl
        rw [List.takeWhile_cons_of_pos rfl, List.takeWhile_cons_of_neg (by simp [hNext])]
  have hBlank : blank.take? (' ' :: rest) = some 1 := by rw [take?, hGap]; rfl
  refine takeFirst?_of_forall h.1 hBlank fun delimiter hMem count hCount => ?_
  cases delimiter with
  | blank => exact (Option.some.inj (hBlank.symm.trans hCount)).symm
  | literal text =>
      cases text with
      | nil => cases hCount
      | cons c text =>
          have hSpace : c ≠ ' ' := by
            rintro rfl
            exact h.2 _ hMem List.mem_cons_self
          simp [take?, hSpace] at hCount

/-- What is found in a word does not depend on what follows behind a space. -/
theorem Delimiter.takeFirst?_append_space (h : IsSpaced delimiters) (hWord : word ≠ [])
    (hGap : ∀ c ∈ word, isGap c = false) :
    takeFirst? delimiters (word ++ ' ' :: rest) = takeFirst? delimiters word := by
  have hTake : ∀ delimiter ∈ delimiters, delimiter.take? (word ++ ' ' :: rest) =
      delimiter.take? word := by
    intro delimiter hMem
    cases delimiter with
    | blank =>
        obtain ⟨c, chars, rfl⟩ := List.exists_cons_of_ne_nil hWord
        rw [List.forall_mem_cons] at hGap
        rw [List.cons_append, take?, take?, List.takeWhile_cons_of_neg (by simp [hGap.1]),
          List.takeWhile_cons_of_neg (by simp [hGap.1])]
    | literal text =>
        cases text with
        | nil => rfl
        | cons c text =>
            have hPrefix : (c :: text).isPrefixOf (word ++ ' ' :: rest) =
                (c :: text).isPrefixOf word := by
              rw [Bool.eq_iff_iff, List.isPrefixOf_iff_prefix, List.isPrefixOf_iff_prefix]
              refine ⟨fun hAll => ?_, fun hFront => hFront.trans (List.prefix_append ..)⟩
              rcases List.prefix_or_prefix_of_prefix hAll
                (List.prefix_append word (' ' :: rest)) with
                hFront | ⟨tail, hTail⟩
              · exact hFront
              · rw [← hTail, List.prefix_append_right_inj] at hAll
                cases tail with
                | nil => exact ⟨[], by simpa using hTail.symm⟩
                | cons d tail =>
                    obtain ⟨hSpace, -⟩ := List.cons_prefix_cons.1 hAll
                    have hText : ' ' ∈ c :: text := by
                      rw [← hTail, hSpace]
                      simp
                    exact absurd hText (h.2 _ hMem)
            rw [take?, take?, hPrefix]
  rw [takeFirst?, takeFirst?, ← List.head?_filterMap, List.filterMap_congr hTake,
    List.head?_filterMap]

/-- A cut behind plain characters is at the delimiter that is found there, and takes it as a
whole. -/
theorem cutFrom?_append (before : List Char) (hPlain : ∀ c ∈ word, Delimiter.Plain delimiters c)
    (hFound : Delimiter.takeFirst? delimiters (delimiter ++ rest) = some delimiter.length) :
    cutFrom? delimiters before (word ++ (delimiter ++ rest)) =
      some ⟨before.reverse ++ word, delimiter, rest⟩ := by
  induction word generalizing before with
  | nil =>
      have hPositive := Delimiter.takeFirst?_pos hFound
      cases delimiter with
      | nil => simp at hPositive
      | cons c delimiter =>
          rw [List.cons_append] at hFound
          rw [List.nil_append, List.cons_append, cutFrom?, hFound]
          simp
  | cons c word ih =>
      rw [List.forall_mem_cons] at hPlain
      rw [List.cons_append, cutFrom?, hPlain.1]
      simpa using ih (c :: before) hPlain.2

/-- A text of a word, a delimiter and a rest is cut there. -/
theorem cut?_append (hPlain : ∀ c ∈ word, Delimiter.Plain delimiters c)
    (hFound : Delimiter.takeFirst? delimiters (delimiter ++ rest) = some delimiter.length) :
    cut? delimiters (word ++ (delimiter ++ rest)) = some ⟨word, delimiter, rest⟩ :=
  cutFrom?_append [] hPlain hFound

/-- Plain characters alone are not cut. -/
theorem cutFrom?_plain (before : List Char) (hPlain : ∀ c ∈ word, Delimiter.Plain delimiters c) :
    cutFrom? delimiters before word = none := by
  induction word generalizing before with
  | nil => rfl
  | cons c word ih =>
      rw [List.forall_mem_cons] at hPlain
      rw [cutFrom?, hPlain.1]
      exact ih (c :: before) hPlain.2

/-- There is one way to split a text. -/
theorem SplitsInto.unique {limit : Option Nat} {closed : Bool} {offset scanned scanned' : Nat}
    {tokens tokens' : List Token}
    (h : SplitsInto delimiters limit closed offset chars tokens scanned)
    (h' : SplitsInto delimiters limit closed offset chars tokens' scanned') :
    tokens = tokens' ∧ scanned = scanned' := by
  induction h generalizing tokens' scanned' with
  | done offset =>
      cases h' with
      | done => exact ⟨rfl, rfl⟩
      | stopped hChars => exact absurd rfl hChars
      | cut hLimit hCut => cases hCut
      | last hChars => exact absurd rfl hChars
  | stopped hChars hLimit =>
      cases h' with
      | done => exact absurd rfl hChars
      | stopped => exact ⟨rfl, rfl⟩
      | cut hLimit' => simp [hLimit] at hLimit'
      | last _ hLimit' => simp [hLimit] at hLimit'
  | cut hLimit hCut rest ih =>
      cases h' with
      | done => cases hCut
      | stopped _ hLimit' => simp [hLimit] at hLimit'
      | cut hLimit' hCut' rest' =>
          obtain rfl := Option.some.inj (hCut.symm.trans hCut')
          obtain ⟨rfl, rfl⟩ := ih rest'
          exact ⟨rfl, rfl⟩
      | last _ _ hCut' => cases hCut.symm.trans hCut'
  | last hChars hLimit hCut =>
      cases h' with
      | done => exact absurd rfl hChars
      | stopped _ hLimit' => simp [hLimit] at hLimit'
      | cut _ hCut' => cases hCut.symm.trans hCut'
      | last => exact ⟨rfl, rfl⟩

@[simp]
theorem Token.isEmpty_placed (offset : Nat) (part : List Char) :
    (placed offset part).isEmpty = part.isEmpty := by
  cases part <;> simp [placed, Token.isEmpty]

namespace Lexes

/-- Behind a word that is not yet ended, the tokens of the text are its parts. -/
theorem splitsInto (h : Lexes delimiters chars parts) (closed : Bool) {word : List Char}
    (hPlain : ∀ c ∈ word, Delimiter.Plain delimiters c)
    (hEnds : word = [] ∨ chars = [] ∨ Delimiter.takeFirst? delimiters chars ≠ none) (offset : Nat) :
    ∃ tokens, SplitsInto delimiters none closed offset (word ++ chars) tokens
        (offset + utf8Len (word ++ chars)) ∧
      tokens.filter (! ·.isEmpty) = (Token.row offset (word :: parts)).filter (! ·.isEmpty) := by
  induction h generalizing word offset with
  | nil =>
      cases word with
      | nil => exact ⟨[], .done offset, by simp [Token.row]⟩
      | cons c word =>
          have hCut : cut? delimiters (c :: word) = none := cutFrom?_plain [] hPlain
          rw [List.append_nil]
          refine ⟨_, .last (List.cons_ne_nil c word) rfl hCut, ?_⟩
          cases closed <;> simp [Token.row]
  | @word word' rest parts hNonempty hPlain' hEnds' hRest ih =>
      have hEmpty : word = [] := by
        rcases hEnds with hEmpty | hNil | hFound
        · exact hEmpty
        · simp [hNonempty] at hNil
        · cases word' with
          | nil => exact absurd rfl hNonempty
          | cons c word' => exact absurd (hPlain' c (by simp) _) hFound
      subst hEmpty
      obtain ⟨tokens, hSplits, hTokens⟩ := ih hPlain' (.inr hEnds') offset
      exact ⟨tokens, hSplits, by simpa [Token.row] using hTokens⟩
  | @delimiter delimiter rest parts hFound hRest ih =>
      obtain ⟨tokens, hSplits, hTokens⟩ :=
        ih (by simp) (.inl rfl) (offset + utf8Len word + utf8Len delimiter)
      have hBehind : SplitsInto delimiters none closed (offset + utf8Len word + utf8Len delimiter)
          rest tokens (offset + utf8Len (word ++ (delimiter ++ rest))) := by
        simpa [Nat.add_assoc] using hSplits
      refine ⟨_, .cut rfl (cut?_append hPlain hFound) hBehind, ?_⟩
      simp only [Token.row, List.filter_cons, Token.isEmpty_placed, List.isEmpty_nil, Bool.not_true,
        Bool.false_eq_true, if_false, String.utf8Len_nil, Nat.add_zero] at hTokens ⊢
      rw [hTokens]

/-- No part is empty. -/
theorem ne_nil (h : Lexes delimiters chars parts) : ∀ part ∈ parts, part ≠ [] := by
  induction h with
  | nil => simp
  | word hNonempty hPlain hEnds hRest ih => exact List.forall_mem_cons.2 ⟨hNonempty, ih⟩
  | delimiter hFound hRest ih =>
      refine List.forall_mem_cons.2 ⟨?_, ih⟩
      rintro rfl
      simpa using Delimiter.takeFirst?_pos hFound

end Lexes

theorem Token.filter_row (hParts : ∀ part ∈ parts, part ≠ []) (offset : Nat) :
    (row offset parts).filter (! ·.isEmpty) = row offset parts := by
  induction parts generalizing offset with
  | nil => rfl
  | cons part parts ih =>
      rw [List.forall_mem_cons] at hParts
      rw [row, List.filter_cons_of_pos (by simp [hParts.1]), ih hParts.2]

/-- The texts of tokens laid in a row are the texts they were made of. -/
theorem Token.text_row (offset : Nat) (texts : List String) :
    (row offset (texts.map String.toList)).map (·.text) = texts := by
  induction texts generalizing offset with
  | nil => rfl
  | cons text texts ih =>
      rw [List.map_cons, row, List.map_cons, ih]
      simp [placed]

/-- Apart from empty words, the tokens of a text are the parts that it is given in, up to its
end. -/
theorem Lexes.tokenize {text : String} (h : Lexes delimiters text.toList parts) (closed : Bool) :
    (HdlIndex.tokenize delimiters none closed text).scanned = text.utf8ByteSize ∧
    (HdlIndex.tokenize delimiters none closed text).list.filter (! ·.isEmpty) =
      Token.row 0 parts ++ (if closed then [.sentinel text.utf8ByteSize] else []) := by
  obtain ⟨tokens, hSplits, hTokens⟩ := h.splitsInto closed (by simp) (.inl rfl) 0
  obtain ⟨tokens', hList, hSplits'⟩ := tokenize_splitsInto delimiters none closed text
  obtain ⟨rfl, hScanned⟩ := hSplits.unique hSplits'
  have hSize : utf8Len text.toList = text.utf8ByteSize := by
    rw [← String.utf8ByteSize_ofList, String.ofList_toList]
  rw [List.nil_append, Nat.zero_add, hSize] at hScanned
  have hRow : tokens.filter (! ·.isEmpty) = Token.row 0 parts := by
    rw [hTokens, Token.row, List.filter_cons_of_neg (by simp)]
    exact Token.filter_row h.ne_nil 0
  have hSentinel : (Token.sentinel text.utf8ByteSize).isEmpty = false := rfl
  refine ⟨hScanned.symm, ?_⟩
  rw [hList, List.filter_append, hRow, ← hScanned]
  cases closed <;> simp [hSentinel]

end HdlIndex

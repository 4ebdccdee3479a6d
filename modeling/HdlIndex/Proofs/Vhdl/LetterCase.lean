import HdlIndex.Proofs.Text.Folding
import HdlIndex.Proofs.Text.Slices
import HdlIndex.Vhdl.Scan

/-! The case of letters decides nothing in VHDL. Two texts that differ in the case of ASCII letters
only have the same tokens at the same places, so they are read and walked in the same way. What is
cut out of the texts themselves, the comments and the generic clause, differs in the case of letters
at most. -/
namespace HdlIndex

namespace Text

/-- No letter is a blank, in either case. -/
@[simp]
theorem isBlank_toLower (c : Char) : isBlank c.toLower = isBlank c := by
  have hApart {d : Char} (hFrom : 65 ≤ d.toNat) (hTo : d.toNat ≤ 122) : isBlank d = false := by
    simp only [isBlank, Bool.or_eq_false_iff, Bool.and_eq_false_iff, decide_eq_false_iff_not,
      beq_eq_false_iff_ne]
    omega
  obtain ⟨hLow, hHigh, hLower⟩ | hSame := toLower_cases c
  · rw [hApart hLow (by omega), hApart (by omega) (by omega)]
  · rw [hSame]

theorem dropWhile_isBlank_toLower (chars : List Char) :
    (chars.map Char.toLower).dropWhile isBlank = (chars.dropWhile isBlank).map Char.toLower := by
  rw [List.dropWhile_map]
  congr 2
  funext c
  exact isBlank_toLower c

/-- Trimming and folding can change places. -/
theorem trimEnd_map_toLower (chars : List Char) :
    trimEnd (chars.map Char.toLower) = (trimEnd chars).map Char.toLower := by
  rw [trimEnd, trimEnd, ← List.map_reverse, dropWhile_isBlank_toLower, List.map_reverse]

/-- So can cutting and folding, also for a range that cuts a character: it stays empty. -/
theorem foldCase_slice (span : Span) (text : String) :
    foldCase (span.slice text) = span.slice (foldCase text) := by
  by_cases h : span.Within text
  · exact (slice_foldCase h).symm
  · rw [Span.slice_eq_empty h, Span.slice_eq_empty (mt within_foldCase.1 h)]
    rfl

variable {text other : String}

theorem foldCase_slice_congr (h : foldCase text = foldCase other) (span : Span) :
    foldCase (span.slice text) = foldCase (span.slice other) := by
  rw [foldCase_slice, foldCase_slice, h]

/-- Texts that differ in case only do so when white space is trimmed off their ends. -/
theorem foldCase_trimEnd_congr (h : foldCase text = foldCase other) :
    foldCase (String.ofList (trimEnd text.toList)) =
      foldCase (String.ofList (trimEnd other.toList)) := by
  have hChars := congrArg String.toList h
  rw [toList_foldCase, toList_foldCase] at hChars
  rw [← String.toList_inj, toList_foldCase, toList_foldCase, String.toList_ofList,
    String.toList_ofList, ← trimEnd_map_toLower, ← trimEnd_map_toLower, hChars]

/-- Texts that are equal but for case have the same size. -/
theorem utf8ByteSize_eq_of_foldCase (h : foldCase text = foldCase other) :
    text.utf8ByteSize = other.utf8ByteSize := by
  rw [← utf8ByteSize_foldCase text, h, utf8ByteSize_foldCase]

end Text

namespace Vhdl

/-- Two tables differ in nothing but the case of letters in what keeps the case of the source: the
comments, which stand at the same places, and the text of the generic clause. -/
structure Table.IsRecased (table other : Table) : Prop where
  shared : { table with genericDefinition := "", comments := {} } =
    { other with genericDefinition := "", comments := {} }
  genericDefinition : Text.foldCase table.genericDefinition = Text.foldCase other.genericDefinition
  spans : table.comments.spans = other.comments.spans
  texts : table.comments.texts.map Text.foldCase = other.comments.texts.map Text.foldCase

variable {text other : String}

theorem tokens_of_foldCase (h : Text.foldCase text = Text.foldCase other) (limit : Option Nat) :
    tokens limit text = tokens limit other := by
  rw [tokens, tokens, h]

/-- A comment is the same in both texts, but for the case of its letters. -/
theorem foldCase_commentAt (h : Text.foldCase text = Text.foldCase other) (span : Span) :
    Text.foldCase (commentAt text span).text = Text.foldCase (commentAt other span).text :=
  Text.foldCase_trimEnd_congr (Text.foldCase_slice_congr h span)

/-- What one walk finds is tabulated in the same way for both texts. -/
theorem isRecased_tabulate (h : Text.foldCase text = Text.foldCase other) (events : List Event)
    (scanned : Nat) (walk : Walk) :
    (tabulate text events scanned walk).IsRecased (tabulate other events scanned walk) where
  shared := by
    simp only [tabulate, Text.utf8ByteSize_eq_of_foldCase h]
  genericDefinition := by
    cases hClause : walk.found.align.genericClause with
    | none => simp only [tabulate, hClause, Option.map_none]
    | some span =>
        simp only [tabulate, hClause, Option.map_some, Option.getD_some]
        exact Text.foldCase_slice_congr h span
  spans := by
    simp [tabulate, Words.spans, commentAt]
  texts := by
    simp only [tabulate, Words.texts, List.map_map]
    apply List.map_congr_left
    intro span _
    exact foldCase_commentAt h span

/-- VHDL texts that are equal but for the case of ASCII letters have the same table but for the case
of letters in comments and in the generic clause, and are scanned with the same notes. -/
theorem scan_recased (h : Text.foldCase text = Text.foldCase other) (region : Region)
    (limit : Option Nat) :
    (scan region limit text).table.IsRecased (scan region limit other).table ∧
      (scan region limit text).notes = (scan region limit other).notes := by
  have hTokens := tokens_of_foldCase h limit
  have hSize := Text.utf8ByteSize_eq_of_foldCase h
  constructor
  · have hTable := isRecased_tabulate h (readEvents text.utf8ByteSize (tokens limit text).list)
      (tokens limit text).scanned
      (walkThrough region (readEvents text.utf8ByteSize (tokens limit text).list) text.utf8ByteSize)
    simp only [scan, ← hTokens, ← hSize]
    exact hTable
  · simp only [scan, hTokens, hSize]

/-- Letters beyond ASCII keep their case: both texts write the same `É` and `Ω`. -/
theorem scan_recased_generics :
    (let text := "-- Taille É \nENTITY É2 IS GENERIC (Width : Natural := 8); END É2;"
     let other := "-- taille É \nentity É2 is generic (width : NATURAL := 8); end É2;"
     text ≠ other ∧ Text.foldCase text = Text.foldCase other ∧
      (scan .entityContext none text).table.IsRecased (scan .entityContext none other).table ∧
      (scan .entityContext none text).notes = (scan .entityContext none other).notes) :=
  ⟨by decide, by decide +kernel, scan_recased (by decide +kernel) .entityContext none⟩

end Vhdl

end HdlIndex

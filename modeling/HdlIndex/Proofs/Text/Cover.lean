import Mathlib.Data.String.Basic
import HdlIndex.Symbols.Word
import HdlIndex.Text.Basic

/-! Ranges that hold a piece of a text. A range covers a piece when the text is what stands before
the piece, the piece, and what stands behind it, and the ends of the range are the byte sizes of the
first part and of the first two. Such a range is in order and cuts no character. -/
namespace HdlIndex

open String (utf8Len)

/-- Of two beginnings of one list, the one of fewer bytes is a beginning of the other. -/
theorem prefix_of_utf8Len_le {chars left right : List Char} (hLeft : left <+: chars)
    (hRight : right <+: chars) (h : utf8Len left ≤ utf8Len right) : left <+: right := by
  rcases List.prefix_or_prefix_of_prefix hLeft hRight with hle | ⟨more, rfl⟩
  · exact hle
  · have hMore : utf8Len more = 0 := by simpa using h
    rw [String.utf8Len_eq_zero] at hMore
    simp [hMore]

/-- An offset lies between characters exactly when it is the size of a beginning of the text. -/
theorem isValid_iff_begins {text : String} {offset : Nat} :
    String.Pos.Raw.IsValid text ⟨offset⟩ ↔
      ∃ before, before <+: text.toList ∧ offset = utf8Len before := by
  rw [String.Pos.Raw.isValid_iff_exists_append]
  constructor
  · rintro ⟨before, after, rfl, hOffset⟩
    refine ⟨before.toList, by simp, ?_⟩
    simpa using congrArg String.Pos.Raw.byteIdx hOffset
  · rintro ⟨before, ⟨after, hText⟩, rfl⟩
    refine ⟨String.ofList before, String.ofList after, ?_, ?_⟩
    · rw [← String.ofList_append, hText, String.ofList_toList]
    · simp

namespace Span

/-- A range of the text that is in order and whose ends lie between characters. -/
structure Within (span : Span) (text : String) : Prop where
  ordered : span.start ≤ span.stop
  stop_le : span.stop ≤ text.utf8ByteSize
  start_valid : String.Pos.Raw.IsValid text ⟨span.start⟩
  stop_valid : String.Pos.Raw.IsValid text ⟨span.stop⟩

/-- An end that lies between characters does not lie behind the text. -/
theorem within_of_isValid {span : Span} {text : String} (hOrdered : span.start ≤ span.stop)
    (hStart : String.Pos.Raw.IsValid text ⟨span.start⟩)
    (hStop : String.Pos.Raw.IsValid text ⟨span.stop⟩) : span.Within text :=
  ⟨hOrdered, String.Pos.Raw.le_iff.1 hStop.le_rawEndPos, hStart, hStop⟩

/-- The text has the piece at the range. -/
def Covers (span : Span) (text piece : String) : Prop :=
  ∃ before after, text.toList = before ++ piece.toList ++ after ∧
    span = ⟨utf8Len before, utf8Len before + piece.utf8ByteSize⟩

/-- Between valid positions a slice is the library's extraction of a substring. -/
theorem slice_eq_extract {span : Span} {text : String}
    (hStart : String.Pos.Raw.IsValid text ⟨span.start⟩)
    (hStop : String.Pos.Raw.IsValid text ⟨span.stop⟩) :
    span.slice text =
      String.extract (text.pos ⟨span.start⟩ hStart) (text.pos ⟨span.stop⟩ hStop) := by
  simp [slice, String.pos?, String.pos, String.Slice.pos?, hStart, hStop]

namespace Covers

variable {span : Span} {text piece : String}

/-- A piece that covers a span lies in the text. -/
theorem within (h : span.Covers text piece) : span.Within text := by
  obtain ⟨before, after, hText, rfl⟩ := h
  refine within_of_isValid (by simp) ?_ ?_
  · exact isValid_iff_begins.2 ⟨before, by simp [hText], rfl⟩
  · exact isValid_iff_begins.2 ⟨before ++ piece.toList, by simp [hText], by simp⟩

/-- The piece is what the text has between the two ends. -/
theorem slice_eq (h : span.Covers text piece) : span.slice text = piece := by
  rw [slice_eq_extract h.within.start_valid h.within.stop_valid]
  obtain ⟨before, after, hText, rfl⟩ := h
  have hParts : text = String.ofList before ++ (piece ++ String.ofList after) := by
    apply String.toList_injective
    simp [hText]
  have hBefore : utf8Len before = (String.ofList before).toByteArray.size := by
    rw [String.size_toByteArray, String.utf8ByteSize_ofList]
  have hPiece : piece.utf8ByteSize = piece.toByteArray.size := String.size_toByteArray.symm
  subst hParts
  apply String.toByteArray_inj.1
  rw [String.toByteArray_extract, String.toByteArray_append, String.toByteArray_append]
  change (ByteArray.extract _ (utf8Len before) (utf8Len before + piece.utf8ByteSize)) = _
  rw [← Nat.add_zero (utf8Len before), Nat.add_assoc, ByteArray.extract_append_size_add' hBefore,
    Nat.zero_add, ByteArray.extract_append_eq_left hPiece]

/-- A part of a covered piece is covered by the range that begins where the part does. -/
theorem part (h : span.Covers text piece) (first middle last : List Char)
    (hPiece : piece.toList = first ++ middle ++ last) :
    Covers ⟨span.start + utf8Len first, span.start + utf8Len first + utf8Len middle⟩ text
      (String.ofList middle) := by
  obtain ⟨before, after, hText, rfl⟩ := h
  exact ⟨before ++ first, last ++ after, by simp [hText, hPiece],
    by simp [String.utf8ByteSize_ofList]⟩

/-- The end of a covered piece covers the empty text. -/
theorem empty_stop (h : span.Covers text piece) : (Span.empty span.stop).Covers text "" := by
  obtain ⟨before, after, hText, rfl⟩ := h
  exact ⟨before ++ piece.toList, after, by simp [hText], by simp [Span.empty]⟩

end Covers

/-- The whole of a text is its own slice. -/
theorem slice_whole (text : String) : (⟨0, text.utf8ByteSize⟩ : Span).slice text = text :=
  Covers.slice_eq ⟨[], [], by simp, by simp⟩

/-- Every range that is in order and cuts no character covers what it slices. -/
theorem Within.covers_slice {span : Span} {text : String} (h : span.Within text) :
    span.Covers text (span.slice text) := by
  obtain ⟨before, hBefore, hStart⟩ := isValid_iff_begins.1 h.start_valid
  obtain ⟨upTo, hUpTo, hStop⟩ := isValid_iff_begins.1 h.stop_valid
  obtain ⟨piece, rfl⟩ := prefix_of_utf8Len_le hBefore hUpTo (by have := h.ordered; omega)
  obtain ⟨after, hText⟩ := hUpTo
  have hSpan : span = ⟨utf8Len before, utf8Len before + (String.ofList piece).utf8ByteSize⟩ := by
    rw [String.utf8ByteSize_ofList, ← String.utf8Len_append, ← hStart, ← hStop]
  have hCovers : span.Covers text (String.ofList piece) :=
    ⟨before, after, by simp [← hText], hSpan⟩
  rwa [hCovers.slice_eq]

end Span

/-- The empty word at a byte offset. -/
def Word.absent (offset : Nat) : Word := ⟨"", .empty offset⟩

/-- The word is what the text has at the word's place. -/
def Word.StandsIn (word : Word) (text : String) : Prop := word.span.Covers text word.text

end HdlIndex

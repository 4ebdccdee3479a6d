import HdlIndex.Proofs.Symbols.Moved
import HdlIndex.Proofs.Text.Cover

/-! What ranges cut out of texts that are put together. A range of the first text cuts the same out
of both, and so does a range of the second text that is moved behind the first one. -/
namespace HdlIndex

open String (utf8Len)

variable {text other : String} {offset : Nat} {span : Span}

/-- Up to the end of the first of two texts, the borders of characters are those of the first. -/
theorem isValid_append_left (h : offset ≤ text.utf8ByteSize) :
    String.Pos.Raw.IsValid (text ++ other) ⟨offset⟩ ↔ String.Pos.Raw.IsValid text ⟨offset⟩ := by
  rw [isValid_iff_begins, isValid_iff_begins, String.toList_append]
  constructor
  · rintro ⟨before, hBefore, rfl⟩
    rw [← String.utf8Len_toList] at h
    exact ⟨before, prefix_of_utf8Len_le hBefore (List.prefix_append _ _) h, rfl⟩
  · rintro ⟨before, hBefore, rfl⟩
    exact ⟨before, hBefore.trans (List.prefix_append _ _), rfl⟩

/-- Behind the first of two texts, the borders of characters are those of the second, moved behind
it. -/
theorem isValid_append_right :
    String.Pos.Raw.IsValid (text ++ other) ⟨text.utf8ByteSize + offset⟩ ↔
      String.Pos.Raw.IsValid other ⟨offset⟩ := by
  rw [isValid_iff_begins, isValid_iff_begins, String.toList_append, ← String.utf8Len_toList]
  constructor
  · rintro ⟨before, hBefore, hOffset⟩
    obtain ⟨rest, rfl⟩ :=
      prefix_of_utf8Len_le (List.prefix_append _ _) hBefore (by omega)
    refine ⟨rest, (List.prefix_append_right_inj _).1 hBefore, ?_⟩
    rw [String.utf8Len_append] at hOffset
    omega
  · rintro ⟨before, hBefore, rfl⟩
    refine ⟨text.toList ++ before, (List.prefix_append_right_inj _).2 hBefore, ?_⟩
    rw [String.utf8Len_append]

namespace Span

/-- A range that is out of order or cuts a character holds no text. -/
theorem slice_eq_empty (h : ¬ span.Within text) : span.slice text = "" := by
  by_cases hStart : String.Pos.Raw.IsValid text ⟨span.start⟩
  · by_cases hStop : String.Pos.Raw.IsValid text ⟨span.stop⟩
    · have hOrder : ¬ span.start ≤ span.stop := fun hOrdered =>
        h (within_of_isValid hOrdered hStart hStop)
      rw [slice_eq_extract hStart hStop]
      apply String.toByteArray_inj.1
      rw [String.toByteArray_extract]
      exact ByteArray.extract_eq_empty_iff.2 (by
        change min span.stop _ ≤ span.start
        omega)
    · simp [slice, String.pos?, String.Slice.pos?, hStop]
  · simp [slice, String.pos?, String.Slice.pos?, hStart]

/-- What a range holds is a part of the text. -/
theorem slice_infix (span : Span) (text : String) : (span.slice text).toList <:+: text.toList := by
  by_cases h : span.Within text
  · obtain ⟨before, after, hText, -⟩ := h.covers_slice
    exact ⟨before, after, hText.symm⟩
  · rw [slice_eq_empty h]
    exact List.nil_infix

/-- A range holds no more bytes than it spans. -/
theorem utf8ByteSize_slice_le (span : Span) (text : String) :
    (span.slice text).utf8ByteSize ≤ span.stop - span.start := by
  by_cases h : span.Within text
  · obtain ⟨before, after, -, hSpan⟩ := h.covers_slice
    have hStop := congrArg Span.stop hSpan
    have hStart := congrArg Span.start hSpan
    dsimp only at hStop hStart
    omega
  · rw [slice_eq_empty h]
    exact Nat.zero_le _

/-- A span in the first of two texts is one of both together. -/
theorem within_append_left (hStart : span.start ≤ text.utf8ByteSize)
    (hStop : span.stop ≤ text.utf8ByteSize) : span.Within (text ++ other) ↔ span.Within text :=
  ⟨fun h => within_of_isValid h.ordered ((isValid_append_left hStart).1 h.start_valid)
      ((isValid_append_left hStop).1 h.stop_valid),
    fun h => within_of_isValid h.ordered ((isValid_append_left hStart).2 h.start_valid)
      ((isValid_append_left hStop).2 h.stop_valid)⟩

/-- And so is one in the second, moved behind the first. -/
theorem within_append_right :
    (span.moved (text.utf8ByteSize + ·)).Within (text ++ other) ↔ span.Within other :=
  ⟨fun h => within_of_isValid (Nat.add_le_add_iff_left.1 h.ordered)
      (isValid_append_right.1 h.start_valid) (isValid_append_right.1 h.stop_valid),
    fun h => within_of_isValid (Nat.add_le_add_left h.ordered _)
      (isValid_append_right.2 h.start_valid) (isValid_append_right.2 h.stop_valid)⟩

/-- A range of the first text cuts the same out of both texts. -/
theorem slice_append_left (hStart : span.start ≤ text.utf8ByteSize)
    (hStop : span.stop ≤ text.utf8ByteSize) : span.slice (text ++ other) = span.slice text := by
  by_cases h : span.Within text
  · obtain ⟨before, after, hText, hSpan⟩ := h.covers_slice
    exact Covers.slice_eq ⟨before, after ++ other.toList, by simp [hText], hSpan⟩
  · rw [slice_eq_empty h, slice_eq_empty (mt (within_append_left hStart hStop).1 h)]

/-- A range of the second text cuts the same out of both texts once it is moved. -/
theorem slice_append_right :
    (span.moved (text.utf8ByteSize + ·)).slice (text ++ other) = span.slice other := by
  by_cases h : span.Within other
  · obtain ⟨before, after, hText, hSpan⟩ := h.covers_slice
    refine Covers.slice_eq ⟨text.toList ++ before, after, by simp [hText], ?_⟩
    rw [hSpan, String.utf8Len_append, String.utf8Len_toList]
    simp [moved, Nat.add_assoc, ← hSpan]
  · rw [slice_eq_empty h, slice_eq_empty (mt within_append_right.1 h)]

end Span

end HdlIndex

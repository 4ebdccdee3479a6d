import HdlIndex.Proofs.Text.Cover

/-! Case folding and byte offsets. Folding replaces characters by characters of the same size, so a
range of the text is a range of the folded text, and the other way round. -/
namespace HdlIndex.Text

open String (utf8Len)

/-- A character that folding replaces is an upper case letter, and the letter that it becomes stands
32 characters behind it. -/
theorem toLower_cases (c : Char) :
    (65 ≤ c.toNat ∧ c.toNat ≤ 90 ∧ c.toLower.toNat = c.toNat + 32) ∨ c.toLower = c := by
  by_cases hUpper : 'A'.val ≤ c.val ∧ c.val ≤ 'Z'.val
  · left
    have hLow : 65 ≤ c.val.toNat := hUpper.1
    have hHigh : c.val.toNat ≤ 90 := hUpper.2
    have hLower : c.toLower.val = c.val + ('a'.val - 'A'.val) := congrArg Char.val (dif_pos hUpper)
    have hShift : ('a'.val - 'A'.val).toNat = 32 := by decide
    refine ⟨hLow, hHigh, ?_⟩
    change c.toLower.val.toNat = c.val.toNat + 32
    rw [hLower, UInt32.toNat_add, hShift, Nat.mod_eq_of_lt (by omega)]
  · exact .inr (dif_neg hUpper)

/-- A letter of either case is one byte. -/
theorem utf8Size_toLower (c : Char) : c.toLower.utf8Size = c.utf8Size := by
  have hOne {d : Char} (hd : d.toNat ≤ 122) : d.utf8Size = 1 := by
    rw [Char.utf8Size_eq_one_iff, UInt32.le_iff_toNat_le]
    exact hd.trans (by decide)
  obtain ⟨hLow, hHigh, hLower⟩ | hSame := toLower_cases c
  · rw [hOne (hHigh.trans (by decide)), hOne (by omega)]
  · rw [hSame]

/-- Only ASCII letters are folded, so that no character changes its length. -/
theorem utf8Len_map_toLower (chars : List Char) :
    utf8Len (chars.map Char.toLower) = utf8Len chars := by
  induction chars with
  | nil => rfl
  | cons c chars ih =>
      rw [List.map_cons, String.utf8Len_cons, String.utf8Len_cons, ih, utf8Size_toLower]

@[simp]
theorem toList_foldCase (text : String) :
    (foldCase text).toList = text.toList.map Char.toLower := by
  simp [foldCase]

/-- Only a character other than a letter is folded to one. -/
theorem eq_of_toLower_eq {c d : Char} (h : c.toLower = d) (hLetter : d.val.toNat < 97) : c = d := by
  change d.toNat < 97 at hLetter
  subst h
  obtain ⟨hLow, -, hLower⟩ | hSame := toLower_cases c
  · omega
  · exact hSame.symm

/-- Folding makes small letters only: a character that comes before these was there already. -/
theorem mem_of_mem_foldCase {text : String} {c : Char} (hMem : c ∈ (foldCase text).toList)
    (hLetter : c.val.toNat < 97) : c ∈ text.toList := by
  rw [toList_foldCase] at hMem
  obtain ⟨d, hMem, hFolded⟩ := List.mem_map.1 hMem
  exact eq_of_toLower_eq hFolded hLetter ▸ hMem

@[simp]
theorem utf8ByteSize_foldCase (text : String) :
    (foldCase text).utf8ByteSize = text.utf8ByteSize := by
  rw [foldCase, String.utf8ByteSize_ofList, utf8Len_map_toLower, ← String.utf8ByteSize_ofList,
    String.ofList_toList]

@[simp]
theorem foldCase_append (text other : String) :
    foldCase (text ++ other) = foldCase text ++ foldCase other := by
  rw [← String.toList_inj]
  simp

/-- Texts may be folded one by one and then joined. -/
@[simp]
theorem foldCase_join (texts : List String) :
    foldCase (String.join texts) = String.join (texts.map foldCase) := by
  induction texts with
  | nil => rfl
  | cons text texts ih =>
      rw [String.join_cons, foldCase_append, ih, List.map_cons, String.join_cons]

/-- Texts can be folded before they are joined, if the separator is folded, too. -/
@[simp]
theorem foldCase_intercalate (separator : String) (texts : List String) :
    foldCase (separator.intercalate texts) =
      (foldCase separator).intercalate (texts.map foldCase) := by
  induction texts with
  | nil => simp [foldCase]
  | cons text texts ih =>
      cases texts with
      | nil => simp
      | cons next texts =>
          rw [String.intercalate_cons_cons, foldCase_append, ih]
          simp

/-- Folding moves no boundary between characters. -/
theorem isValid_foldCase {text : String} {offset : Nat} :
    String.Pos.Raw.IsValid (foldCase text) ⟨offset⟩ ↔ String.Pos.Raw.IsValid text ⟨offset⟩ := by
  rw [isValid_iff_begins, isValid_iff_begins, toList_foldCase]
  constructor
  · rintro ⟨before, ⟨after, hText⟩, rfl⟩
    obtain ⟨first, last, hParts, rfl, rfl⟩ := List.map_eq_append_iff.1 hText.symm
    exact ⟨first, ⟨last, hParts.symm⟩, utf8Len_map_toLower first⟩
  · rintro ⟨before, hBefore, rfl⟩
    exact ⟨before.map Char.toLower, hBefore.map _, (utf8Len_map_toLower before).symm⟩

/-- Folding changes no byte offset, so a range is within the folded text exactly if it is within the
text. -/
theorem within_foldCase {span : Span} {text : String} :
    span.Within (foldCase text) ↔ span.Within text := by
  constructor
  · intro h
    exact Span.within_of_isValid h.ordered (isValid_foldCase.1 h.start_valid)
      (isValid_foldCase.1 h.stop_valid)
  · intro h
    exact Span.within_of_isValid h.ordered (isValid_foldCase.2 h.start_valid)
      (isValid_foldCase.2 h.stop_valid)

/-- What a range cuts out of the folded text is the folded form of what it cuts out of the text. -/
theorem slice_foldCase {span : Span} {text : String} (h : span.Within text) :
    span.slice (foldCase text) = foldCase (span.slice text) := by
  obtain ⟨before, after, hText, hSpan⟩ := h.covers_slice
  refine Span.Covers.slice_eq ⟨before.map Char.toLower, after.map Char.toLower, ?_, ?_⟩
  · rw [toList_foldCase, hText, List.map_append, List.map_append, toList_foldCase]
  · rw [utf8Len_map_toLower, utf8ByteSize_foldCase, ← hSpan]

end HdlIndex.Text

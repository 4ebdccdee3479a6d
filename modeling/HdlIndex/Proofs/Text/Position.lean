import HdlIndex.Proofs.Text.Cover
import Mathlib.Data.List.DropRight

/-! The line and the column of an offset. They are told by the characters in front of it: the
new-lines among them, and those that stand behind the last new-line. Every character moves a
position forward, so that positions are in the order of the offsets that they are the places of. -/
namespace HdlIndex

open String (utf8Len)

namespace Position

variable {position other last : Position} {chars : List Char} {c : Char}

/-- The comparison that is written out is the lexicographic one of the two numbers. -/
theorem compare_eq_ord (position other : Position) :
    position.compare other = Ord.compare position other := by
  change _ = (Ord.compare position.line other.line).then
    ((Ord.compare position.column other.column).then .eq)
  rw [compare]
  cases Ord.compare position.line other.line with
  | eq => cases Ord.compare position.column other.column <;> rfl
  | lt => rfl
  | gt => rfl

theorem compare_self (position : Position) : position.compare position = .eq := by
  simp [compare]

/-- Places compare by their lines, and within a line by their columns. -/
theorem compare_eq_lt_iff : position.compare other = .lt ↔
    position.line < other.line ∨ position.line = other.line ∧ position.column < other.column := by
  rw [compare]
  obtain hLess | hSame | hMore := Nat.lt_trichotomy position.line other.line
  · simp [Nat.compare_eq_lt.2 hLess, hLess]
  · simp [hSame, Nat.compare_eq_lt]
  · simp [Nat.compare_eq_gt.2 hMore, hMore.le, hMore.ne']

/-- The comparison is antisymmetric. -/
theorem compare_eq_gt_iff : position.compare other = .gt ↔ other.compare position = .lt := by
  rw [compare_eq_lt_iff, compare]
  obtain hLess | hSame | hMore := Nat.lt_trichotomy position.line other.line
  · simp [Nat.compare_eq_lt.2 hLess, hLess.le, hLess.ne']
  · simp [hSame, Nat.compare_eq_gt]
  · simp [Nat.compare_eq_gt.2 hMore, hMore]

theorem compare_trans (h : position.compare other = .lt) (hLast : other.compare last = .lt) :
    position.compare last = .lt := by
  rw [compare_eq_lt_iff] at h hLast ⊢
  omega

/-- A new-line moves a position to a later line, and any other character to a later column. -/
theorem compare_advance (position : Position) (c : Char) :
    position.compare (position.advance c) = .lt := by
  rw [compare_eq_lt_iff, advance]
  split
  · exact .inl (Nat.lt_succ_self _)
  · exact .inr ⟨rfl, Nat.lt_succ_self _⟩

/-- Every character moves the position forward, so the position behind some characters is behind the
one in front of them. -/
theorem compare_foldl_advance (h : chars ≠ []) :
    position.compare (chars.foldl advance position) = .lt := by
  induction chars generalizing position with
  | nil => exact absurd rfl h
  | cons c chars ih =>
      rw [List.foldl_cons]
      cases chars with
      | nil => exact compare_advance position c
      | cons d chars =>
          exact compare_trans (compare_advance position c) (ih (List.cons_ne_nil d chars))

/-- The position behind the characters that a text begins with. -/
def behind (chars : List Char) : Position := chars.foldl advance first

theorem behind_concat (chars : List Char) (c : Char) :
    behind (chars ++ [c]) = (behind chars).advance c :=
  List.foldl_concat ..

/-- A line begins behind each new-line. -/
theorem line_behind (chars : List Char) : (behind chars).line = 1 + chars.count '\n' := by
  induction chars using List.reverseRecOn with
  | nil => rfl
  | append_singleton chars c ih =>
      rw [behind_concat, advance, List.count_append, List.count_singleton, ← Nat.add_assoc, ← ih]
      by_cases hLine : c = '\n' <;> simp [hLine]

/-- Columns are counted from the last new-line on. -/
theorem column_behind (chars : List Char) :
    (behind chars).column = (chars.rtakeWhile (· != '\n')).length := by
  induction chars using List.reverseRecOn with
  | nil => rfl
  | append_singleton chars c ih =>
      rw [behind_concat, advance]
      by_cases hLine : c = '\n'
      · rw [if_pos hLine, List.rtakeWhile_concat_neg _ _ _ (by simp [hLine])]
        rfl
      · rw [if_neg hLine, List.rtakeWhile_concat_pos _ _ _ (by simp [hLine]),
          List.length_append, ih]
        rfl

/-- Stepping over the characters in front of an offset ends behind them. -/
theorem seek_append (before after : List Char) (offset : Nat) (position : Position) :
    seek (offset + utf8Len before) (before ++ after) offset position =
      before.foldl advance position := by
  induction before generalizing offset position with
  | nil =>
      cases after with
      | nil => rfl
      | cons c after => rw [List.nil_append, seek, if_neg (by simp), List.foldl_nil]
  | cons c before ih =>
      have hBegins : offset < offset + utf8Len (c :: before) := by
        have := c.utf8Size_pos
        rw [String.utf8Len_cons]
        omega
      rw [List.cons_append, seek, if_pos hBegins, List.foldl_cons, ← ih, String.utf8Len_cons]
      congr 1
      omega

/-- The position is the line and the column of a byte offset of the text. -/
structure IsPlaceOf (position : Position) (offset : Nat) (text : String) : Prop where
  /-- Lines are counted from one. -/
  line : position.line = 1 + (Span.slice ⟨0, offset⟩ text).toList.count '\n'
  /-- The column is the number of characters behind the last new-line. -/
  column : position.column = ((Span.slice ⟨0, offset⟩ text).toList.rtakeWhile (· != '\n')).length

end Position

namespace Span

variable {span first second : Span} {text : String}

/-- The place of a span is where the text in front of it ends. -/
theorem locate_eq_behind {before : List Char} (hBefore : before <+: text.toList)
    (hStart : span.start = utf8Len before) : span.locate text = Position.behind before := by
  obtain ⟨after, hText⟩ := hBefore
  rw [locate, hStart, ← hText, ← Nat.zero_add (utf8Len before), Position.seek_append,
    Position.behind]

/-- What stands in front of an offset is the piece of the text that begins with it. -/
theorem slice_prefix {before : List Char} (hBefore : before <+: text.toList) :
    slice ⟨0, utf8Len before⟩ text = String.ofList before := by
  obtain ⟨after, hText⟩ := hBefore
  exact Covers.slice_eq ⟨[], after, by simp [← hText], by simp [String.utf8ByteSize_ofList]⟩

/-- The position of an offset is the one that its line and column specify, if the offset is at a
border of characters. -/
theorem isPlaceOf_locate (h : String.Pos.Raw.IsValid text ⟨span.start⟩) :
    (span.locate text).IsPlaceOf span.start text := by
  obtain ⟨before, hBefore, hStart⟩ := isValid_iff_begins.1 h
  have hSlice : slice ⟨0, span.start⟩ text = String.ofList before := hStart ▸ slice_prefix hBefore
  rw [locate_eq_behind hBefore hStart]
  refine ⟨?_, ?_⟩
  · rw [hSlice, String.toList_ofList, Position.line_behind]
  · rw [hSlice, String.toList_ofList, Position.column_behind]

/-- The later of two offsets has more characters in front of it. -/
theorem compare_locate_of_lt (hFirst : String.Pos.Raw.IsValid text ⟨first.start⟩)
    (hSecond : String.Pos.Raw.IsValid text ⟨second.start⟩) (h : first.start < second.start) :
    (first.locate text).compare (second.locate text) = .lt := by
  obtain ⟨before, hBefore, hStart⟩ := isValid_iff_begins.1 hFirst
  obtain ⟨longer, hLonger, hEnd⟩ := isValid_iff_begins.1 hSecond
  obtain ⟨more, rfl⟩ := prefix_of_utf8Len_le hBefore hLonger (by omega)
  have hMore : more ≠ [] := by
    rintro rfl
    rw [List.append_nil] at hEnd
    omega
  rw [locate_eq_behind hBefore hStart, locate_eq_behind hLonger hEnd, Position.behind,
    Position.behind, List.foldl_append]
  exact Position.compare_foldl_advance hMore

/-- Positions compare like the offsets that they are the places of. -/
theorem compare_locate (hFirst : String.Pos.Raw.IsValid text ⟨first.start⟩)
    (hSecond : String.Pos.Raw.IsValid text ⟨second.start⟩) :
    (first.locate text).compare (second.locate text) = Ord.compare first.start second.start := by
  obtain hLess | hSame | hMore := Nat.lt_trichotomy first.start second.start
  · rw [Nat.compare_eq_lt.2 hLess, compare_locate_of_lt hFirst hSecond hLess]
  · rw [Nat.compare_eq_eq.2 hSame, locate, locate, hSame, Position.compare_self]
  · rw [Nat.compare_eq_gt.2 hMore, Position.compare_eq_gt_iff,
      compare_locate_of_lt hSecond hFirst hMore]

/-- Two places between the characters of a text, or at its end, are in the order of their offsets,
in either comparison of positions, and they are the same only if their offsets are. Each has the
line and the column that the text in front of it tells. -/
theorem locate_ordered (text : String) (first second : Span)
    (hFirst : String.Pos.Raw.IsValid text ⟨first.start⟩)
    (hSecond : String.Pos.Raw.IsValid text ⟨second.start⟩) :
    (first.start < second.start ↔ (first.locate text).compare (second.locate text) = .lt) ∧
      (first.start = second.start ↔ first.locate text = second.locate text) ∧
      (∀ position other : Position, position.compare other = Ord.compare position other) ∧
      (first.locate text).IsPlaceOf first.start text ∧
      (second.locate text).IsPlaceOf second.start text := by
  have hCompare := compare_locate hFirst hSecond
  refine ⟨?_, ⟨fun hSame => ?_, fun hPlace => ?_⟩, Position.compare_eq_ord, isPlaceOf_locate hFirst,
    isPlaceOf_locate hSecond⟩
  · rw [hCompare, Nat.compare_eq_lt]
  · rw [locate, locate, hSame]
  · rwa [hPlace, Position.compare_self, eq_comm, Nat.compare_eq_eq] at hCompare

/-- A character of two bytes stands in front of a new-line, and the second place is behind it. -/
theorem locate_ordered_lines :
    (let text := "aä\nb"
    String.Pos.Raw.IsValid text ⟨3⟩ ∧ String.Pos.Raw.IsValid text ⟨4⟩ ∧
      Span.locate ⟨3, 4⟩ text = ⟨1, 2⟩ ∧ Span.locate ⟨4, 5⟩ text = ⟨2, 0⟩ ∧
      (Span.locate ⟨3, 4⟩ text).compare (Span.locate ⟨4, 5⟩ text) = .lt) := by
  intro text
  have hFirst : String.Pos.Raw.IsValid text ⟨3⟩ :=
    isValid_iff_begins.2 ⟨['a', 'ä'], by decide, by decide⟩
  have hSecond : String.Pos.Raw.IsValid text ⟨4⟩ :=
    isValid_iff_begins.2 ⟨['a', 'ä', '\n'], by decide, by decide⟩
  exact ⟨hFirst, hSecond, by decide, by decide,
    (locate_ordered text ⟨3, 4⟩ ⟨4, 5⟩ hFirst hSecond).1.1 (by decide)⟩

end Span

end HdlIndex

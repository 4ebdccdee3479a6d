import HdlIndex.Highlight
import HdlIndex.Proofs.Faithful
import Mathlib.Data.List.Pairwise

/-! Painting loses nothing. The strokes that are drawn stand one behind the other, each at a
recorded place of its category, and every recorded place begins inside of one. As all recorded
places are ranges of the text, the ranges that painting cuts are ranges of the text too, and put
together they are the text. -/
namespace HdlIndex

open String (utf8Len)

namespace Declarations

/-- The only columns of a list that have places are those of its names and of its types. -/
theorem mem_of_mem_positions {list : Declarations} {column : String} {span : Span}
    (h : span ∈ list.positions column) : ∃ word ∈ list.names ++ list.types, word.span = span := by
  rw [← List.mem_map, List.map_append, List.mem_append]
  unfold positions at h
  split at h
  · exact .inl h
  · exact .inr h
  · cases h

/-- A column is one of the lists that it is looked for in, under the last part of its tag. -/
theorem exists_of_column {lists : List (String × Declarations)} {tag column : String}
    {list : Declarations} (h : lists.findSome? (fun list =>
      (attribute? (list.1 ++ "_") tag).map (list.2, ·)) = some (list, column)) :
    ∃ entry ∈ lists, entry.2 = list ∧ attribute? (entry.1 ++ "_") tag = some column := by
  obtain ⟨entry, hEntry, hList⟩ := List.exists_of_findSome?_eq_some h
  obtain ⟨name, hName, hPair⟩ := Option.map_eq_some_iff.1 hList
  obtain ⟨hSame, rfl⟩ := Prod.mk.inj hPair
  exact ⟨entry, hEntry, hSame, hName⟩

end Declarations

namespace Vhdl

/-- The ranges of a table that are taken from one word or one comment each. -/
def Table.recorded (table : Table) : List Span :=
  table.comments.spans ++ table.names.map (·.span) ++ table.keywords

/-- Whatever tag is asked for, its places are places that the table has recorded. -/
theorem Table.mem_recorded_of_mem_positions {table : Table} {tag : String} {span : Span}
    (h : span ∈ table.positions tag) : span ∈ table.recorded := by
  unfold positions at h
  split at h
  case h_16 =>
      split at h
      next list column hColumn =>
          obtain ⟨entry, hEntry, rfl, -⟩ := Declarations.exists_of_column hColumn
          obtain ⟨word, hWord, rfl⟩ := Declarations.mem_of_mem_positions h
          have hName : word ∈ table.names :=
            List.mem_append_left _
              (List.mem_append_right _ (List.mem_flatMap.2 ⟨entry, hEntry, hWord⟩))
          simp only [recorded, List.mem_append, List.mem_map_of_mem hName, true_or, or_true]
      next => cases h
  -- every other category is one of the parts that the ranges of the table are put together from
  all_goals
    simp only [recorded, Findings.names, Findings.fields, List.flatMap_cons, List.map_append,
      List.map_map, Function.comp_def, List.mem_append, Words.spans, ClockedSignals.spans] at h ⊢
    simp only [h, true_or, or_true]

/-- The places of every category are ranges of the table. -/
theorem Table.mem_spans_of_mem_positions {table : Table} {tag : String} {span : Span}
    (h : span ∈ table.positions tag) : span ∈ table.spans := by
  have hMem := Table.mem_recorded_of_mem_positions h
  simp only [recorded, spans, List.mem_append] at hMem ⊢
  tauto

end Vhdl

/-- The painted categories of types. -/
def Highlight.typeTags : List String :=
  ["port_interface_types", "signal_constant_variable_types", "instance_types"]

namespace Verilog

/-- The ranges of a table that are taken from one word, comment or directive line each. -/
def Table.recorded (table : Table) : List Span :=
  table.comments.spans ++ table.includeFiles.spans ++ table.names.map (·.span) ++ table.keywords

/-- The painted categories are located by single words, but for those of types. -/
theorem Table.mem_recorded_of_mem_positions {table : Table} {tag : String} {hue : Rgb} {span : Span}
    (hTag : (tag, hue) ∈ Highlight.colorings) (hType : tag ∉ Highlight.typeTags)
    (h : span ∈ table.positions tag) : span ∈ table.recorded := by
  have hPlain : ∀ entry ∈ Highlight.colorings, category entry.1 = entry.1 := by decide
  have hTypes : ∀ entry ∈ Highlight.colorings,
      ∀ name ∈ ["port_interface", "generics_interface", "signal_constant_variable"],
        attribute? (name ++ "_") entry.1 = some "types" → entry.1 ∈ Highlight.typeTags := by decide
  unfold positions at h
  split at h
  case h_5 hCategory =>
      obtain rfl : tag = "instance_types" := (hPlain (tag, hue) hTag).symm.trans hCategory
      exact absurd (by decide) hType
  case h_11 =>
      split at h
      next list column hColumn =>
          obtain ⟨entry, hEntry, rfl, hLast⟩ := Declarations.exists_of_column hColumn
          have hName : entry.1 ∈ table.lists.map (·.1) := List.mem_map_of_mem hEntry
          have hNoType : column ≠ "types" := by
            rintro rfl
            rw [hPlain (tag, hue) hTag] at hLast
            exact hType (hTypes (tag, hue) hTag entry.1 hName hLast)
          unfold Declarations.positions at h
          split at h
          · obtain ⟨word, hWord, rfl⟩ := List.mem_map.1 h
            have hMem : word ∈ table.names :=
              List.mem_append_left _
                (List.mem_append_right _ (List.mem_flatMap.2 ⟨entry, hEntry, hWord⟩))
            simp only [recorded, List.mem_append, List.mem_map_of_mem hMem, true_or, or_true]
          · exact absurd rfl hNoType
          · cases h
      next => cases h
  all_goals
    simp only [recorded, Findings.names, Findings.fields, List.flatMap_cons, List.map_append,
      List.map_map, Function.comp_def, List.mem_append, Words.spans, ClockedSignals.spans] at h ⊢
    simp only [h, true_or, or_true]

/-- The places of every category are ranges of the table. -/
theorem Table.mem_spans_of_mem_positions {table : Table} {tag : String} {span : Span}
    (h : span ∈ table.positions tag) : span ∈ table.spans := by
  unfold positions at h
  split at h
  case h_11 =>
      split at h
      next list column hColumn =>
          obtain ⟨entry, hEntry, rfl, -⟩ := Declarations.exists_of_column hColumn
          obtain ⟨word, hWord, rfl⟩ := Declarations.mem_of_mem_positions h
          rcases List.mem_append.1 hWord with hWord | hWord
          · have hName : word ∈ table.names :=
              List.mem_append_left _
                (List.mem_append_right _ (List.mem_flatMap.2 ⟨entry, hEntry, hWord⟩))
            simp only [spans, List.mem_append, List.mem_map_of_mem hName, true_or]
          · have hType : word ∈ table.types :=
              List.mem_append_right _ (List.mem_flatMap.2 ⟨entry, hEntry, hWord⟩)
            simp only [spans, List.mem_append, List.mem_map_of_mem hType, true_or, or_true]
      next => cases h
  all_goals
    simp only [spans, Findings.names, Findings.types, Findings.fields, List.flatMap_cons,
      List.map_append, List.map_map, Function.comp_def, List.mem_append, Words.spans,
      ClockedSignals.spans] at h ⊢
    simp only [h, true_or, or_true]

end Verilog

theorem Design.mem_spans_of_mem_positions {design : Design} {tag : String} {span : Span}
    (h : span ∈ design.positions tag) : span ∈ design.spans := by
  cases design with
  | vhdl table => exact Vhdl.Table.mem_spans_of_mem_positions h
  | verilog table => exact Verilog.Table.mem_spans_of_mem_positions h

/-- All ranges of a table are ranges of its text. -/
theorem scan_positions (start : Start) (limit : Option Nat) (text : String) (tag : String) :
    ∀ span ∈ (scan start limit text).design.positions tag, span.Within text := by
  intro span hSpan
  have hMem := Design.mem_spans_of_mem_positions hSpan
  cases start with
  | vhdl region => exact Vhdl.scan_spans region limit text span hMem
  | verilog region => exact Verilog.scan_spans region limit text span hMem

namespace Span

/-- Two pieces that meet are covered as one. -/
theorem Covers.append {text first second : String} {start middle stop : Nat}
    (hFirst : Covers ⟨start, middle⟩ text first) (hSecond : Covers ⟨middle, stop⟩ text second) :
    Covers ⟨start, stop⟩ text (first ++ second) := by
  obtain ⟨before, behind, hText, hSpan⟩ := hFirst
  obtain ⟨lead, after, hRest, hOther⟩ := hSecond
  obtain ⟨hStart, hMiddle⟩ := Span.mk.inj hSpan
  obtain ⟨hLead, hStop⟩ := Span.mk.inj hOther
  have hSize : utf8Len lead = utf8Len (before ++ first.toList) := by
    rw [String.utf8Len_append, String.utf8Len_toList]
    omega
  obtain ⟨more, hMore⟩ : lead <+: before ++ first.toList :=
    prefix_of_utf8Len_le ⟨_, by rw [hRest, List.append_assoc]⟩ ⟨behind, hText.symm⟩ hSize.le
  have hNone : more = [] := by
    rw [← String.utf8Len_eq_zero]
    rw [← hMore, String.utf8Len_append] at hSize
    omega
  rw [hNone, List.append_nil] at hMore
  refine ⟨before, after, ?_, ?_⟩
  · rw [hRest, hMore, String.toList_append, List.append_assoc before]
  · rw [String.utf8ByteSize_append, Span.mk.injEq]
    omega

/-- Two spans that meet show the text of both together. -/
theorem slice_split {text : String} {start middle stop : Nat}
    (hFirst : (⟨start, middle⟩ : Span).Within text)
      (hSecond : (⟨middle, stop⟩ : Span).Within text) :
    (⟨start, stop⟩ : Span).slice text =
      (⟨start, middle⟩ : Span).slice text ++ (⟨middle, stop⟩ : Span).slice text :=
  (hFirst.covers_slice.append hSecond.covers_slice).slice_eq

end Span

namespace Highlight

variable {positions : String → List Span} {stroke : Stroke} {text : String}

/-- The ranges that painting a text cuts from byte `cursor` on, in order. -/
def cuts (size : Nat) : List Stroke → (cursor : Nat) → List Span
  | [], cursor => [⟨cursor, size⟩]
  | stroke :: rest, cursor =>
    if size < stroke.span.stop then [⟨cursor, size⟩]
    else ⟨cursor, stroke.span.start⟩ :: stroke.span :: cuts size rest stroke.span.stop

/-- Painting without colours puts the text at these ranges together. -/
theorem paintFrom_eq_cuts (text : String) (strokes : List Stroke) (cursor : Nat) (out : String) :
    (paintFrom text false strokes cursor out).toList =
      out.toList ++ (cuts text.utf8ByteSize strokes cursor).flatMap (·.slice text |>.toList) := by
  induction strokes generalizing cursor out with
  | nil => simp [paintFrom, cuts]
  | cons stroke rest ih =>
      simp only [paintFrom, cuts]
      split
      · simp
      · rw [ih]
        simp

/-- The strokes that are drawn over a text stand in order and apart from each other, each at one of
the recorded places, and nothing of the text or of what is recorded is lost. -/
structure IsLossless (positions : String → List Span) (text : String) : Prop where
  sorted : (drawn positions).Pairwise fun stroke other => stroke.span.start < other.span.start
  apart : (drawn positions).Pairwise fun stroke other => stroke.span.stop ≤ other.span.start
  nonempty : ∀ stroke ∈ drawn positions, stroke.span.start < stroke.span.stop
  within : ∀ stroke ∈ drawn positions, stroke.span.Within text
  /-- Every stroke is at a place of a category, in the colour of that category. -/
  recorded : ∀ stroke ∈ drawn positions, ∃ tag, (tag, stroke.hue) ∈ colorings ∧
    stroke.span ∈ positions tag
  /-- The first byte of every recorded place that is not empty is painted. -/
  covered : ∀ tag hue, (tag, hue) ∈ colorings → ∀ span ∈ positions tag, span.isEmpty = false →
    ∃ stroke ∈ drawn positions, stroke.span.start ≤ span.start ∧ span.start < stroke.span.stop
  /-- No range that painting cuts is out of the text or ends inside of a character, and without
  colours the text stays as it is. -/
  cuts : ∀ span ∈ cuts text.utf8ByteSize (drawn positions) 0, span.Within text
  plain : paint positions false text = text

/-- The category that a stroke is drawn for. -/
def Stroke.tag (stroke : Stroke) : String := ((colorings[stroke.rank]?).map (·.1)).getD ""

/-- A stroke has a colour of the palette, lies at a place of its category, and covers text. -/
theorem mem_strokes (h : stroke ∈ strokes positions) : (stroke.tag, stroke.hue) ∈ colorings ∧
    stroke.span ∈ positions stroke.tag ∧ stroke.span.isEmpty = false := by
  obtain ⟨⟨⟨tag, hue⟩, rank⟩, hEntry, hStroke⟩ := List.mem_flatMap.1 h
  obtain ⟨span, hSpan, rfl⟩ := List.mem_map.1 hStroke
  obtain ⟨hSpan, hCovers⟩ := List.mem_filter.1 hSpan
  have hRank : colorings[rank]? = some (tag, hue) := List.mem_zipIdx_iff_getElem?.1 hEntry
  have hTag : (⟨span, hue, rank⟩ : Stroke).tag = tag := by rw [Stroke.tag, hRank]; rfl
  rw [hTag]
  exact ⟨List.mem_of_getElem? hRank, hSpan, by simpa using hCovers⟩

/-- And nothing that has a colour and covers text is left out. -/
theorem exists_mem_strokes {tag : String} {hue : Rgb} {span : Span} (hTag : (tag, hue) ∈ colorings)
    (hSpan : span ∈ positions tag) (hCovers : span.isEmpty = false) :
    ∃ stroke ∈ strokes positions, stroke.span = span := by
  obtain ⟨rank, hRank⟩ := List.mem_iff_getElem?.1 hTag
  have hEntry : ((tag, hue), rank) ∈ colorings.zipIdx := List.mem_zipIdx_iff_getElem?.2 hRank
  have hFilter : span ∈ (positions tag).filter (! ·.isEmpty) :=
    List.mem_filter.2 ⟨hSpan, by simp [hCovers]⟩
  exact ⟨⟨span, hue, rank⟩,
    List.mem_flatMap.2 ⟨_, hEntry, List.mem_map.2 ⟨span, hFilter, rfl⟩⟩, rfl⟩

theorem Stroke.before_iff {stroke other : Stroke} : stroke.before other = true ↔
    stroke.span.start < other.span.start ∨
      stroke.span.start = other.span.start ∧ stroke.rank ≤ other.rank := by
  simp [before]

/-- Sorting brings the strokes into the order in which they are drawn. -/
theorem pairwise_before (strokes : List Stroke) :
    (strokes.mergeSort Stroke.before).Pairwise fun stroke other => stroke.before other = true := by
  have hTrans (a b c : Stroke) (hFirst : a.before b = true) (hSecond : b.before c = true) :
      a.before c = true := by
    rw [Stroke.before_iff] at *
    omega
  have hTotal (a b : Stroke) : (a.before b || b.before a) = true := by
    rw [Bool.or_eq_true, Stroke.before_iff, Stroke.before_iff]
    omega
  exact List.pairwise_mergeSort hTrans hTotal strokes

/-- The strokes are drawn in the order of their beginnings. -/
theorem pairwise_ordered (strokes : List Stroke) :
    (strokes.mergeSort Stroke.before).Pairwise fun stroke other =>
      stroke.span.start ≤ other.span.start := by
  refine (pairwise_before strokes).imp fun hBefore => ?_
  rw [Stroke.before_iff] at hBefore
  omega

/-- The strokes that are drawn from byte `cursor` on. -/
def apartFrom (cursor : Nat) : List Stroke → List Stroke
  | [] => []
  | stroke :: rest =>
    if stroke.span.start < cursor then apartFrom cursor rest
    else stroke :: apartFrom stroke.span.stop rest

/-- The loop that leaves strokes out is a recursion over the strokes, with the end of the one drawn
last. -/
theorem apart_eq_apartFrom (strokes : List Stroke) :
    (apart strokes).toList = apartFrom 0 strokes := by
  have hFold (drawn : Array Stroke) (cursor : Nat) :
      (strokes.foldl (fun state stroke =>
        if stroke.span.start < state.2 then (state.1, state.2)
        else (state.1.push stroke, stroke.span.stop)) (drawn, cursor)).1.toList =
          drawn.toList ++ apartFrom cursor strokes := by
    induction strokes generalizing drawn cursor with
    | nil => simp [apartFrom]
    | cons stroke rest ih =>
        rw [List.foldl_cons, apartFrom]
        by_cases hInside : stroke.span.start < cursor
        · simp only [hInside, if_true, ih]
        · simp only [hInside, if_false, ih, Array.toList_push, List.append_assoc,
            List.singleton_append]
  exact hFold #[] 0

/-- Strokes are left out, and those that stay keep their order. -/
theorem apartFrom_sublist (cursor : Nat) (strokes : List Stroke) :
    (apartFrom cursor strokes).Sublist strokes := by
  induction strokes generalizing cursor with
  | nil => exact .slnil
  | cons stroke rest ih =>
      rw [apartFrom]
      split
      · exact (ih cursor).cons stroke
      · exact (ih stroke.span.stop).cons_cons stroke

theorem mem_strokes_of_mem_drawn (h : stroke ∈ drawn positions) : stroke ∈ strokes positions := by
  rw [drawn, apart_eq_apartFrom] at h
  exact List.mem_mergeSort.1 ((apartFrom_sublist 0 _).subset h)

/-- Strokes of which no two begin together with one rank have one order only. -/
theorem drawn_eq_of_perm {ordered : List Stroke} (hPerm : (strokes positions).Perm ordered)
    (h : ordered.Pairwise fun stroke other => other.before stroke = false) :
    drawn positions = apartFrom 0 ordered := by
  have hBefore : ordered.Pairwise fun stroke other => stroke.before other = true := by
    refine h.imp fun hLater => ?_
    rw [← Bool.not_eq_true, Stroke.before_iff] at hLater
    rw [Stroke.before_iff]
    omega
  have hOne : ordered.Pairwise fun stroke other => ¬ (stroke.before other = true ∧
      other.before stroke = true) :=
    h.imp fun hLater hBoth => by simp [hLater] at hBoth
  have hSymm : Std.Symm fun stroke other :
      Stroke => ¬ (stroke.before other = true ∧ other.before stroke = true) :=
    ⟨fun _ _ hNot hBoth => hNot hBoth.symm⟩
  have hSorted : ((strokes positions).mergeSort Stroke.before).Perm ordered :=
    (List.mergeSort_perm _ _).trans hPerm
  have hSame : (strokes positions).mergeSort Stroke.before = ordered := by
    refine hSorted.eq_of_pairwise (fun stroke other hStroke hOther hFirst hSecond => ?_)
      (pairwise_before _) hBefore
    by_contra hNe
    exact hOne.forall (hSorted.mem_iff.1 hStroke) hOther hNe ⟨hFirst, hSecond⟩
  rw [drawn, apart_eq_apartFrom, hSame]

variable {strokes : List Stroke}

/-- No stroke that stays begins in front of the end of the one drawn before it. -/
theorem cursor_le_of_mem (h : ∀ stroke ∈ strokes, stroke.span.start < stroke.span.stop)
    (cursor : Nat) :
    ∀ stroke ∈ apartFrom cursor strokes, cursor ≤ stroke.span.start := by
  induction strokes generalizing cursor with
  | nil => simp [apartFrom]
  | cons stroke rest ih =>
      obtain ⟨hStroke, hRest⟩ := List.forall_mem_cons.1 h
      rw [apartFrom]
      split
      · exact ih hRest cursor
      · refine List.forall_mem_cons.2 ⟨by omega, fun later hLater => ?_⟩
        have := ih hRest _ later hLater
        omega

/-- So of two strokes that stay, the earlier one ends where the later one begins, or in front of
that. -/
theorem pairwise_apartFrom (h : ∀ stroke ∈ strokes, stroke.span.start < stroke.span.stop)
    (cursor : Nat) : (apartFrom cursor strokes).Pairwise fun stroke other =>
      stroke.span.stop ≤ other.span.start := by
  induction strokes generalizing cursor with
  | nil => simp [apartFrom]
  | cons stroke rest ih =>
      have hRest := (List.forall_mem_cons.1 h).2
      rw [apartFrom]
      split
      · exact ih hRest cursor
      · exact List.pairwise_cons.2 ⟨cursor_le_of_mem hRest _, ih hRest _⟩

/-- A stroke that is left out begins in front of the cursor or inside of one that is drawn. -/
theorem covered_apartFrom (hOrdered : strokes.Pairwise fun stroke other =>
      stroke.span.start ≤ other.span.start)
    (h : ∀ stroke ∈ strokes, stroke.span.start < stroke.span.stop) (cursor : Nat) :
    ∀ stroke ∈ strokes, stroke.span.start < cursor ∨ ∃ drawn ∈ apartFrom cursor strokes,
      drawn.span.start ≤ stroke.span.start ∧ stroke.span.start < drawn.span.stop := by
  induction strokes generalizing cursor with
  | nil => simp
  | cons first rest ih =>
      obtain ⟨hFirst, hRest⟩ := List.forall_mem_cons.1 h
      obtain ⟨hBehind, hOrdered⟩ := List.pairwise_cons.1 hOrdered
      rw [apartFrom]
      split
      case isTrue hInside => exact List.forall_mem_cons.2 ⟨.inl hInside, ih hOrdered hRest cursor⟩
      case isFalse hOutside =>
        refine List.forall_mem_cons.2 ⟨.inr ⟨first, List.mem_cons_self, le_rfl, hFirst⟩,
          fun stroke hStroke => .inr ?_⟩
        rcases ih hOrdered hRest first.span.stop stroke hStroke with hInside | ⟨drawn,
          hDrawn, hCovers⟩
        · exact ⟨first, List.mem_cons_self, hBehind stroke hStroke, hInside⟩
        · exact ⟨drawn, List.mem_cons_of_mem _ hDrawn, hCovers⟩

/-- Of strokes that begin together, one of the first rank is drawn. -/
theorem rank_le_of_mem_apartFrom
    (hOrdered : strokes.Pairwise fun stroke other => stroke.before other = true)
    (h : ∀ stroke ∈ strokes, stroke.span.start < stroke.span.stop) (cursor : Nat) :
    ∀ stroke ∈ apartFrom cursor strokes, ∀ other ∈ strokes, other.span.start = stroke.span.start →
      stroke.rank ≤ other.rank := by
  induction strokes generalizing cursor with
  | nil => simp [apartFrom]
  | cons first rest ih =>
      obtain ⟨hFirst, hRest⟩ := List.forall_mem_cons.1 h
      obtain ⟨hBefore, hOrdered⟩ := List.pairwise_cons.1 hOrdered
      rw [apartFrom]
      split
      case isTrue hInside =>
        intro stroke hStroke
        have hFrom := cursor_le_of_mem hRest cursor stroke hStroke
        exact List.forall_mem_cons.2 ⟨fun hStart => by omega,
          ih hOrdered hRest cursor stroke hStroke⟩
      case isFalse hOutside =>
        refine List.forall_mem_cons.2 ⟨?_, fun stroke hStroke => ?_⟩
        · refine List.forall_mem_cons.2 ⟨fun _ => Nat.le_refl _, fun other hOther hStart => ?_⟩
          have hLater := hBefore other hOther
          rw [Stroke.before_iff] at hLater
          omega
        · have hFrom := cursor_le_of_mem hRest first.span.stop stroke hStroke
          exact List.forall_mem_cons.2 ⟨fun hStart => by omega, ih hOrdered hRest _ stroke hStroke⟩

/-- Ranges that stand one behind the other and in the text can be cut, and so can what is between
them. Put together they are the rest of the text. -/
theorem cuts_within {cursor : Nat}
    (hWithin : ∀ stroke ∈ strokes, stroke.span.Within text)
    (hApart : strokes.Pairwise fun stroke other => stroke.span.stop ≤ other.span.start)
    (hFrom : ∀ stroke ∈ strokes, cursor ≤ stroke.span.start)
    (hCursor : String.Pos.Raw.IsValid text ⟨cursor⟩) :
    (∀ span ∈ cuts text.utf8ByteSize strokes cursor, span.Within text) ∧
      (cuts text.utf8ByteSize strokes cursor).flatMap (·.slice text |>.toList) =
        ((⟨cursor, text.utf8ByteSize⟩ : Span).slice text).toList := by
  have hEnd {offset : Nat} (hOffset : String.Pos.Raw.IsValid text ⟨offset⟩) :
      (⟨offset, text.utf8ByteSize⟩ : Span).Within text :=
    Span.within_of_isValid (String.Pos.Raw.le_iff.1 hOffset.le_rawEndPos) hOffset
      String.Pos.Raw.isValid_rawEndPos
  induction strokes generalizing cursor with
  | nil => simp [cuts, hEnd hCursor]
  | cons stroke rest ih =>
      obtain ⟨hStroke, hRest⟩ := List.forall_mem_cons.1 hWithin
      obtain ⟨hNext, hApart⟩ := List.pairwise_cons.1 hApart
      obtain ⟨hPieces, hText⟩ := ih hRest hApart hNext hStroke.stop_valid
      have hGap : (⟨cursor, stroke.span.start⟩ : Span).Within text :=
        Span.within_of_isValid (hFrom stroke List.mem_cons_self) hCursor hStroke.start_valid
      rw [cuts, if_neg (Nat.not_lt.2 hStroke.stop_le)]
      refine ⟨by simpa [hGap, hStroke] using hPieces, ?_⟩
      have hTail : (⟨stroke.span.start, text.utf8ByteSize⟩ : Span).slice text =
          stroke.span.slice text ++ (⟨stroke.span.stop, text.utf8ByteSize⟩ : Span).slice text :=
        Span.slice_split hStroke (hEnd hStroke.stop_valid)
      rw [List.flatMap_cons, List.flatMap_cons, hText,
        Span.slice_split hGap (hEnd hStroke.start_valid), hTail, String.toList_append,
        String.toList_append]

variable (hPositions : ∀ tag, ∀ span ∈ positions tag, span.Within text)

include hPositions in
/-- No stroke is empty. -/
theorem start_lt_stop_of_mem_strokes (h : stroke ∈ Highlight.strokes positions) :
    stroke.span.start < stroke.span.stop := by
  obtain ⟨-, hSpan, hCovers⟩ := mem_strokes h
  have hEnds : stroke.span.start ≠ stroke.span.stop := by simpa [Span.isEmpty] using hCovers
  have hOrder := (hPositions _ _ hSpan).ordered
  omega

include hPositions in
/-- Of places that begin together, one of the first category is drawn. -/
theorem rank_le_of_mem_drawn {other : Stroke} (h : stroke ∈ drawn positions)
    (hOther : other ∈ Highlight.strokes positions) (hStart : other.span.start = stroke.span.start) :
    stroke.rank ≤ other.rank := by
  rw [drawn, apart_eq_apartFrom] at h
  exact rank_le_of_mem_apartFrom (pairwise_before _)
    (fun later hMem => start_lt_stop_of_mem_strokes hPositions (List.mem_mergeSort.1 hMem)) 0
    stroke h other
    (List.mem_mergeSort.2 hOther) hStart

include hPositions in
/-- Places that are ranges of the text are painted without loss. -/
theorem isLossless_of_within : IsLossless positions text := by
  set ordered := (strokes positions).mergeSort Stroke.before with hOrdered
  have hDrawn : drawn positions = apartFrom 0 ordered := apart_eq_apartFrom ordered
  have hStroke : ∀ stroke ∈ ordered, stroke ∈ strokes positions :=
    fun stroke => List.mem_mergeSort.1
  have hWithin : ∀ stroke ∈ ordered, stroke.span.Within text := fun stroke hMem => by
    exact hPositions _ _ (mem_strokes (hStroke stroke hMem)).2.1
  have hNonempty : ∀ stroke ∈ ordered, stroke.span.start < stroke.span.stop := fun stroke hMem =>
    start_lt_stop_of_mem_strokes hPositions (hStroke stroke hMem)
  have hMem : ∀ stroke ∈ apartFrom 0 ordered, stroke ∈ ordered := fun _ hMem =>
    (apartFrom_sublist 0 ordered).subset hMem
  have hApart := pairwise_apartFrom hNonempty 0
  have hCuts := cuts_within (fun stroke h => hWithin stroke (hMem stroke h)) hApart
    (fun _ _ => Nat.zero_le _) String.Pos.Raw.isValid_zero
  constructor
  case sorted =>
    rw [hDrawn]
    refine hApart.imp_of_mem fun hFirst _ hBehind => ?_
    exact Nat.lt_of_lt_of_le (hNonempty _ (hMem _ hFirst)) hBehind
  case apart => exact hDrawn ▸ hApart
  case nonempty => exact hDrawn ▸ fun stroke h => hNonempty stroke (hMem stroke h)
  case within => exact hDrawn ▸ fun stroke h => hWithin stroke (hMem stroke h)
  case recorded =>
    rw [hDrawn]
    intro stroke h
    obtain ⟨hTag, hSpan, -⟩ := mem_strokes (hStroke stroke (hMem stroke h))
    exact ⟨stroke.tag, hTag, hSpan⟩
  case covered =>
    rw [hDrawn]
    intro tag hue hTag span hSpan hCovers
    obtain ⟨stroke, hStroke, rfl⟩ := exists_mem_strokes hTag hSpan hCovers
    exact (covered_apartFrom (pairwise_ordered _) hNonempty 0 stroke
      (List.mem_mergeSort.2 hStroke)).resolve_left (Nat.not_lt_zero _)
  case cuts => exact hDrawn ▸ hCuts.1
  case plain =>
    apply String.toList_injective
    rw [paint, paintFrom_eq_cuts, hDrawn, hCuts.2, Span.slice_whole]
    rfl

end Highlight

/-- The places that every scan records are painted without loss, whatever the language, the region
that the scan starts in and the limit. -/
theorem scan_isLossless (start : Start) (limit : Option Nat) (text : String) :
    Highlight.IsLossless (scan start limit text).design.positions text :=
  Highlight.isLossless_of_within (scan_positions start limit text)

end HdlIndex

import HdlIndex.Proofs.Computed
import HdlIndex.Proofs.Verilog.RecordedPlaces
import HdlIndex.Proofs.Vhdl.RecordedPlaces

/-! Precedence in painting. Of places that begin together the one of the first category is painted,
and places that are taken from one word, comment or directive line each can have bytes in common
only if they begin together. So an earlier category wins over a later one, unless a type is made of
several words: it covers what stands between them as well. -/
namespace HdlIndex

/-- The words that are read of a text. -/
def Language.words (language : Language) (limit : Option Nat) (text : String) : List Word :=
  match language with
  | .vhdl => Vhdl.readWords (Vhdl.readEvents text.utf8ByteSize (Vhdl.tokens limit text).list)
  | .verilog =>
      Verilog.readWords (Verilog.readEvents text.utf8ByteSize (Verilog.tokens limit text).list)

/-- The ranges of a text's table that are taken from one word, comment or directive line each. -/
def Start.recorded (start : Start) (limit : Option Nat) (text : String) : List Span :=
  match start with
  | .vhdl region => (Vhdl.scan region limit text).table.recorded
  | .verilog region => (Verilog.scan region limit text).table.recorded ++
      (Language.verilog.words limit text).map (·.span)

/-- The spans recorded of a text are anchored at places that do not overlap. -/
theorem Start.exists_places (start : Start) (limit : Option Nat) (text : String) :
    ∃ places, Span.AreAnchored places (start.recorded limit text) := by
  cases start with
  | vhdl region => exact ⟨_, Vhdl.scan_areAnchored region limit text⟩
  | verilog region => exact ⟨_, Verilog.scan_areAnchored region limit text⟩

namespace Highlight

variable {start : Start} {limit : Option Nat} {text : String} {stroke other : Stroke}

/-- The stroke is that of a Verilog type which is made of several words: no word has its range. -/
structure Stroke.IsJoined (start : Start) (limit : Option Nat) (text : String)
    (stroke : Stroke) : Prop where
  language : start.language = .verilog
  type : stroke.tag ∈ typeTags
  several : ∀ word ∈ start.language.words limit text, word.span ≠ stroke.span

/-- All other strokes are at ranges that are taken from one place of the text. -/
theorem mem_recorded_of_mem_strokes (h : stroke ∈ strokes (scan start limit text).design.positions)
    (hJoined : ¬ stroke.IsJoined start limit text) : stroke.span ∈ start.recorded limit text := by
  obtain ⟨hTag, hSpan, -⟩ := mem_strokes h
  cases start with
  | vhdl region => exact Vhdl.Table.mem_recorded_of_mem_positions hSpan
  | verilog region =>
      by_cases hType : stroke.tag ∈ typeTags
      · have hWord : ∃ word ∈ Language.verilog.words limit text, word.span = stroke.span := by
          by_contra hNone
          exact hJoined ⟨rfl, hType, fun word hMem hSame => hNone ⟨word, hMem, hSame⟩⟩
        obtain ⟨word, hMem, hSame⟩ := hWord
        exact List.mem_append_right _ (List.mem_map.2 ⟨word, hMem, hSame⟩)
      · exact List.mem_append_left _ (Verilog.Table.mem_recorded_of_mem_positions hTag hType hSpan)

/-- No painted range has a byte in common with a recorded place of an earlier category, unless one
of both is a Verilog type that is made of several words. Even then the two do not begin together. -/
theorem scan_precedence (hStroke : stroke ∈ drawn (scan start limit text).design.positions)
    (hOther : other ∈ strokes (scan start limit text).design.positions)
    (hRank : other.rank < stroke.rank) :
    stroke.span.start ≠ other.span.start ∧
      (stroke.span.IsApart other.span ∨ stroke.IsJoined start limit text ∨
        other.IsJoined start limit text) := by
  have hPositions := scan_positions start limit text
  have hText {stroke : Stroke} (h : stroke ∈ strokes (scan start limit text).design.positions) :=
    start_lt_stop_of_mem_strokes hPositions h
  have hRecorded := mem_strokes_of_mem_drawn hStroke
  have hStart : stroke.span.start ≠ other.span.start := fun hSame =>
    Nat.not_le.2 hRank (rank_le_of_mem_drawn hPositions hStroke hOther hSame.symm)
  refine ⟨hStart, ?_⟩
  by_contra hNot
  rw [not_or, not_or] at hNot
  obtain ⟨hMeet, hSingle, hOtherSingle⟩ := hNot
  obtain ⟨places, hAnchored⟩ := start.exists_places limit text
  exact hStart (hAnchored.start_eq (mem_recorded_of_mem_strokes hRecorded hSingle)
    (mem_recorded_of_mem_strokes hOther hOtherSingle) (hText hRecorded) (hText hOther) hMeet)

/-- A comment in front of an entity and the word `entity`. -/
theorem scan_precedence_comment :
    (⟨⟨5, 11⟩, .darkCyan, 15⟩ : Stroke) ∈
      drawn (scan (.vhdl .entityContext) none "-- c\nentity e is end;").design.positions ∧
    (⟨⟨0, 4⟩, .palmLeaf, 0⟩ : Stroke) ∈
      strokes (scan (.vhdl .entityContext) none "-- c\nentity e is end;").design.positions ∧
    ((⟨5, 11⟩ : Span).IsApart ⟨0, 4⟩ ∨
      (⟨⟨5, 11⟩, .darkCyan, 15⟩ : Stroke).IsJoined
        (.vhdl .entityContext) none "-- c\nentity e is end;" ∨
      (⟨⟨0, 4⟩, .palmLeaf, 0⟩ : Stroke).IsJoined
        (.vhdl .entityContext) none "-- c\nentity e is end;") := by
  have hStrokes : strokes
      (scan (.vhdl .entityContext) none "-- c\nentity e is end;").design.positions =
      [⟨⟨0, 4⟩, .palmLeaf, 0⟩, ⟨⟨12, 13⟩, .natureGreen, 2⟩, ⟨⟨5, 11⟩, .darkCyan, 15⟩,
        ⟨⟨14, 16⟩, .darkCyan, 15⟩, ⟨⟨17, 20⟩, .darkCyan, 15⟩] := by
    rw [scan_computed]
    decide +kernel
  have hOrdered :
      (strokes (scan (.vhdl .entityContext) none "-- c\nentity e is end;").design.positions).Perm
      [⟨⟨0, 4⟩, .palmLeaf, 0⟩, ⟨⟨5, 11⟩, .darkCyan, 15⟩, ⟨⟨12, 13⟩, .natureGreen, 2⟩,
        ⟨⟨14, 16⟩, .darkCyan, 15⟩, ⟨⟨17, 20⟩, .darkCyan, 15⟩] := by
    rw [hStrokes]
    decide
  have hDrawn : (⟨⟨5, 11⟩, .darkCyan, 15⟩ : Stroke) ∈
      drawn (scan (.vhdl .entityContext) none "-- c\nentity e is end;").design.positions := by
    rw [drawn_eq_of_perm hOrdered (by decide)]
    decide
  have hComment : (⟨⟨0, 4⟩, .palmLeaf, 0⟩ : Stroke) ∈
      strokes (scan (.vhdl .entityContext) none "-- c\nentity e is end;").design.positions := by
    rw [hStrokes]
    decide
  exact ⟨hDrawn, hComment, (scan_precedence hDrawn hComment (by decide)).2⟩

/-- A comment inside of a type that is made of two words is painted as a part of the type. -/
theorem scan_precedence_joined :
    (scan (.verilog .moduleContext) none
      "module m(input pkg /* c */ :: t a); endmodule").design.positions "comment" =
      [⟨19, 26⟩] ∧
    (drawn (scan (.verilog .moduleContext) none
        "module m(input pkg /* c */ :: t a); endmodule").design.positions).map
        (fun stroke => (stroke.tag, stroke.span)) =
      [("keyword", ⟨0, 6⟩), ("entity_name", ⟨7, 8⟩), ("keyword", ⟨9, 14⟩),
        ("port_interface_types", ⟨15, 31⟩),
       ("port_interface_names", ⟨32, 33⟩), ("keyword", ⟨36, 45⟩)] := by
  obtain ⟨hComment, hStrokes⟩ :
      (scan (.verilog .moduleContext) none
        "module m(input pkg /* c */ :: t a); endmodule").design.positions
        "comment" = [⟨19, 26⟩] ∧
      strokes (scan (.verilog .moduleContext) none
        "module m(input pkg /* c */ :: t a); endmodule").design.positions =
        [⟨⟨19, 26⟩, .palmLeaf, 0⟩, ⟨⟨7, 8⟩, .natureGreen, 2⟩, ⟨⟨32, 33⟩, .lightSkyBlue, 6⟩,
         ⟨⟨15, 31⟩, .seafoamGreen, 9⟩, ⟨⟨0, 6⟩, .darkCyan, 15⟩, ⟨⟨9, 14⟩, .darkCyan, 15⟩,
         ⟨⟨36, 45⟩, .darkCyan, 15⟩] := by
    rw [scan_computed]
    decide +kernel
  have hOrdered : (strokes (scan (.verilog .moduleContext) none
      "module m(input pkg /* c */ :: t a); endmodule").design.positions).Perm
      [⟨⟨0, 6⟩, .darkCyan, 15⟩, ⟨⟨7, 8⟩, .natureGreen, 2⟩, ⟨⟨9, 14⟩, .darkCyan, 15⟩,
       ⟨⟨15, 31⟩, .seafoamGreen, 9⟩, ⟨⟨19, 26⟩, .palmLeaf, 0⟩, ⟨⟨32, 33⟩, .lightSkyBlue, 6⟩,
       ⟨⟨36, 45⟩, .darkCyan, 15⟩] := by
    rw [hStrokes]
    decide
  refine ⟨hComment, ?_⟩
  rw [drawn_eq_of_perm hOrdered (by decide)]
  decide

end Highlight

end HdlIndex

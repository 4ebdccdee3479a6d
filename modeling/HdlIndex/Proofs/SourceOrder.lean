import HdlIndex.Proofs.Aligned
import HdlIndex.Proofs.Lexical
import HdlIndex.Proofs.Text.Slices
import HdlIndex.Proofs.Verilog.SourceOrder
import HdlIndex.Proofs.Vhdl.SourceOrder

/-! Source order. Whatever a table lists is listed in the order of the text and without repetition,
also where it is recorded long after it was read: no two places of a category have a byte in
common. -/
namespace HdlIndex

/-- Marks with text that follow each other are in order. -/
theorem Mark.Ordered.areInOrder {offset : Nat} {marks : List Mark} {pick? : Mark → Option Span}
    (h : Mark.Ordered offset marks) (hText : ∀ mark ∈ marks, mark.span.start < mark.span.stop)
    (hPick : ∀ mark : Mark, ∀ span ∈ pick? mark, span = mark.span) :
    Span.AreInOrder (marks.filterMap pick?) := by
  refine List.pairwise_filterMap.2 (h.2.imp_of_mem ?_)
  intro mark other hMem _ hStop span hSpan next hNext
  obtain rfl := hPick mark span hSpan
  obtain rfl := hPick other next hNext
  exact ⟨(hText mark hMem).trans_le hStop, hStop⟩

/-- A token has text, unless it is the sentinel or the empty word between two delimiters. -/
theorem tokenize_hasText (delimiters : List Delimiter) (limit : Option Nat) (closed : Bool)
    (text : String) : ∀ token ∈ (tokenize delimiters limit closed text).list,
      token.span.start < token.span.stop ∨ token.text = "" ∨
        closed = true ∧ token.text = Token.sentinelText := by
  intro token hMem
  rcases tokenize_standsIn delimiters limit closed text token hMem with hStands | ⟨hClosed, rfl⟩
  · have hSize := (standsIn_inherited _).stop_eq hStands
    by_cases hEmpty : token.text = ""
    · exact .inr (.inl hEmpty)
    · refine .inl ?_
      have hPositive : token.text.utf8ByteSize ≠ 0 := fun h =>
        hEmpty (String.utf8ByteSize_eq_zero_iff.1 h)
      simp only [Token.word] at hSize
      omega
  · exact .inr (.inr ⟨hClosed, rfl⟩)

/-- Every mark covers text, so that no two of them can begin at the same place. -/
theorem Language.marks_hasText (language : Language) (limit : Option Nat) (text : String) :
    ∀ mark ∈ language.marks limit text, mark.span.start < mark.span.stop := by
  cases language with
  | vhdl =>
      have hScanned := tokenize_scanned_le Vhdl.delimiters limit false (Text.foldCase text)
      rw [Text.utf8ByteSize_foldCase] at hScanned
      refine Vhdl.lexis.marks_hasText (tokenize_contiguous _ _ _ _) hScanned fun token hMem => ?_
      refine (tokenize_hasText _ _ _ _ token hMem).imp_right fun hOther => ?_
      obtain hEmpty | ⟨hClosed, -⟩ := hOther
      · exact ⟨by rw [hEmpty]; decide, fun passed rest => by simp [Vhdl.lexis, hEmpty]⟩
      · cases hClosed
  | verilog =>
      refine Verilog.lexis.marks_hasText (tokenize_contiguous _ _ _ _)
        (tokenize_scanned_le Verilog.delimiters limit true text) fun token hMem => ?_
      refine (tokenize_hasText _ _ _ _ token hMem).imp_right fun hOther => ?_
      obtain hText | ⟨-, hText⟩ := hOther
      · exact ⟨by rw [hText]; decide, fun passed rest => by simp [Verilog.lexis, hText]; decide⟩
      · exact ⟨by rw [hText]; decide, fun passed rest => by simp [Verilog.lexis, hText]; decide⟩

/-- What is picked from the marks of a text is in order. -/
theorem Language.areInOrder_marks (language : Language) (limit : Option Nat) (text : String)
    {pick? : Mark → Option Span} (hPick : ∀ mark : Mark, ∀ span ∈ pick? mark, span = mark.span) :
    Span.AreInOrder ((language.marks limit text).filterMap pick?) :=
  (language.marks_ordered limit text).areInOrder (language.marks_hasText limit text) hPick

/-- The name of an included file stands inside of its directive. -/
theorem Verilog.within_of_includedFile? {text : String} {span : Span} {file : Word}
    (h : includedFile? text span = some file) :
    span.start < file.span.start ∧ file.span.start ≤ file.span.stop ∧
    file.span.stop ≤ span.stop := by
  obtain ⟨lead, behind, hSlice, hStart, hStop⟩ := includedFile?_parts h
  have hQuote : String.utf8Len (lead ++ ['"']) = String.utf8Len lead + 1 := by
    rw [String.utf8Len_append]
    rfl
  have hName : String.utf8Len file.text.toList = file.text.utf8ByteSize := by
    rw [← String.utf8ByteSize_ofList, String.ofList_toList]
  have hSize : (span.slice text).utf8ByteSize = String.utf8Len (lead ++ ['"']) +
      file.text.utf8ByteSize + String.utf8Len behind := by
    rw [← String.ofList_toList (s := span.slice text), String.utf8ByteSize_ofList, hSlice,
      String.utf8Len_append, String.utf8Len_append, hName]
  have hSpan := span.utf8ByteSize_slice_le text
  omega

namespace Design

/-- The tags of the places that several entries can share: all instances of a Verilog statement have
the one type that it begins with. -/
def shared : Design → List String
  | vhdl _ => []
  | verilog _ => ["instance_types"]

/-- The places of every category are in the order of the text and have no byte in common. The
instances of a VHDL table are recorded under labels that it lists, and no label is that of a process
as well. -/
structure IsInOrder (design : Design) : Prop where
  keywords : Span.AreInOrder (design.positions "keyword")
  fields : ∀ field ∈ design.fields, field.1 ∉ design.shared →
    Span.AreInOrder (design.positions field.1)
  lists : ∀ list ∈ design.lists, Span.AreInOrder (list.2.positions "names")
  named : ∀ table, design = vhdl table → table.IsNamed

/-- It is enough that the words of the categories are in order. -/
theorem IsInOrder.of_words {design : Design} (hAligned : design.IsAligned)
    (hKeywords : Span.AreInOrder (design.positions "keyword"))
    (hFields : ∀ field ∈ design.fields, field.1 ∉ design.shared → Word.AreInOrder field.2)
    (hLists : ∀ list ∈ design.lists, Word.AreInOrder list.2.names)
    (hNamed : ∀ table, design = vhdl table → table.IsNamed) : design.IsInOrder where
  keywords := hKeywords
  fields field hMem hShared := by
    rw [(hAligned.fields field hMem).positions]
    exact Word.areInOrder_iff.1 (hFields field hMem hShared)
  lists list hMem := Word.areInOrder_iff.1 (hLists list hMem)
  named := hNamed

end Design

/-- The lists that depend on the reading alone are in the order of the text, each of them without
repetition. -/
theorem scan_areInOrder_marked (start : Start) (limit : Option Nat) (text : String) :
    Span.AreInOrder (scan start limit text).design.keywords ∧
    Word.AreInOrder (scan start limit text).design.comments ∧
    Word.AreInOrder (scan start limit text).design.includeFiles := by
  have hMarked := scan_isMarked start limit text
  have hMarks := @Language.areInOrder_marks start.language limit text
  rw [hMarked.keywords, hMarked.comments, hMarked.includeFiles]
  refine ⟨hMarks fun mark => ?_, List.pairwise_map.2 (hMarks fun mark => ?_), ?_⟩
  · cases mark <;> simp [Mark.keyword?, Mark.span]
  · cases mark <;> simp [Mark.comment?, Mark.span]
  · have hDirectives : Span.AreInOrder
        ((start.language.marks limit text).filterMap Mark.directive?) :=
      hMarks fun mark => by cases mark <;> simp [Mark.directive?, Mark.span]
    refine List.pairwise_filterMap.2 (hDirectives.imp ?_)
    intro span other hBefore file hFile next hNext
    obtain ⟨-, hSize, hStop⟩ := Verilog.within_of_includedFile? hFile
    obtain ⟨hStart, -, -⟩ := Verilog.within_of_includedFile? hNext
    have hApart := hBefore.stop
    exact ⟨by omega, by omega⟩

/-- Whatever is listed of a text is listed in the order in which it stands there, and only once. -/
theorem scan_isInOrder (start : Start) (limit : Option Nat) (text : String) :
    (scan start limit text).design.IsInOrder := by
  have hAligned := (scan_isAligned start limit text).1
  obtain ⟨hKeywords, hComments, hFiles⟩ := scan_areInOrder_marked start limit text
  cases start with
  | vhdl region =>
      refine .of_words hAligned hKeywords ?_ (Vhdl.areInOrder_lists region limit text) ?_
      · intro field hMem _
        rcases List.mem_cons.1 hMem with rfl | hMem
        · exact hComments
        · exact Vhdl.areInOrder_fields region limit text field hMem
      · rintro _ ⟨⟩
        exact Vhdl.scan_isNamed region limit text
  | verilog region =>
      refine .of_words hAligned hKeywords ?_ (Verilog.areInOrder_lists region limit text) fun _ =>
        nofun
      intro field hMem hShared
      rcases List.mem_cons.1 hMem with rfl | hMem
      · exact hComments
      rcases List.mem_cons.1 hMem with rfl | hMem
      · exact hFiles
      rcases List.mem_cons.1 hMem with rfl | hMem
      · simp [scan, Design.shared] at hShared
      · exact Verilog.areInOrder_fields region limit text field hMem

end HdlIndex

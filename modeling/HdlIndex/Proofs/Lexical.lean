import HdlIndex.Proofs.Faithful
import HdlIndex.Proofs.Verilog.Marks
import HdlIndex.Proofs.Vhdl.Marks
import Mathlib.Data.List.Pairwise

/-! Comments, included files and reserved words are a matter of the tokens alone. Whatever region a
scan starts in, they are those that the reference scan of the token list marks. -/
namespace HdlIndex

/-- The marks of a text. Comments and directive lines that are not closed reach to its end. -/
def Language.marks (language : Language) (limit : Option Nat) (text : String) : List Mark :=
  match language with
  | .vhdl => Vhdl.lexis.marks text.utf8ByteSize [] (Vhdl.tokens limit text).list
  | .verilog => Verilog.lexis.marks text.utf8ByteSize [] (Verilog.tokens limit text).list

/-- The language that is read. -/
def Start.language : Start → Language
  | vhdl _ => .vhdl
  | verilog _ => .verilog

namespace Design

/-- The ranges of the reserved words. -/
def keywords : Design → List Span
  | vhdl table => table.keywords
  | verilog table => table.keywords

/-- The included files, of which VHDL has none. -/
def includeFiles : Design → List Word
  | vhdl _ => []
  | verilog table => table.includeFiles.entries.toList

end Design

/-- The ranges have no byte in common. -/
def Span.IsApart (span other : Span) : Prop := span.stop ≤ other.start ∨ other.stop ≤ span.start

theorem Language.marks_ordered (language : Language) (limit : Option Nat) (text : String) :
    Mark.Ordered 0 (language.marks limit text) := by
  cases language with
  | vhdl => exact Vhdl.lexis.marks_ordered (tokenize_contiguous _ _ _ _)
  | verilog => exact Verilog.lexis.marks_ordered (tokenize_contiguous _ _ _ _)

/-- No reserved word is marked inside of a comment. -/
theorem Mark.Ordered.isApart {offset : Nat} {marks : List Mark} (h : Mark.Ordered offset marks)
    {keyword comment : Span} (hKeyword : keyword ∈ marks.filterMap keyword?)
    (hComment : comment ∈ marks.filterMap comment?) : keyword.IsApart comment := by
  have hSymm : Std.Symm fun mark other : Mark => mark.span.IsApart other.span :=
    ⟨fun _ _ => Or.symm⟩
  have hApart : marks.Pairwise fun mark other => mark.span.IsApart other.span := h.2.imp .inl
  obtain ⟨mark, hMark, hSpan⟩ := List.mem_filterMap.1 hKeyword
  obtain ⟨other, hOther, hOtherSpan⟩ := List.mem_filterMap.1 hComment
  cases mark with
  | keyword span =>
      cases other with
      | comment span' =>
          obtain rfl := Option.some.inj hSpan
          obtain rfl := Option.some.inj hOtherSpan
          exact hApart.forall hMark hOther (by simp)
      | _ => cases hOtherSpan
  | _ => cases hSpan

/-- The comments, reserved words and included files of a design are those that the marks tell. -/
structure Design.IsMarked (design : Design) (marks : List Mark) (text : String) : Prop where
  comments : design.comments = (marks.filterMap Mark.comment?).map fun span =>
    ⟨String.ofList (Text.trimEnd (span.slice text).toList), span⟩
  keywords : design.keywords = marks.filterMap Mark.keyword?
  includeFiles : design.includeFiles =
    (marks.filterMap Mark.directive?).filterMap (Verilog.includedFile? text)

/-- The comments, the included files and the reserved words of a design are those that the marks of
its text tell, from whatever region the scan starts. -/
theorem scan_isMarked (start : Start) (limit : Option Nat) (text : String) :
    (scan start limit text).design.IsMarked (start.language.marks limit text) text := by
  cases start with
  | vhdl region =>
      have hComments := Vhdl.filterMap_readEvents Vhdl.Event.comment?_eq text.utf8ByteSize
        (Vhdl.tokens limit text).list
      have hKeywords := Vhdl.filterMap_readEvents Vhdl.Event.keyword?_eq text.utf8ByteSize
        (Vhdl.tokens limit text).list
      have hDirectives :
          ((Vhdl.readEvents text.utf8ByteSize (Vhdl.tokens limit text).list).filterMap
          fun _ => none) = (Language.vhdl.marks limit text).filterMap Mark.directive? :=
        Vhdl.filterMap_readEvents (fun event => event.directive?_mark.symm) _ _
      refine ⟨congrArg (List.map _) hComments, hKeywords, ?_⟩
      show [] = ((Language.vhdl.marks limit text).filterMap Mark.directive?).filterMap _
      rw [← hDirectives]
      simp
  | verilog region =>
      have hComments := Verilog.filterMap_readEvents Verilog.Event.comment?_eq text.utf8ByteSize
        (Verilog.tokens limit text).list
      have hKeywords := Verilog.filterMap_readEvents Verilog.Event.keyword?_eq text.utf8ByteSize
        (Verilog.tokens limit text).list
      have hDirectives := Verilog.filterMap_readEvents Verilog.Event.directive?_eq text.utf8ByteSize
        (Verilog.tokens limit text).list
      exact ⟨congrArg (List.map _) hComments, hKeywords, congrArg (List.filterMap _) hDirectives⟩

/-- The lexical parts of a table are those of the reference scan, which knows no region. So they are
the same for every start in a language, and no reserved word stands in a comment. -/
theorem scan_lexical (start : Start) (limit : Option Nat) (text : String) :
    (scan start limit text).design.IsMarked (start.language.marks limit text) text ∧
      (∀ other : Start, other.language = start.language →
        (scan other limit text).design.comments = (scan start limit text).design.comments ∧
        (scan other limit text).design.keywords = (scan start limit text).design.keywords ∧
        (scan other limit text).design.includeFiles = (scan start limit text).design.includeFiles) ∧
      ∀ keyword ∈ (scan start limit text).design.keywords,
        ∀ comment ∈ (scan start limit text).design.comments, keyword.IsApart comment.span := by
  have hMarked := scan_isMarked start limit text
  refine ⟨hMarked, fun other hLanguage => ?_, fun keyword hKeyword comment hComment => ?_⟩
  · have hOther := scan_isMarked other limit text
    rw [hLanguage] at hOther
    exact ⟨hOther.comments.trans hMarked.comments.symm, hOther.keywords.trans hMarked.keywords.symm,
      hOther.includeFiles.trans hMarked.includeFiles.symm⟩
  · rw [hMarked.keywords] at hKeyword
    rw [hMarked.comments] at hComment
    obtain ⟨span, hSpan, rfl⟩ := List.mem_map.1 hComment
    exact (start.language.marks_ordered limit text).isApart hKeyword hSpan

end HdlIndex

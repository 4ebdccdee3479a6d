import HdlIndex.Design
import HdlIndex.Proofs.Verilog.StatementWords
import HdlIndex.Proofs.Vhdl.StatementWords

/-! A symbol table is faithful to its text: every range that it records is a range of the text, and
every name is what the text has at the name's range. -/
namespace HdlIndex

namespace Vhdl

/-- All ranges of a table: those of names, processes, comments and reserved words. -/
def Table.spans (table : Table) : List Span :=
  table.names.map (·.span) ++ table.processes.toList.map (·.span) ++
    table.comments.spans ++ table.keywords

end Vhdl

namespace Verilog

/-- All ranges of a table: those of names, types, included files, always blocks, comments and
reserved words. -/
def Table.spans (table : Table) : List Span :=
  table.names.map (·.span) ++ table.types.map (·.span) ++ table.includeFiles.spans ++
    table.processes.toList.map (·.span) ++ table.comments.spans ++ table.keywords

end Verilog

namespace Design

/-- All ranges of a design's table. -/
def spans : Design → List Span
  | vhdl table => table.spans
  | verilog table => table.spans

/-- The words of a design's table that are taken from its source as they are. In Verilog a type can
be made of several words, so types are not among them. -/
def names : Design → List Word
  | vhdl table => table.names
  | verilog table => table.names ++ table.includeFiles.entries.toList

/-- The comments of a design. -/
def comments : Design → List Word
  | vhdl table => table.comments.entries.toList
  | verilog table => table.comments.entries.toList

/-- The text that names are taken from. In VHDL it is the text in lower case. -/
def source (design : Design) (text : String) : String :=
  match design with
  | vhdl _ => Text.foldCase text
  | verilog _ => text

/-- Every range lies in the text, every name is the source at its range, and every comment is the
text at its range without the blanks at the end. -/
structure IsFaithful (design : Design) (text : String) : Prop where
  spans : ∀ span ∈ design.spans, span.Within text
  names : ∀ name ∈ design.names, name.span.slice (design.source text) = name.text
  comments : ∀ comment ∈ design.comments,
    comment.text = String.ofList (Text.trimEnd (comment.span.slice text).toList)

end Design

theorem Span.All.within {span : Span} {text : String} (h : span.All (·.StandsIn text)) :
    span.Within text :=
  within_of_isValid h.ordered h.start.within.start_valid h.stop.within.start_valid

namespace Vhdl

/-- What holds of the two ends of every event holds of the comments among them. -/
theorem Event.All.comment? {P : Word → Prop} {event : Event} (h : event.All P) :
    ∀ span ∈ event.comment?, span.All P := by
  cases event with
  | comment span =>
      rintro _ ⟨⟩
      exact h
  | filler token => simp [Event.comment?]
  | word here before next => simp [Event.comment?]

/-- A reserved word stands in the text, so its place is within it. -/
theorem Event.All.keyword? {text : String} {event : Event} (h : event.All (·.StandsIn text)) :
    ∀ span ∈ event.keyword?, span.Within text := by
  cases event with
  | comment span => simp [Event.keyword?]
  | filler token => simp [Event.keyword?]
  | word here before next =>
      intro span hSpan
      obtain ⟨-, rfl⟩ : here.symbol.isKeyword = true ∧ here.span = span := by
        simpa [Event.keyword?] using hSpan
      exact h.1.within

/-- No place of a table reaches beyond the text, and none ends in front of its beginning. -/
theorem scan_spans (region : Region) (limit : Option Nat) (text : String) :
    ∀ span ∈ (scan region limit text).table.spans, span.Within text := by
  have hFound := scan_standsIn region limit text
  have hEvents := events_standIn limit text
  simp only [Table.spans, List.forall_mem_append, List.forall_mem_map, Array.mem_toList_iff]
  refine ⟨⟨⟨fun name hName => ?_, fun process hProcess => ?_⟩, fun span hSpan => ?_⟩,
    fun span hSpan => ?_⟩
  · exact Text.within_foldCase.1 (hFound.names name hName).within
  · exact Text.within_foldCase.1 (hFound.processes process hProcess).span.within
  · obtain ⟨event, hEvent, hComment⟩ :
      ∃ event ∈ readEvents text.utf8ByteSize (tokens limit text).list,
        span ∈ event.comment? := by
      simpa [scan, tabulate, Words.spans, commentAt] using hSpan
    exact Text.within_foldCase.1 ((hEvents event hEvent).comment? span hComment).within
  · obtain ⟨event, hEvent, hKeyword⟩ := List.mem_filterMap.1 hSpan
    exact Text.within_foldCase.1 ((hEvents event hEvent).keyword? span hKeyword)

/-- The text of a comment is what stands at its span, without the marks around it. -/
theorem scan_comments (region : Region) (limit : Option Nat) (text : String) :
    ∀ comment ∈ (scan region limit text).table.comments.entries.toList,
      comment = commentAt text comment.span := by
  intro comment hComment
  obtain ⟨span, -, rfl⟩ := List.mem_map.1 hComment
  rfl

end Vhdl

namespace Verilog

theorem Event.All.comment? {P : Word → Prop} {event : Event} (h : event.All P) :
    ∀ span ∈ event.comment?, span.All P := by
  cases event with
  | comment span =>
      rintro _ ⟨⟩
      exact h
  | _ => simp [Event.comment?]

/-- The span of a directive is a span of the event. -/
theorem Event.All.directive? {P : Word → Prop} {event : Event} (h : event.All P) :
    ∀ span ∈ event.directive?, span.All P := by
  cases event with
  | directive span =>
      rintro _ ⟨⟩
      exact h
  | _ => simp [Event.directive?]

/-- The same holds of the reserved words of a Verilog reading. -/
theorem Event.All.keyword? {text : String} {event : Event} (h : event.All (·.StandsIn text)) :
    ∀ span ∈ event.keyword?, span.Within text := by
  cases event with
  | word here next =>
      intro span hSpan
      obtain ⟨-, rfl⟩ : here.symbol.isKeyword = true ∧ here.span = span := by
        simpa [Event.keyword?] using hSpan
      exact Span.Covers.within h
  | _ => simp [Event.keyword?]

/-- Included files stand in the text like names. -/
theorem scan_includeFiles (region : Region) (limit : Option Nat) (text : String) :
    ∀ file ∈ (scan region limit text).table.includeFiles.entries.toList, file.StandsIn text := by
  intro file hFile
  obtain ⟨span, ⟨event, hEvent, hDirective⟩, hIncluded⟩ :
      ∃ span, (∃ event ∈ readEvents text.utf8ByteSize (tokens limit text).list,
        span ∈ event.directive?) ∧ includedFile? text span = some file := by
    simpa [scan, tabulate] using hFile
  exact includedFile?_standsIn
    ((events_standIn limit text event hEvent).directive? span hDirective).within hIncluded

/-- The same holds for Verilog. Here the included files are places, too. -/
theorem scan_spans (region : Region) (limit : Option Nat) (text : String) :
    ∀ span ∈ (scan region limit text).table.spans, span.Within text := by
  have hFound := scan_located region limit text
  have hEvents := events_standIn limit text
  simp only [Table.spans, List.forall_mem_append, List.forall_mem_map, Array.mem_toList_iff]
  refine ⟨⟨⟨⟨⟨fun name hName => ?_, fun type hType => ?_⟩, fun span hSpan => ?_⟩,
    fun process hProcess => ?_⟩, fun span hSpan => ?_⟩, fun span hSpan => ?_⟩
  · exact (hFound.names name hName).within
  · exact hFound.types type hType
  · obtain ⟨file, hFile, rfl⟩ := List.mem_map.1 hSpan
    exact (scan_includeFiles region limit text file hFile).within
  · exact (hFound.processes process hProcess).span.within
  · obtain ⟨event, hEvent, hComment⟩ :
      ∃ event ∈ readEvents text.utf8ByteSize (tokens limit text).list,
        span ∈ event.comment? := by
      simpa [scan, tabulate, Words.spans, commentAt] using hSpan
    exact ((hEvents event hEvent).comment? span hComment).within
  · obtain ⟨event, hEvent, hKeyword⟩ := List.mem_filterMap.1 hSpan
    exact (hEvents event hEvent).keyword? span hKeyword

/-- In Verilog the same holds of comments. -/
theorem scan_comments (region : Region) (limit : Option Nat) (text : String) :
    ∀ comment ∈ (scan region limit text).table.comments.entries.toList,
      comment = commentAt text comment.span := by
  intro comment hComment
  obtain ⟨span, -, rfl⟩ := List.mem_map.1 hComment
  rfl

end Verilog

/-- The table of every text is faithful to it, whatever the language, the region that the scan
starts in and the limit. -/
theorem scan_isFaithful (start : Start) (limit : Option Nat) (text : String) :
    (scan start limit text).design.IsFaithful text := by
  cases start with
  | vhdl region =>
      refine ⟨Vhdl.scan_spans region limit text, fun name hName => ?_, fun comment hComment => ?_⟩
      · exact ((Vhdl.scan_standsIn region limit text).names name hName).slice_eq
      · exact congrArg Word.text (Vhdl.scan_comments region limit text comment hComment)
  | verilog region =>
      refine ⟨Verilog.scan_spans region limit text, fun name hName => ?_,
        fun comment hComment => ?_⟩
      · rcases List.mem_append.1 hName with hName | hName
        · exact ((Verilog.scan_located region limit text).names name hName).slice_eq
        · exact (Verilog.scan_includeFiles region limit text name hName).slice_eq
      · exact congrArg Word.text (Verilog.scan_comments region limit text comment hComment)

end HdlIndex

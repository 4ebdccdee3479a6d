import HdlIndex.Design
import HdlIndex.Proofs.Verilog.ReadingWords
import HdlIndex.Proofs.Verilog.StatementWords
import HdlIndex.Proofs.Vhdl.Pending
import HdlIndex.Proofs.Vhdl.StatementWords

/-! The columns of a symbol table are aligned, and they are so before the walk's end completes any
declaration list. What remains to be remarked is an open generate statement and text that was not
read. -/
namespace HdlIndex

/-- The number of values of an answer that is a list. -/
def Answer.size? : Answer → Option Nat
  | text _ => Option.none
  | list values => some values.length
  | conditions values => some values.length

/-- All columns of a declaration list have one value for each name, and the columns that are located
in the text have one place for each name. -/
structure Declarations.IsRectangular (list : Declarations) : Prop where
  columns : ∀ column ∈ ["names", "direction", "kind", "types", "ranges", "init"],
    (list.get column).size? = some list.names.length
  positions : ∀ column ∈ ["names", "types"], (list.positions column).length = list.names.length

/-- A list without pending names is rectangular, for each row has all columns. -/
theorem Declarations.isRectangular_of_settled {list : Declarations} (h : list.pending = #[]) :
    list.IsRectangular := by
  have hNames : list.names.length = list.rows.size := by simp [Declarations.names, h]
  refine ⟨?_, ?_⟩
  · simp [Declarations.get, Answer.size?, hNames, Declarations.modes, Declarations.types,
      Declarations.ranges, Declarations.inits]
  · simp [Declarations.positions, hNames, Declarations.types]

/-- The words of a category answer its tag and are located by it. A category of one value is
answered with its first word. -/
structure FieldIsLocated (get : String → Answer) (positions : String → List Span)
    (field : String × List Word) : Prop where
  positions : positions field.1 = field.2.map (·.span)
  values : get field.1 = .list (field.2.map (·.text)) ∨
    get field.1 = .text ((field.2.map (·.text)).headD "")

theorem Words.first_eq_headD (words : Words) :
    words.first = (words.entries.toList.map (·.text)).headD "" := by
  obtain ⟨⟨entries⟩⟩ := words
  cases entries <;> rfl

namespace FieldIsLocated

variable {α : Type} {get : String → Answer} {positions : String → List Span} {tag : String}

theorem ofWords {words : Words} (hPositions : positions tag = words.spans)
    (hValues : get tag = .list words.texts) :
    FieldIsLocated get positions (tag, words.entries.toList) :=
  ⟨hPositions, .inl hValues⟩

theorem ofFirst {words : Words} (hPositions : positions tag = words.spans)
    (hValue : get tag = .text words.first) :
    FieldIsLocated get positions (tag, words.entries.toList) :=
  ⟨hPositions, .inr (hValue.trans (by rw [words.first_eq_headD]))⟩

/-- The words of a category may be parts of what it records. -/
theorem ofEntries {entries : List α} {word : α → Word}
    (hPositions : positions tag = entries.map fun entry => (word entry).span)
    (hValues : get tag = .list (entries.map fun entry => (word entry).text)) :
    FieldIsLocated get positions (tag, entries.map word) := by
  refine ⟨?_, .inl ?_⟩
  · rw [List.map_map]
    exact hPositions
  · rw [List.map_map]
    exact hValues

end FieldIsLocated

namespace Design

/-- The declaration lists of a design's table. -/
def lists : Design → List (String × Declarations)
  | vhdl table => table.lists
  | verilog table => table.lists

/-- The categories of a design's table that are located in the text, apart from declaration
lists. -/
def fields : Design → List (String × List Word)
  | vhdl table => ("comment", table.comments.entries.toList) :: table.fields
  | verilog table =>
    ("comment", table.comments.entries.toList) ::
      ("include_files", table.includeFiles.entries.toList) ::
        ("instance_types", table.instances.toList.map (·.module)) :: table.fields

/-- Tags whose answers are columns of one thing. -/
def groups : Design → List (List String)
  | vhdl _ =>
    [["clocked_signals", "clocked_signals_generate_conditions"],
     ["instance_names", "instance_types", "instance_libraries"],
     ["data_type_names", "data_type_definitions"]]
  | verilog _ =>
    [["clocked_signals", "clocked_signals_generate_conditions"],
     ["instance_names", "instance_types"]]

/-- Columns of one thing have one length, and there are as many places as values. -/
structure IsAligned (design : Design) : Prop where
  lists : ∀ list ∈ design.lists, list.2.IsRectangular
  fields : ∀ field ∈ design.fields, FieldIsLocated design.get design.positions field
  groups : ∀ group ∈ design.groups, ∃ size, ∀ tag ∈ group, (design.get tag).size? = some size

end Design

namespace Vhdl

theorem Table.fields_located (table : Table) :
    ∀ field ∈ (Design.vhdl table).fields, FieldIsLocated table.get table.positions field := by
  simp only [Design.fields, Findings.fields, List.forall_mem_cons]
  exact ⟨.ofWords rfl rfl, .ofFirst rfl rfl, .ofFirst rfl rfl, .ofFirst rfl rfl, .ofFirst rfl rfl,
    .ofWords rfl rfl, .ofWords rfl rfl, .ofWords rfl rfl, .ofWords rfl rfl, .ofEntries rfl rfl,
    .ofEntries rfl rfl, .ofEntries rfl rfl, .ofEntries rfl rfl, .ofWords rfl rfl, by simp⟩

/-- The categories of a group are columns of one list, so that their answers have one size. Sizes of
different groups say nothing about each other. -/
theorem Table.groups_aligned (table : Table) :
    ∀ group ∈ (Design.vhdl table).groups,
      ∃ size, ∀ tag ∈ group, (table.get tag).size? = some size := by
  simp only [Design.groups, List.forall_mem_cons]
  refine ⟨⟨table.clocked.entries.toList.length, ?_⟩, ⟨table.instances.toList.length, ?_⟩,
    ⟨table.types.toList.length, ?_⟩, by simp⟩
  · exact ⟨congrArg some (List.length_map _), congrArg some (List.length_map _), by simp⟩
  · exact ⟨congrArg some (List.length_map _), congrArg some (List.length_map _),
      congrArg some (List.length_map _), by simp⟩
  · exact ⟨congrArg some (List.length_map _), congrArg some (List.length_map _), by simp⟩

/-- Every list of a table is rectangular. No name is left pending where a walk ends, so that nothing
has to be filled up. -/
theorem scan_lists (region : Region) (limit : Option Nat) (text : String) :
    ∀ list ∈ (scan region limit text).table.lists, list.2.IsRectangular := by
  have hSettled := settled_walkThrough region
    (readEvents text.utf8ByteSize (tokens limit text).list) text.utf8ByteSize
  intro list hMem
  rw [show (scan region limit text).table.lists =
    (walkThrough region (readEvents text.utf8ByteSize (tokens limit text).list)
      text.utf8ByteSize).found.lists from congrArg Findings.lists hSettled.align_eq_self] at hMem
  exact Declarations.isRectangular_of_settled (hSettled.pending list hMem)

/-- No declaration list has to be remarked, so a diagnostic is about generate statements or about
text that was not read. -/
theorem diagnose_walkThrough (region : Region) (events : List Event) (scanned size : Nat) :
    diagnose (walkThrough region events size) scanned size =
      (if ((Walk.start region).run events).generates.length = 0 then []
        else [.unclosedGenerate ((Walk.start region).run events).generates.length]) ++
      (if scanned < size then [.truncated scanned size] else []) := by
  have hRagged := (settled_walkThrough region events size).ragged_eq_nil
  have hGenerates := ((Walk.start region).run events).generates_finish size
  rw [diagnose, hRagged, walkThrough, hGenerates]
  simp

end Vhdl

namespace Verilog

theorem Table.fields_located (table : Table) :
    ∀ field ∈ (Design.verilog table).fields, FieldIsLocated table.get table.positions field := by
  simp only [Design.fields, Findings.fields, List.forall_mem_cons]
  exact ⟨.ofWords rfl rfl, .ofWords rfl rfl, .ofEntries rfl rfl, .ofFirst rfl rfl,
    .ofEntries rfl rfl, .ofEntries rfl rfl, .ofWords rfl rfl, .ofWords rfl rfl, by simp⟩

theorem Table.groups_aligned (table : Table) :
    ∀ group ∈ (Design.verilog table).groups,
      ∃ size, ∀ tag ∈ group, (table.get tag).size? = some size := by
  simp only [Design.groups, List.forall_mem_cons]
  refine ⟨⟨table.clocked.entries.toList.length, ?_⟩, ⟨table.instances.toList.length, ?_⟩, by simp⟩
  · exact ⟨congrArg some (List.length_map _), congrArg some (List.length_map _), by simp⟩
  · exact ⟨congrArg some (List.length_map _), congrArg some (List.length_map _), by simp⟩

/-- The same holds for Verilog, where a name is recorded together with its attributes. -/
theorem scan_lists (region : Region) (limit : Option Nat) (text : String) :
    ∀ list ∈ (scan region limit text).table.lists, list.2.IsRectangular := fun list hMem =>
  Declarations.isRectangular_of_settled ((scan_located region limit text).lists list hMem).settled

/-- Where no list has pending names, the remarks are known in full: open conditions, and text that
was not read. -/
theorem diagnose_walkThrough (region : Region) (events : List Event) (scanned size : Nat)
    (hSettled : ∀ list ∈ (walkThrough region events size).found.lists, list.2.pending = #[]) :
    diagnose (walkThrough region events size) scanned size =
      (if ((Walk.start region).run events).frames.length = 0 then []
        else [.unclosedGenerate ((Walk.start region).run events).frames.length]) ++
      (if scanned < size then [.truncated scanned size] else []) := by
  have hRagged : (walkThrough region events size).found.ragged = [] := by
    simp only [Findings.ragged, List.map_eq_nil_iff, List.filter_eq_nil_iff]
    intro list hMem
    simp [Declarations.isAligned, hSettled list hMem]
  have hFrames := ((Walk.start region).run events).frames_finish size
  rw [diagnose, hRagged, walkThrough, hFrames]
  simp

end Verilog

namespace Start

/-- The declaration lists of a text as the walk through it leaves them, before they are
completed. -/
def collected (start : Start) (limit : Option Nat) (text : String) : List (String × Declarations) :=
  match start with
  | vhdl region =>
    (Vhdl.walkThrough region (Vhdl.readEvents text.utf8ByteSize (Vhdl.tokens limit text).list)
      text.utf8ByteSize).found.lists
  | verilog region =>
    (Verilog.walkThrough region
      (Verilog.readEvents text.utf8ByteSize (Verilog.tokens limit text).list)
      text.utf8ByteSize).found.lists

/-- The number of generate conditions in force when the tokens run out. -/
def openGenerates (start : Start) (limit : Option Nat) (text : String) : Nat :=
  match start with
  | vhdl region =>
    ((Vhdl.Walk.start region).run
      (Vhdl.readEvents text.utf8ByteSize (Vhdl.tokens limit text).list)).generates.length
  | verilog region =>
    ((Verilog.Walk.start region).run
      (Verilog.readEvents text.utf8ByteSize (Verilog.tokens limit text).list)).frames.length

/-- The byte offset at which reading ends. -/
def scanned (start : Start) (limit : Option Nat) (text : String) : Nat :=
  match start with
  | vhdl _ => (Vhdl.tokens limit text).scanned
  | verilog _ => (Verilog.tokens limit text).scanned

end Start

/-- The table of every text is aligned, and was so before any list was completed. Its diagnostics
are an open generate statement, if one is open when the tokens run out, and text that was not
read. -/
theorem scan_isAligned (start : Start) (limit : Option Nat) (text : String) :
    (scan start limit text).design.IsAligned ∧
    (∀ list ∈ start.collected limit text, list.2.pending = #[]) ∧
    (scan start limit text).design.diagnostics =
      (if start.openGenerates limit text = 0 then []
        else [.unclosedGenerate (start.openGenerates limit text)]) ++
      (if start.scanned limit text < text.utf8ByteSize then
        [.truncated (start.scanned limit text) text.utf8ByteSize] else []) := by
  cases start with
  | vhdl region =>
      refine ⟨⟨Vhdl.scan_lists region limit text, Vhdl.Table.fields_located _,
        Vhdl.Table.groups_aligned _⟩, ?_, Vhdl.diagnose_walkThrough region _ _ _⟩
      exact (Vhdl.settled_walkThrough region _ _).pending
  | verilog region =>
      have hSettled : ∀ list ∈ (Start.verilog region).collected limit text,
          list.2.pending = #[] := fun list hMem =>
        ((Verilog.walkThrough_located region limit text).lists list hMem).settled
      exact ⟨⟨Verilog.scan_lists region limit text, Verilog.Table.fields_located _,
        Verilog.Table.groups_aligned _⟩, hSettled,
        Verilog.diagnose_walkThrough region _ _ _ hSettled⟩

end HdlIndex

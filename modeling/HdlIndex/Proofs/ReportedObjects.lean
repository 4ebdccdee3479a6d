import HdlIndex.Command.Report
import HdlIndex.Proofs.Computed
import HdlIndex.Proofs.SensitivityReport
import HdlIndex.Proofs.Symbols.Distinct
import HdlIndex.Proofs.Verilog.ObjectKinds
import HdlIndex.Proofs.Vhdl.ObjectKinds
import HdlIndex.Sensitivity
import Mathlib.Data.List.Sort

/-! Which names are reported as missing from the sensitivity lists of a design. They are readable
ports and declared objects, and a declared object counts whatever it is recorded as. So constants
and local parameters are reported like signals. -/
namespace HdlIndex

open Command (scopeOf)

/-- With no name pending, looking up a name tells whether some row has it. A pending name would be
found as well. -/
theorem Declarations.find?_isSome_iff {list : Declarations} (h : list.pending = #[])
    (name : String) :
    (list.find? name).isSome = true ↔ ∃ row ∈ list.rows, row.name.text = name := by
  have hPending : list.pending.findIdx? (·.text == name) = none := by simp [h]
  rw [find?, hPending, Option.map_none]
  constructor
  · intro hFound
    split at hFound
    · next index hIndex =>
      obtain ⟨hLess, hName, -⟩ := Array.findIdx?_eq_some_iff_getElem.1 hIndex
      exact ⟨list.rows[index], Array.getElem_mem hLess, eq_of_beq hName⟩
    · cases hFound
  · rintro ⟨row, hRow, rfl⟩
    split
    · rfl
    · next hNone =>
      rw [Array.findIdx?_eq_none_iff] at hNone
      simpa using hNone row hRow

namespace Design

/-- The declared objects of a design. -/
def objects : Design → Declarations
  | vhdl table => table.objects
  | verilog table => table.objects

/-- What an object can be recorded as in the language of a design. -/
def IsKind : Design → String → Prop
  | vhdl _, kind => ∃ word : Vhdl.ObjectKind, kind = word.text
  | verilog _, kind => Verilog.IsKind kind

/-- An object of the kind can change while the design runs. -/
def CanChange : Design → String → Prop
  | vhdl _, kind => kind = "signal"
  | verilog _, kind => kind ≠ "localparam" ∧ kind ≠ "genvar"

instance : (design : Design) → (kind : String) → Decidable (design.CanChange kind)
  | vhdl _, kind => inferInstanceAs (Decidable (kind = "signal"))
  | verilog _, kind => inferInstanceAs (Decidable (kind ≠ "localparam" ∧ kind ≠ "genvar"))

/-- What a missing name is: a port that can be read, or an object that can change. -/
def ReportsSignals (design : Design) : Prop :=
  ∀ process ∈ design.processes, ∀ word ∈ (Sensitivity.check (scopeOf design) process).missing,
    design.isReadablePort word.text = true ∨
      ∃ row ∈ design.objects.rows, row.name.text = word.text ∧ design.CanChange row.mode

instance (design : Design) : Decidable design.ReportsSignals := by
  unfold ReportsSignals
  infer_instance

/-- The objects of a design have the kinds of its language, and which of them are reported as
missing has nothing to do with their kinds: a name that a process reads, assigns nowhere and does
not list is missing if it is that of a port that can be read or of any object, and no other name
is. -/
structure ReportsObjects (design : Design) : Prop where
  kinds : ∀ row ∈ design.objects.rows, design.IsKind row.mode
  missing : ∀ process name,
    (∃ word ∈ (Sensitivity.check (scopeOf design) process).missing, word.text = name) ↔
      process.clocked = false ∧ process.all = false ∧
        (∃ entry ∈ process.body.toList, entry.role = .read ∧ entry.word.base = name) ∧
        (∀ entry ∈ process.body.toList,
          entry.role = .target ∨ entry.role = .variableTarget → entry.word.base ≠ name) ∧
        (∀ listed ∈ process.sensitivity.toList, listed.base ≠ name) ∧
        (design.isReadablePort name = true ∨ ∃ row ∈ design.objects.rows, row.name.text = name)

/-- A design in which every object can change reports none that cannot. -/
theorem ReportsObjects.reportsSignals {design : Design} (h : design.ReportsObjects)
    (hObjects : ∀ row ∈ design.objects.rows, design.CanChange row.mode) :
    design.ReportsSignals := by
  intro process _ word hWord
  obtain ⟨-, -, -, -, -, hPort | ⟨row, hRow, hName⟩⟩ :=
    (h.missing process word.text).1 ⟨word, hWord, rfl⟩
  · exact .inl hPort
  · exact .inr ⟨row, hRow, hName, hObjects row hRow⟩

/-- A name is taken for a signal if any object has it, of whatever kind. -/
theorem isSignal_iff {design : Design} (h : design.objects.pending = #[]) (name : String) :
    design.isSignal name = true ↔ ∃ row ∈ design.objects.rows, row.name.text = name := by
  cases design with
  | vhdl table => exact Declarations.find?_isSome_iff h name
  | verilog table => exact Declarations.find?_isSome_iff h name

end Design

/-- A report lacks the names that its process depends on and does not list. -/
theorem Report.IsOf.exists_missing_iff {scope : Scope} {process : HdlProcess} {report : Report}
    (h : report.IsOf scope process) (name : String) :
    (∃ word ∈ report.missing, word.text = name) ↔ process.clocked = false ∧ process.all = false ∧
      process.DependsOn scope name ∧ ∀ listed ∈ process.sensitivity.toList, listed.base ≠ name := by
  by_cases hExempt : process.clocked = true ∨ process.all = true
  · rw [h.exempt hExempt]
    refine iff_of_false (by simp) ?_
    rintro ⟨hClocked, hAll, -⟩
    simp [hClocked, hAll] at hExempt
  · have hFlags : process.clocked = false ∧ process.all = false := by simpa using hExempt
    constructor
    · rintro ⟨word, hWord, rfl⟩
      obtain ⟨hDepends, hUnlisted, -⟩ := (h.missing hExempt word).1 hWord
      exact ⟨hFlags.1, hFlags.2, hDepends, hUnlisted⟩
    · rintro ⟨-, -, hDepends, hUnlisted⟩
      obtain ⟨entry, hFirst⟩ :=
        Sensitivity.exists_read_iff.1 (Sensitivity.dependsOn_iff.1 hDepends).2
      exact ⟨⟨name, entry.word.span⟩,
        (h.missing hExempt _).2 ⟨hDepends, hUnlisted, entry, hFirst, rfl⟩, rfl⟩

/-- The objects of a scan are complete, and each has a kind of its language. -/
theorem scan_objects (start : Start) (limit : Option Nat) (text : String) :
    (scan start limit text).design.objects.pending = #[] ∧
      ∀ row ∈ (scan start limit text).design.objects.rows,
        (scan start limit text).design.IsKind row.mode := by
  cases start with
  | vhdl region =>
      have hSettled := Vhdl.settled_walkThrough region
        (Vhdl.readEvents text.utf8ByteSize (Vhdl.tokens limit text).list) text.utf8ByteSize
      refine ⟨?_, Vhdl.scan_objects region limit text⟩
      show (Vhdl.walkThrough region _ _).found.align.objects.pending = #[]
      rw [hSettled.align_eq_self]
      exact hSettled.pending ("signal_constant_variable", _) (by simp [Vhdl.Findings.lists])
  | verilog region =>
      exact ⟨(Verilog.scan_located region limit text).objects.settled,
        Verilog.scan_objects region limit text⟩

/-- Every scan reports readable ports and objects of all kinds, whatever the language, the region
that it starts in and the limit. -/
theorem scan_reportsObjects (start : Start) (limit : Option Nat) (text : String) :
    (scan start limit text).design.ReportsObjects := by
  obtain ⟨hPending, hKinds⟩ := scan_objects start limit text
  refine ⟨hKinds, fun process name => ?_⟩
  rw [(Sensitivity.isOf_check _ process).exists_missing_iff name]
  refine and_congr_right' (and_congr_right' ?_)
  constructor
  · rintro ⟨⟨hRead, hUnassigned, hDriver⟩, hUnlisted⟩
    exact ⟨hRead, hUnassigned, hUnlisted,
      hDriver.symm.imp_right (Design.isSignal_iff hPending name).1⟩
  · rintro ⟨hRead, hUnassigned, hUnlisted, hDriver⟩
    exact ⟨⟨hRead, hUnassigned, hDriver.symm.imp_left (Design.isSignal_iff hPending name).2⟩,
      hUnlisted⟩

/-- A constant is reported, and a local parameter is. -/
theorem scan_reports_constants :
    ¬ (scan (.file .vhdl) none ("architecture a of e is constant c : bit; signal y : bit; " ++
        "begin process (y) begin y <= c; end process; end;")).design.ReportsSignals ∧
      ¬ (scan (.file .verilog) none ("module m; localparam W = 4; reg y; " ++
        "always @(y) y = W; endmodule")).design.ReportsSignals := by
  rw [scan_computed, scan_computed]
  exact ⟨by decide +kernel, by decide +kernel⟩

end HdlIndex

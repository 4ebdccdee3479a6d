import HdlIndex.Proofs.Computed
import HdlIndex.Proofs.Faithful
import HdlIndex.Proofs.SensitivityReport
import Mathlib.Data.List.TakeWhile

/-! Where the words of a report stand. A word of the list is reported with its own range. A missing
name is the base of the word that reads it first, and the range it is reported with is that of the
whole word. So the source has the name there if the word selects nothing, and more than the name if
it selects an element or a part of a hierarchy. -/
namespace HdlIndex

open Command (scopeOf)

/-- A text is its own base if it has no point. -/
theorem baseName_eq_self_iff {text : String} : baseName text = text ↔ '.' ∉ text.toList := by
  rw [← String.toList_inj, baseName, String.toList_ofList, List.takeWhile_eq_self_iff]
  constructor
  · intro hPlain hPoint
    simpa using hPlain '.' hPoint
  · intro hPoint char hChar
    rw [bne_iff_ne]
    rintro rfl
    exact hPoint hChar

/-- What the source has at the ranges of a report. -/
structure Report.Locates (report : Report) (process : HdlProcess) (source : String) : Prop where
  /-- A word of the list stands at its range. -/
  superfluous : ∀ word ∈ report.superfluous, word.span.slice source = word.text
  /-- At the range of a missing name stands the word that reads it first. The name itself stands at
  the stem of that word, which begins where the range begins. -/
  missing : ∀ word ∈ report.missing, ∃ entry,
    process.body.toList[process.firstRead word.text]? = some entry ∧
      entry.word.span = word.span ∧ word.span.slice source = entry.word.text ∧
      entry.word.stem.span.start = word.span.start ∧ entry.word.stem.span.slice source = word.text
  /-- So the source has the name itself at the range unless the word there selects something. -/
  own : ∀ word ∈ report.missing,
    word.span.slice source = word.text ↔ '.' ∉ (word.span.slice source).toList

/-- The index of the first read of a name is that of a word whose base is the name. -/
theorem HdlProcess.base_of_firstRead {process : HdlProcess} {name : String} {entry : BodyWord}
    (h : process.body.toList[process.firstRead name]? = some entry) : entry.word.base = name := by
  obtain ⟨hLess, rfl⟩ := List.getElem?_eq_some_iff.1 h
  exact eq_of_beq (Bool.and_eq_true_iff.1 (List.findIdx_getElem (w := hLess))).2

/-- A report on a process whose words stand in the source has only words that it locates. -/
theorem HdlProcess.All.locates {process : HdlProcess} {source : String}
    (h : process.All (·.StandsIn source)) {scope : Scope} {report : Report}
    (hReport : report.IsOf scope process) : report.Locates process source := by
  by_cases hExempt : process.clocked = true ∨ process.all = true
  · rw [hReport.exempt hExempt]
    exact ⟨by simp, by simp, by simp⟩
  · have hMissing : ∀ word ∈ report.missing, ∃ entry,
        process.body.toList[process.firstRead word.text]? = some entry ∧
          entry.word.span = word.span ∧ entry.word.base = word.text ∧
          entry.word.StandsIn source := by
      intro word hWord
      obtain ⟨-, -, entry, hFirst, hSpan⟩ := (hReport.missing hExempt word).1 hWord
      exact ⟨entry, hFirst, hSpan, process.base_of_firstRead hFirst,
        h.body entry (Array.mem_toList_iff.1 (List.mem_of_getElem? hFirst))⟩
    refine ⟨fun word hWord => ?_, fun word hWord => ?_, fun word hWord => ?_⟩
    · rw [hReport.superfluous hExempt] at hWord
      exact (h.sensitivity word (Array.mem_toList_iff.1 (List.mem_of_mem_filter hWord))).slice_eq
    · obtain ⟨entry, hFirst, hSpan, hBase, hStands⟩ := hMissing word hWord
      have hStem : entry.word.stem.span.slice source = entry.word.base :=
        ((standsIn_inherited source).stem hStands).slice_eq
      exact ⟨entry, hFirst, hSpan, hSpan ▸ hStands.slice_eq,
        congrArg (·.start) hSpan, hStem.trans hBase⟩
    · obtain ⟨entry, -, hSpan, hBase, hStands⟩ := hMissing word hWord
      have hSlice : word.span.slice source = entry.word.text := hSpan ▸ hStands.slice_eq
      rw [hSlice, ← baseName_eq_self_iff, ← hBase, eq_comm]
      exact Iff.rfl

namespace Design

/-- Every word of every report stands in the source at its range. -/
def ReportsOwnSpans (design : Design) (text : String) : Prop :=
  ∀ process ∈ design.processes,
    (∀ word ∈ (Sensitivity.check (scopeOf design) process).missing,
      word.span.slice (design.source text) = word.text) ∧
    ∀ word ∈ (Sensitivity.check (scopeOf design) process).superfluous,
      word.span.slice (design.source text) = word.text

instance (design : Design) (text : String) : Decidable (design.ReportsOwnSpans text) := by
  unfold ReportsOwnSpans
  infer_instance

/-- The reports of a design say where their words are read, and their words all stand at their own
ranges exactly if no missing name is read first as a part of a selected one. -/
structure LocatesReports (design : Design) (text : String) : Prop where
  located : ∀ process ∈ design.processes,
    (Sensitivity.check (scopeOf design) process).Locates process (design.source text)
  own_iff : design.ReportsOwnSpans text ↔ ∀ process ∈ design.processes,
    ∀ word ∈ (Sensitivity.check (scopeOf design) process).missing,
      '.' ∉ (word.span.slice (design.source text)).toList

end Design

/-- The words of a process stand in the text that names are taken from. -/
theorem scan_processes_standIn (start : Start) (limit : Option Nat) (text : String) :
    ∀ process ∈ (scan start limit text).design.processes,
      process.All (·.StandsIn ((scan start limit text).design.source text)) := by
  intro process hProcess
  cases start with
  | vhdl region =>
      exact (Vhdl.scan_standsIn region limit text).processes process
        (Array.mem_toList_iff.1 hProcess)
  | verilog region =>
      exact (Verilog.scan_located region limit text).processes process
        (Array.mem_toList_iff.1 hProcess)

/-- The reports of every scan locate their words, whatever the language, the region that it starts
in and the limit. -/
theorem scan_locatesReports (start : Start) (limit : Option Nat) (text : String) :
    (scan start limit text).design.LocatesReports text := by
  have hLocated : ∀ process ∈ (scan start limit text).design.processes,
      (Sensitivity.check (scopeOf (scan start limit text).design) process).Locates process
        ((scan start limit text).design.source text) := fun process hProcess =>
    (scan_processes_standIn start limit text process hProcess).locates
      (Sensitivity.isOf_check _ process)
  refine ⟨hLocated, fun hOwn process hProcess word hWord => ?_, fun hPlain process hProcess => ?_⟩
  · exact ((hLocated process hProcess).own word hWord).1 ((hOwn process hProcess).1 word hWord)
  · refine ⟨fun word hWord => ?_, (hLocated process hProcess).superfluous⟩
    exact ((hLocated process hProcess).own word hWord).2 (hPlain process hProcess word hWord)

/-- A record that is read by its element is reported with the range of the element's name, and so is
the top of a hierarchical name. -/
theorem scan_reports_selected :
    (let text := "architecture a of e is signal r : t; signal x, y : bit; " ++
        "begin process (x) begin y <= r.f; end process; end;";
      ¬ (scan (.file .vhdl) none text).design.ReportsOwnSpans text) ∧
    (let text := "module m; reg r, x, y; always @(x) y = r.f; endmodule";
      ¬ (scan (.file .verilog) none text).design.ReportsOwnSpans text) := by
  simp only [scan_computed]
  exact ⟨by decide +kernel, by decide +kernel⟩

end HdlIndex

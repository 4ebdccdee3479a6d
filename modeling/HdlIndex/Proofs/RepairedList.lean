import HdlIndex.Proofs.ReportedObjects
import Mathlib.Data.List.TakeWhile

/-! Applying a report to a sensitivity list. A list is as it should be if its words name exactly
what the process depends on, whatever their order and however often a name is repeated. What the
process depends on is a matter of its body alone, so that it stays the same when the list is
changed. -/
namespace HdlIndex

/-- The base of a name has no point, so that it is its own base. -/
theorem baseName_baseName (text : String) : baseName (baseName text) = baseName text := by
  rw [baseName, baseName, String.toList_ofList, List.takeWhile_idem]

namespace HdlProcess

/-- The process with another sensitivity list. -/
def listing (process : HdlProcess) (list : Array Word) :
    HdlProcess := { process with sensitivity := list }

/-- What a process depends on is told by its body. -/
theorem dependsOn_listing {process : HdlProcess} {scope : Scope} {list : Array Word}
    {name : String} :
    (process.listing list).DependsOn scope name ↔ process.DependsOn scope name := by
  constructor
  · rintro ⟨read, unassigned, driver⟩
    exact ⟨read, unassigned, driver⟩
  · rintro ⟨read, unassigned, driver⟩
    exact ⟨read, unassigned, driver⟩

/-- The words name what the process depends on, and nothing else. -/
def IsCoveredBy (process : HdlProcess) (scope : Scope) (words : List Word) : Prop :=
  ∀ name, (∃ word ∈ words, word.base = name) ↔ process.DependsOn scope name

end HdlProcess

namespace Report

/-- The list that a report asks for: its words that are not superfluous, and the missing ones. -/
def repair (report : Report) (listed : List Word) : List Word :=
  listed.filter (· ∉ report.superfluous) ++ report.missing

theorem isClean_iff {report : Report} :
    report.isClean = true ↔ report.missing = [] ∧ report.superfluous = [] := by
  rw [isClean, Bool.and_eq_true_iff, List.isEmpty_iff, List.isEmpty_iff]

namespace IsOf

variable {scope : Scope} {process : HdlProcess} {report : Report} {word : Word} {words : List Word}

/-- A missing word has a name that some word of the body has as its base. -/
theorem base_of_missing (h : report.IsOf scope process)
    (hExempt : ¬ (process.clocked = true ∨ process.all = true)) (hWord : word ∈ report.missing) :
    word.base = word.text := by
  obtain ⟨⟨⟨entry, -, -, hBase⟩, -, -⟩, -, -⟩ := (h.missing hExempt word).1 hWord
  rw [Word.base, ← hBase, Word.base, baseName_baseName]

/-- A list is clean if it names what its process depends on. -/
theorem isClean_iff (h : report.IsOf scope process)
    (hExempt : ¬ (process.clocked = true ∨ process.all = true)) :
    report.isClean = true ↔ process.IsCoveredBy scope process.sensitivity.toList := by
  have hFlags : process.clocked = false ∧ process.all = false := by simpa using hExempt
  rw [Report.isClean_iff, h.superfluous hExempt, List.filter_eq_nil_iff]
  simp only [decide_eq_true_eq, not_not]
  constructor
  · rintro ⟨hMissing, hSuperfluous⟩ name
    constructor
    · rintro ⟨word, hWord, rfl⟩
      exact hSuperfluous word hWord
    · intro hDepends
      by_contra hUnlisted
      push Not at hUnlisted
      obtain ⟨word, hWord, -⟩ :=
        (h.exists_missing_iff name).2 ⟨hFlags.1, hFlags.2, hDepends, hUnlisted⟩
      rw [hMissing] at hWord
      cases hWord
  · intro hCovered
    refine ⟨?_, fun word hWord => (hCovered word.base).1 ⟨word, hWord, rfl⟩⟩
    rw [List.eq_nil_iff_forall_not_mem]
    intro word hWord
    obtain ⟨hDepends, hUnlisted, -⟩ := (h.missing hExempt word).1 hWord
    obtain ⟨listed, hListed, hName⟩ := (hCovered word.text).2 hDepends
    exact hUnlisted listed hListed hName

/-- The list that a report asks for names what the process depends on: a name of that kind is either
listed, by words that are not superfluous, or missing. -/
theorem isCoveredBy_repair (h : report.IsOf scope process)
    (hExempt : ¬ (process.clocked = true ∨ process.all = true)) :
    process.IsCoveredBy scope (report.repair process.sensitivity.toList) := by
  have hFlags : process.clocked = false ∧ process.all = false := by simpa using hExempt
  have hKept (word : Word) (hWord : word ∈ process.sensitivity.toList) :
      word ∉ report.superfluous ↔ process.DependsOn scope word.base := by
    rw [h.superfluous hExempt, List.mem_filter, and_iff_right hWord, decide_eq_true_eq, not_not]
  intro name
  simp only [repair, List.mem_append, List.mem_filter, decide_eq_true_eq]
  constructor
  · rintro ⟨word, ⟨hListed, hWord⟩ | hMissing, rfl⟩
    · exact (hKept word hListed).1 hWord
    · rw [h.base_of_missing hExempt hMissing]
      exact ((h.missing hExempt word).1 hMissing).1
  · intro hDepends
    by_cases hListed : ∃ word ∈ process.sensitivity.toList, word.base = name
    · obtain ⟨word, hWord, rfl⟩ := hListed
      exact ⟨word, .inl ⟨hWord, (hKept word hWord).2 hDepends⟩, rfl⟩
    · push Not at hListed
      obtain ⟨word, hMissing, hName⟩ :=
        (h.exists_missing_iff name).2 ⟨hFlags.1, hFlags.2, hDepends, hListed⟩
      exact ⟨word, .inr hMissing, (h.base_of_missing hExempt hMissing).trans hName⟩

end IsOf

end Report

/-- What a list covers does not depend on its order. -/
theorem HdlProcess.IsCoveredBy.of_perm {process : HdlProcess} {scope : Scope}
    {words others : List Word} (h : process.IsCoveredBy scope words) (hPerm : others.Perm words) :
    process.IsCoveredBy scope others := by
  intro name
  simp only [hPerm.mem_iff]
  exact h name

namespace Sensitivity

open HdlProcess (listing)

/-- The order of a list decides the order of its superfluous words, and nothing else. -/
theorem check_listing_perm (scope : Scope) (process : HdlProcess) {list : Array Word}
    (hPerm : list.toList.Perm process.sensitivity.toList) :
    (check scope (process.listing list)).missing = (check scope process).missing ∧
      (check scope (process.listing list)).superfluous.Perm (check scope process).superfluous := by
  by_cases hExempt : (process.clocked || process.all) = true
  · rw [check, check, if_pos hExempt, listing, if_pos hExempt]
    exact ⟨rfl, .refl _⟩
  · rw [check, check, if_neg hExempt, listing, if_neg hExempt]
    refine ⟨List.filter_congr fun word _ => ?_, hPerm.filter _⟩
    exact congrArg not (hPerm.map Word.base).contains_eq

/-- Applying a report repairs a list, in whatever order its words are put: nothing is reported any
more, and if the process is neither clocked nor sensitive to everything, the list names what the
process depends on. Reordering a list changes nothing but the order of the superfluous words. -/
theorem check_repaired (scope : Scope) (process : HdlProcess) :
    (∀ list : Array Word,
      list.toList.Perm ((check scope process).repair process.sensitivity.toList) →
      (check scope (process.listing list)).isClean = true ∧
        (process.clocked = false → process.all = false → process.IsCoveredBy scope list.toList)) ∧
    ∀ list : Array Word, list.toList.Perm process.sensitivity.toList →
      (check scope (process.listing list)).missing = (check scope process).missing ∧
        (check scope (process.listing list)).superfluous.Perm
          (check scope process).superfluous := by
  refine ⟨fun list hPerm => ?_, fun list hPerm => check_listing_perm scope process hPerm⟩
  have hReport := isOf_check scope (process.listing list)
  by_cases hExempt : process.clocked = true ∨ process.all = true
  · rw [hReport.exempt hExempt]
    refine ⟨rfl, fun hClocked hAll => ?_⟩
    simp [hClocked, hAll] at hExempt
  · have hCovered : process.IsCoveredBy scope list.toList :=
      ((isOf_check scope process).isCoveredBy_repair hExempt).of_perm hPerm
    refine ⟨(hReport.isClean_iff hExempt).2 fun name => ?_, fun _ _ => hCovered⟩
    exact (hCovered name).trans HdlProcess.dependsOn_listing.symm

/-- The list has one name twice, once as a part of it, and a name that is not read. The words of the
repaired list are put in another order. -/
theorem check_repaired_selected :
    let word (text : String) (offset : Nat) : Word := ⟨text, ⟨offset, offset + text.utf8ByteSize⟩⟩
    let scope : Scope := ⟨(["r", "b", "c"].contains ·), (["a"].contains ·)⟩
    let process : HdlProcess :=
      { label := none
        span := ⟨0, 60⟩
        sensitivity := #[word "r.f" 9, word "c" 14, word "r" 17]
        body := #[⟨word "y" 26, .target⟩, ⟨word "b" 31, .read⟩, ⟨word "r.g" 35, .read⟩,
          ⟨word "b" 41, .read⟩, ⟨word "a.x" 45, .read⟩] }
    let repaired : Array Word := #[word "r" 17, ⟨"a", ⟨45, 48⟩⟩, word "r.f" 9, word "b" 31]
    let reordered : Array Word := #[word "c" 14, word "r" 17, word "r.f" 9]
    repaired.toList.Perm ((check scope process).repair process.sensitivity.toList) ∧
      (check scope (process.listing repaired)).isClean = true ∧
      process.IsCoveredBy scope repaired.toList ∧
      reordered.toList.Perm process.sensitivity.toList ∧
      (check scope (process.listing reordered)).missing = [word "b" 31, ⟨"a", ⟨45, 48⟩⟩] := by
  intro word scope process repaired reordered
  have hRepaired :
      repaired.toList.Perm ((check scope process).repair process.sensitivity.toList) := by
    decide +kernel
  have hReordered : reordered.toList.Perm process.sensitivity.toList := by decide +kernel
  obtain ⟨hClean, hCovered⟩ := (check_repaired scope process).1 repaired hRepaired
  obtain ⟨hMissing, -⟩ := (check_repaired scope process).2 reordered hReordered
  exact ⟨hRepaired, hClean, hCovered rfl rfl, hReordered, hMissing.trans (by decide +kernel)⟩

end Sensitivity

end HdlIndex

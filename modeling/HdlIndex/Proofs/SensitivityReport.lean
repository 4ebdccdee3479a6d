import HdlIndex.Command.Report
import HdlIndex.Proofs.Computed
import HdlIndex.Proofs.Symbols.Distinct
import HdlIndex.Proofs.Verilog.ObjectKinds
import HdlIndex.Proofs.Vhdl.ObjectKinds
import HdlIndex.Sensitivity
import Mathlib.Data.List.Sort

/-! What the report about a sensitivity list says, in terms of the words of the body, their roles
and their base names. The names that a process depends on are listed once each, at the word that
reads them first; which word that is depends on the names alone, since all words of a name pass the
same checks. -/
namespace HdlIndex

/-- The word of a body reads a name. -/
def BodyWord.reads (entry : BodyWord) (name : String) : Bool :=
  entry.role == .read && entry.word.base == name

/-- The base of a word of a body, at the place of the word. -/
def BodyWord.baseWord (entry : BodyWord) : Word := ⟨entry.word.base, entry.word.span⟩

namespace HdlProcess

/-- A name that the body reads and assigns nowhere, and that can drive a process. -/
structure DependsOn (process : HdlProcess) (scope : Scope) (name : String) : Prop where
  read : ∃ entry ∈ process.body.toList, entry.role = .read ∧ entry.word.base = name
  unassigned : ∀ entry ∈ process.body.toList,
    entry.role = .target ∨ entry.role = .variableTarget → entry.word.base ≠ name
  driver : scope.isSignal name = true ∨ scope.isReadablePort name = true

instance (process : HdlProcess) (scope : Scope) (name : String) :
    Decidable (process.DependsOn scope name) :=
  decidable_of_iff
    ((∃ entry ∈ process.body.toList, entry.role = .read ∧ entry.word.base = name) ∧
      (∀ entry ∈ process.body.toList,
        entry.role = .target ∨ entry.role = .variableTarget → entry.word.base ≠ name) ∧
      (scope.isSignal name = true ∨ scope.isReadablePort name = true))
    ⟨fun ⟨read, unassigned, driver⟩ => ⟨read, unassigned, driver⟩,
      fun ⟨read, unassigned, driver⟩ => ⟨read, unassigned, driver⟩⟩

/-- The index of the first word of the body that reads a name. -/
def firstRead (process : HdlProcess) (name : String) : Nat :=
  process.body.toList.findIdx (·.reads name)

end HdlProcess

/-- The report on a process. One that is clocked or sensitive to everything lacks nothing. -/
structure Report.IsOf (scope : Scope) (process : HdlProcess) (report : Report) : Prop where
  exempt : process.clocked = true ∨ process.all = true → report = {}
  /-- A name is missing if the process depends on it and no entry of the list has it as its base. It
  is located where it is read first. -/
  missing : ¬ (process.clocked = true ∨ process.all = true) → ∀ word, word ∈ report.missing ↔
    process.DependsOn scope word.text ∧
    (∀ listed ∈ process.sensitivity.toList, listed.base ≠ word.text) ∧
      ∃ entry, process.body.toList[process.firstRead word.text]? = some entry ∧
        entry.word.span = word.span
  /-- No name is missing twice, since its first read is behind the one of the name before it. -/
  inOrder : report.missing.Pairwise fun word other =>
    process.firstRead word.text < process.firstRead other.text
  superfluous : ¬ (process.clocked = true ∨ process.all = true) → report.superfluous =
    process.sensitivity.toList.filter fun word => ¬ process.DependsOn scope word.base

/-- A process has one report at most. -/
theorem Report.IsOf.unique {scope : Scope} {process : HdlProcess} {report other : Report}
    (h : report.IsOf scope process) (hOther : other.IsOf scope process) : report = other := by
  by_cases hExempt : process.clocked = true ∨ process.all = true
  · rw [h.exempt hExempt, hOther.exempt hExempt]
  · have : Std.Irrefl fun word other : Word =>
        process.firstRead word.text < process.firstRead other.text := ⟨fun _ => Nat.lt_irrefl _⟩
    have : Std.Antisymm fun word other : Word =>
        process.firstRead word.text < process.firstRead other.text :=
      ⟨fun _ _ hOrder hBack => absurd hOrder hBack.asymm⟩
    have hMissing : report.missing = other.missing :=
      h.inOrder.eq_of_mem_iff hOther.inOrder fun word =>
        (h.missing hExempt word).trans (hOther.missing hExempt word).symm
    have hSuperfluous : report.superfluous = other.superfluous :=
      (h.superfluous hExempt).trans (hOther.superfluous hExempt).symm
    cases report
    cases other
    rw [Report.mk.injEq]
    exact ⟨hMissing, hSuperfluous⟩

namespace Sensitivity

/-- A word that reads a name that is wanted. -/
def isWanted (wanted : String → Bool) (entry : BodyWord) : Bool :=
  entry.role == .read && wanted entry.word.base

/-- The first words that read the names that are wanted, under those names. -/
def firstReads (body : List BodyWord) (wanted : String → Bool) : List Word :=
  firstByName ((body.filter (isWanted wanted)).map BodyWord.baseWord)

variable {body : List BodyWord} {entry : BodyWord} {wanted : String → Bool} {word : Word}
  {scope : Scope} {process : HdlProcess} {report : Report} {name : String}

/-- A word that is kept makes its name unwanted behind it. -/
theorem firstReads_cons_of_pos (h : isWanted wanted entry = true) :
    firstReads (entry :: body) wanted =
      entry.baseWord :: firstReads body fun name => wanted name && name != entry.word.base := by
  rw [firstReads, List.filter_cons_of_pos h, List.map_cons, firstByName, List.eraseDupsBy_cons,
    List.filter_map, List.filter_filter, firstReads, firstByName]
  congr 3
  apply List.filter_congr
  intro other _
  rw [Function.comp_apply, Bool.decide_eq_false, Bool.and_comm, isWanted, isWanted, Bool.and_assoc]
  rfl

theorem firstReads_cons_of_neg (h : ¬ isWanted wanted entry = true) :
    firstReads (entry :: body) wanted = firstReads body wanted := by
  rw [firstReads, List.filter_cons_of_neg h, firstReads]

/-- Only names that are asked for are kept. -/
theorem wanted_of_mem_firstReads (h : word ∈ firstReads body wanted) : wanted word.text = true := by
  induction body generalizing wanted with
  | nil => simp [firstReads, firstByName] at h
  | cons entry body ih =>
      by_cases hEntry : isWanted wanted entry = true
      · rw [firstReads_cons_of_pos hEntry] at h
        rcases List.mem_cons.1 h with rfl | h
        · exact (Bool.and_eq_true_iff.1 hEntry).2
        · exact (Bool.and_eq_true_iff.1 (ih h)).1
      · rw [firstReads_cons_of_neg hEntry] at h
        exact ih h

/-- A word in front that is not wanted does not read a name that is. -/
theorem reads_eq_false_of_wanted (hWord : wanted name = true)
    (hEntry : ¬ isWanted wanted entry = true) :
    entry.reads name = false := by
  rw [Bool.eq_false_iff]
  intro hReads
  obtain ⟨hRole, hName⟩ := Bool.and_eq_true_iff.1 hReads
  rw [isWanted, hRole, eq_of_beq hName] at hEntry
  exact hEntry hWord

theorem reads_eq_false_of_ne (h : name ≠ entry.word.base) : entry.reads name = false := by
  rw [BodyWord.reads, beq_false_of_ne h.symm, Bool.and_false]

/-- The words that are kept are the ones that read their names first. -/
theorem mem_firstReads : word ∈ firstReads body wanted ↔ wanted word.text = true ∧
    ∃ entry, body[body.findIdx (·.reads word.text)]? = some entry ∧
      entry.word.span = word.span := by
  induction body generalizing wanted with
  | nil => simp [firstReads, firstByName]
  | cons entry body ih =>
      rw [List.findIdx_cons]
      cases hReads : entry.reads word.text with
      | true =>
          obtain ⟨hRole, hName⟩ := Bool.and_eq_true_iff.1 hReads
          have hName : entry.word.base = word.text := eq_of_beq hName
          have hWanted : isWanted wanted entry = wanted word.text := by
            rw [isWanted, hRole, hName, Bool.true_and]
          simp only [cond_true, List.getElem?_cons_zero, Option.some.injEq, exists_eq_left']
          cases hEntry : wanted word.text with
          | true =>
              have hRest : word ∉ firstReads body fun name =>
                  wanted name && name != entry.word.base :=
                fun hMem => by simpa [hName] using wanted_of_mem_firstReads hMem
              rw [firstReads_cons_of_pos (hWanted.trans hEntry), List.mem_cons, or_iff_left hRest]
              refine ⟨by rintro rfl; exact ⟨rfl, rfl⟩, ?_⟩
              rintro ⟨-, hSpan⟩
              rw [BodyWord.baseWord, hName, hSpan]
          | false =>
              rw [firstReads_cons_of_neg (by rw [hWanted, hEntry]; decide)]
              refine ⟨fun hMem => ?_, fun h => by cases h.1⟩
              rw [wanted_of_mem_firstReads hMem] at hEntry
              cases hEntry
      | false =>
          simp only [cond_false, List.getElem?_cons_succ]
          by_cases hEntry : isWanted wanted entry = true
          · have hOther : word.text ≠ entry.word.base := by
              intro hName
              rw [BodyWord.reads, (Bool.and_eq_true_iff.1 hEntry).1, hName] at hReads
              simp at hReads
            rw [firstReads_cons_of_pos hEntry, List.mem_cons, ih, bne_iff_ne.2 hOther,
              Bool.and_true, or_iff_right]
            exact fun hWord => hOther (congrArg Word.text hWord)
          · rw [firstReads_cons_of_neg hEntry, ih]

/-- The words that are kept are in the order of their first reads. -/
theorem pairwise_firstReads : (firstReads body wanted).Pairwise fun word other =>
    body.findIdx (·.reads word.text) < body.findIdx (·.reads other.text) := by
  induction body generalizing wanted with
  | nil => exact List.Pairwise.nil
  | cons entry body ih =>
      have hLater {names : String → Bool} (hNames : ∀ name, names name = true →
          entry.reads name = false) : (firstReads body names).Pairwise fun word other =>
            (entry :: body).findIdx (·.reads word.text) <
              (entry :: body).findIdx (·.reads other.text) := by
        refine ih.imp_of_mem fun hWord hOther hOrder => ?_
        rw [List.findIdx_cons, List.findIdx_cons, hNames _ (wanted_of_mem_firstReads hWord),
          hNames _ (wanted_of_mem_firstReads hOther)]
        exact Nat.succ_lt_succ hOrder
      by_cases hEntry : isWanted wanted entry = true
      · have hNames : ∀ name, (wanted name && name != entry.word.base) = true →
            entry.reads name = false := fun name hName =>
          reads_eq_false_of_ne (bne_iff_ne.1 (Bool.and_eq_true_iff.1 hName).2)
        rw [firstReads_cons_of_pos hEntry, List.pairwise_cons]
        refine ⟨fun word hWord => ?_, hLater hNames⟩
        have hFirst : entry.reads entry.word.base = true := by
          rw [BodyWord.reads, (Bool.and_eq_true_iff.1 hEntry).1, beq_self_eq_true]
          rfl
        rw [List.findIdx_cons, List.findIdx_cons, BodyWord.baseWord, hFirst,
          hNames _ (wanted_of_mem_firstReads hWord)]
        exact Nat.succ_pos _
      · rw [firstReads_cons_of_neg hEntry]
        exact hLater fun _ hName => reads_eq_false_of_wanted hName hEntry

/-- The names that a process does not assign and that can drive it. -/
def drives (scope : Scope) (process : HdlProcess) (name : String) : Bool :=
  ! (process.targets.map Word.base).contains name && scope.isDriver name

/-- The words that the loop keeps are the first of each text, which is how clocked signals are kept,
too. -/
theorem firsts_eq_firstByName (words : List Word) :
    (firsts words).entries.toList = firstByName words := by
  have hFold (seen : Words) : (words.foldl (fun seen word =>
      if seen.contains word.text then seen else seen.push word) seen).entries.toList =
        words.foldl addNamed seen.entries.toList := by
    induction words generalizing seen with
    | nil => rfl
    | cons word words ih =>
        rw [List.foldl_cons, ih, List.foldl_cons, addNamed, Words.contains, Array.any_toList]
        split
        · rfl
        · rw [Words.push, Array.toList_push]
  rw [firsts, hFold, firstByName_eq_foldl]

/-- The signals that a process reads, as they are computed, are the first reads of its body as they
are specified: by base name, in the order of the body. -/
theorem signalsRead_eq_firstReads :
    (signalsRead scope process).entries.toList =
      firstReads process.body.toList (drives scope process) := by
  rw [signalsRead, firsts_eq_firstByName, HdlProcess.reads, firstReads, List.filter_map,
    List.map_map, List.filter_filter]
  congr 2
  apply List.filter_congr
  intro entry _
  rw [isWanted, drives, Bool.and_comm]
  rfl

/-- The targets of a process are the names that its body assigns to, signals and variables alike. -/
theorem contains_targets_iff : (process.targets.map Word.base).contains name = true ↔
    ∃ entry ∈ process.body.toList,
      (entry.role = .target ∨ entry.role = .variableTarget) ∧ entry.word.base = name := by
  have hRole (role : Role) : role ≠ .read ↔ role = .target ∨ role = .variableTarget := by
    cases role <;> decide
  simp only [List.contains_iff_mem, HdlProcess.targets, List.map_map, List.mem_map, List.mem_filter,
    decide_eq_true_eq, hRole, Function.comp_apply, and_assoc]

/-- A name drives a process if the process does not assign it, under any role, and it is the name of
a signal or of a port that can be read. -/
theorem drives_iff : drives scope process name = true ↔
    (∀ entry ∈ process.body.toList,
      entry.role = .target ∨ entry.role = .variableTarget → entry.word.base ≠ name) ∧
    (scope.isSignal name = true ∨ scope.isReadablePort name = true) := by
  rw [drives, Bool.and_eq_true_iff, Bool.not_eq_true', ← Bool.not_eq_true, contains_targets_iff,
    Scope.isDriver, Bool.or_eq_true_iff]
  push Not
  exact Iff.rfl

/-- A process depends on the names that drive it and that some word of its body reads. -/
theorem dependsOn_iff : process.DependsOn scope name ↔
    drives scope process name = true ∧ ∃ entry ∈ process.body.toList, entry.reads name = true := by
  rw [drives_iff]
  simp only [BodyWord.reads, Bool.and_eq_true_iff, beq_iff_eq]
  exact ⟨fun ⟨read, unassigned, driver⟩ => ⟨⟨unassigned, driver⟩, read⟩,
    fun ⟨⟨unassigned, driver⟩, read⟩ => ⟨read, unassigned, driver⟩⟩

/-- The index of the first read is that of a word if there is one. -/
theorem exists_read_iff : (∃ entry ∈ process.body.toList, entry.reads name = true) ↔
    ∃ entry, process.body.toList[process.firstRead name]? = some entry := by
  rw [← List.findIdx_lt_length, HdlProcess.firstRead]
  exact ⟨fun h => ⟨_, List.getElem?_eq_getElem h⟩, fun ⟨_, h⟩ => (List.getElem?_eq_some_iff.1 h).1⟩

/-- The signals that are read are the names the process depends on, each at its first reading. -/
theorem mem_signalsRead : word ∈ (signalsRead scope process).entries.toList ↔
    process.DependsOn scope word.text ∧
      ∃ entry, process.body.toList[process.firstRead word.text]? = some entry ∧
        entry.word.span = word.span := by
  rw [signalsRead_eq_firstReads, mem_firstReads, dependsOn_iff, exists_read_iff]
  exact ⟨fun ⟨hDrives, entry, hFirst, hSpan⟩ => ⟨⟨hDrives, entry, hFirst⟩, entry, hFirst, hSpan⟩,
    fun ⟨⟨hDrives, _⟩, hFirst⟩ => ⟨hDrives, hFirst⟩⟩

/-- So a name is among the signals read exactly if the process depends on it. -/
theorem contains_signalsRead : (signalsRead scope process).contains name = true ↔
    process.DependsOn scope name := by
  simp only [Words.contains, ← Array.any_toList, List.any_eq_true, beq_iff_eq]
  constructor
  · rintro ⟨word, hMem, rfl⟩
    exact (mem_signalsRead.1 hMem).1
  · intro hDepends
    obtain ⟨entry, hFirst⟩ := exists_read_iff.1 (dependsOn_iff.1 hDepends).2
    exact ⟨⟨name, entry.word.span⟩, mem_signalsRead.2 ⟨hDepends, entry, hFirst, rfl⟩, rfl⟩

/-- What is reported is the report. -/
theorem isOf_check (scope : Scope) (process : HdlProcess) :
    (check scope process).IsOf scope process := by
  rw [check]
  split
  · next hExempt =>
    rw [Bool.or_eq_true_iff] at hExempt
    exact ⟨fun _ => rfl, fun h => absurd hExempt h, List.Pairwise.nil, fun h => absurd hExempt h⟩
  · next hExempt =>
    rw [Bool.or_eq_true_iff] at hExempt
    refine ⟨fun h => absurd h hExempt, fun _ word => ?_, ?_, fun _ => ?_⟩
    · rw [List.mem_filter, mem_signalsRead, Bool.not_eq_true', ← Bool.not_eq_true,
        List.contains_iff_mem, List.mem_map]
      push Not
      rw [and_right_comm, and_assoc]
    · refine List.Pairwise.filter _ ?_
      rw [signalsRead_eq_firstReads]
      exact pairwise_firstReads
    · apply List.filter_congr
      intro word _
      rw [Bool.eq_iff_iff, Bool.not_eq_true', ← Bool.not_eq_true, contains_signalsRead,
        decide_eq_true_eq]

/-- A report is the one that is given if and only if it says what a report is to say. -/
theorem check_eq_iff (scope : Scope) (process : HdlProcess) (report : Report) :
    check scope process = report ↔ report.IsOf scope process := by
  constructor
  · rintro rfl
    exact isOf_check scope process
  · exact (isOf_check scope process).unique

end Sensitivity

end HdlIndex

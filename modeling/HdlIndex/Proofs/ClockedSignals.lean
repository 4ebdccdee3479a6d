import HdlIndex.Design
import HdlIndex.Proofs.Symbols.Distinct
import HdlIndex.Proofs.Verilog.Turns
import HdlIndex.Proofs.Vhdl.Turns

/-! The clocked signals of a table agree with its processes. In VHDL they are recorded when a
process is closed, so that they are all that its targets and those of the earlier clocked processes
add up to. In Verilog an assignment records its targets while the block is open, and what is open is
closed in the end. -/
namespace HdlIndex

/-- The base names of the signals that the clocked processes drive, in order. -/
def clockedStems (processes : List HdlProcess) : List Word :=
  (processes.filter (·.clocked)).flatMap fun process => process.signalTargets.map Word.stem

namespace ClockedSignals

variable {signals : ClockedSignals} {conditions : List String}

/-- Recording a target again adds no second row for its name. -/
theorem nodup_record_stems (targets : List Word) (h : signals.names.Nodup) :
    (targets.foldl (fun signals target => signals.record target.stem conditions)
      signals).names.Nodup := by
  induction targets generalizing signals with
  | nil => exact h
  | cons target targets ih => exact ih (nodup_record h)

/-- A recorded word was there, or it is the stem of one of the targets. -/
theorem mem_words_record_stems {targets : List Word} {word : Word}
    (h : word ∈ (targets.foldl (fun signals target => signals.record target.stem conditions)
      signals).words) : word ∈ signals.words ∨ ∃ target ∈ targets, word = target.stem := by
  induction targets generalizing signals with
  | nil => exact .inl h
  | cons target targets ih =>
      rcases ih h with hMem | ⟨other, hOther, rfl⟩
      · rw [words_record, addNamed] at hMem
        split at hMem
        · exact .inl hMem
        · rcases List.mem_append.1 hMem with hMem | hMem
          · exact .inl hMem
          · exact .inr ⟨target, List.mem_cons_self, List.mem_singleton.1 hMem⟩
      · exact .inr ⟨other, List.mem_cons_of_mem _ hOther, rfl⟩

end ClockedSignals

namespace Vhdl

/-- The clocked signals are the first ones by name of those that the clocked processes drive. -/
structure Findings.Agrees (found : Findings) : Prop where
  distinct : found.clocked.names.Nodup
  words : found.clocked.words = firstByName (clockedStems found.processes.toList)

namespace Walk

variable {walk other : Walk} {here : Lexeme} {next : Option Lexeme}

/-- Closing a process adds the signals that it drives, if it is clocked. -/
theorem agrees_commitProcess (h : walk.found.Agrees) (process : HdlProcess) (offset : Nat) :
    (walk.commitProcess process offset).found.Agrees := by
  have hClocked : (walk.commitProcess process offset).found.clocked =
      if process.clocked then
        process.signalTargets.foldl
          (fun signals target => signals.record target.stem walk.conditions)
          walk.found.clocked
      else walk.found.clocked := rfl
  have hStems : clockedStems (walk.commitProcess process offset).found.processes.toList =
      clockedStems walk.found.processes.toList ++
        if process.clocked then process.signalTargets.map Word.stem else [] := by
    simp only [clockedStems, commitProcess, collect, note, HdlProcess.close, Array.toList_push,
      List.filter_append, List.flatMap_append, List.append_cancel_left_eq]
    cases process.clocked <;> simp [HdlProcess.signalTargets]
  constructor
  · rw [hClocked]
    split
    · exact ClockedSignals.nodup_record_stems _ h.distinct
    · exact h.distinct
  · rw [hStems, firstByName_eq_foldl, List.foldl_append, ← firstByName_eq_foldl,
      ← h.words, hClocked]
    split
    · exact ClockedSignals.words_record_stems _
    · rfl

theorem Keeps.agrees {word : Word} (h : walk.Keeps word other) (hFound : walk.found.Agrees) :
    other.found.Agrees := by
  obtain ⟨hDistinct, hWords⟩ := hFound
  rw [← h.clocked] at hDistinct hWords
  exact ⟨hDistinct, h.processes ▸ hWords⟩

/-- A step that closes a process records its targets with the process itself, so that both accounts
grow together. -/
theorem Turn.agrees (h : walk.Turn here next other) (hFound : walk.found.Agrees) :
    other.found.Agrees := by
  cases h with
  | keeps h => exact h.agrees hFound
  | opens h => exact hFound
  | grows h hContinues => exact hFound
  | closes h hNext => exact agrees_commitProcess hFound _ _

/-- A whole run keeps what each event keeps. The place has to list the processes that are open,
since an open one is recorded only at its end. -/
theorem agrees_run (events : List Event) (h : walk.found.Agrees) (hLists : walk.place.Lists) :
    (walk.run events).found.Agrees ∧ (walk.run events).place.Lists := by
  induction events generalizing walk with
  | nil => exact ⟨h, hLists⟩
  | cons event events ih =>
      cases event with
      | comment span => exact ih h hLists
      | filler token => exact ih h (lists_absorb hLists token)
      | word here before next =>
          have hTurn : (walk.note (.visited walk.place.region.name here.text)).Turn here next
              (walk.step (.word here before next)) := Turn.read hLists
          exact ih (hTurn.agrees h) hTurn.lists

theorem agrees_start (region : Region) : (Walk.start region).found.Agrees := by
  have hEmpty : Findings.Agrees {} := ⟨List.nodup_nil, rfl⟩
  rw [Walk.start]
  split <;> exact hEmpty

theorem agrees_finish (h : walk.found.Agrees) (hLists : walk.place.Lists) (size : Nat) :
    (walk.finish size).found.Agrees := by
  obtain ⟨ended, hKeeps, hFinish⟩ := finish_eq hLists size (.absent size)
  rw [hFinish]
  split
  · exact agrees_commitProcess (hKeeps.agrees h) _ _
  · exact hKeeps.agrees h

end Walk

/-- In VHDL the clocked signals of a text are the targets of its clocked processes, in the order in
which these first name them. -/
theorem scan_agrees (region : Region) (limit : Option Nat) (text : String) :
    (scan region limit text).table.toFindings.Agrees := by
  have hRun := Walk.agrees_run (readEvents text.utf8ByteSize (tokens limit text).list)
    (Walk.agrees_start region) (Walk.lists_start region)
  have hFound := Walk.agrees_finish hRun.1 hRun.2 text.utf8ByteSize
  exact ⟨hFound.distinct, hFound.words⟩

end Vhdl

namespace Verilog

/-- The names of clocked signals are distinct, and each one is the base name of a signal that one of
the clocked blocks drives. -/
structure Findings.Drives (found : Findings) (blocks : List HdlProcess) : Prop where
  distinct : found.clocked.names.Nodup
  driven : ∀ signal ∈ found.clocked.words, ∃ process ∈ blocks, process.clocked = true ∧
    ∃ target ∈ process.signalTargets, signal = target.stem

/-- Blocks may give way to others that are clocked and drive signals as they do. -/
theorem Findings.Drives.mono {found : Findings} {blocks others : List HdlProcess}
    (h : found.Drives blocks)
    (hOthers : ∀ process ∈ blocks, ∃ other ∈ others,
      (process.clocked = true → other.clocked = true) ∧
      ∀ target ∈ process.signalTargets, target ∈ other.signalTargets) : found.Drives others where
  distinct := h.distinct
  driven signal hSignal := by
    obtain ⟨process, hProcess, hEdge, target, hTarget, rfl⟩ := h.driven signal hSignal
    obtain ⟨other, hOther, hClocked, hTargets⟩ := hOthers process hProcess
    exact ⟨other, hOther, hClocked hEdge, target, hTargets target hTarget, rfl⟩

namespace Walk

variable {walk other : Walk} {here : Lexeme} {next : Option Lexeme}

theorem Keeps.drives (h : walk.Keeps other) (hFound : walk.found.Drives walk.ledger.blocks) :
    other.found.Drives other.ledger.blocks := by
  have hBlocks : other.ledger = walk.ledger := by
    rw [Walk.ledger, h.processes, h.current, Walk.ledger]
  obtain ⟨hDistinct, hDriven⟩ := hFound
  rw [← h.clocked] at hDistinct hDriven
  exact ⟨hDistinct, hBlocks ▸ hDriven⟩

/-- A closed block drives what it drove when it was open. -/
theorem drives_close {found : Findings} {process : HdlProcess} {closed : List HdlProcess}
    (h : found.Drives (closed ++ [process])) (offset : Nat) :
    found.Drives (closed ++ [process.close offset]) := by
  refine h.mono fun driver hDriver => ?_
  rcases List.mem_append.1 hDriver with hDriver | hDriver
  · exact ⟨driver, List.mem_append_left _ hDriver, id, fun _ => id⟩
  · obtain rfl := List.mem_singleton.1 hDriver
    exact ⟨driver.close offset, by simp, id, fun _ => id⟩

/-- A block that is open goes on to drive what it drives, and what is recorded is driven by it. -/
theorem Turn.drives (h : walk.Turn here other) (hFound : walk.found.Drives walk.ledger.blocks) :
    other.found.Drives other.ledger.blocks := by
  cases h with
  | keeps h => exact h.drives hFound
  | opens h hOpens =>
      have hSame : other.found.Drives walk.ledger.blocks := by
        obtain ⟨hDistinct, hDriven⟩ := hFound
        rw [← hOpens.clocked] at hDistinct hDriven
        exact ⟨hDistinct, hDriven⟩
      refine hSame.mono fun driver hDriver => ⟨driver, ?_, id, fun _ => id⟩
      rw [ledger, Ledger.blocks, h] at hDriver
      rw [ledger, Ledger.blocks, hOpens.processes]
      exact List.mem_append_left _ (by simpa using hDriver)
  | @grows process next _ h hGrows =>
      obtain ⟨targets, conditions, hClocked, hEdge, hTargets⟩ := hGrows.clocked
      have hGone : walk.found.Drives other.ledger.blocks := by
        refine hFound.mono fun driver hDriver => ?_
        rw [ledger, Ledger.blocks, h] at hDriver
        rw [ledger, Ledger.blocks, hGrows.processes, hGrows.current]
        rcases List.mem_append.1 hDriver with hDriver | hDriver
        · exact ⟨driver, List.mem_append_left _ hDriver, id, fun _ => id⟩
        · obtain rfl : driver = process := by simpa using hDriver
          exact ⟨next, by simp, hGrows.continues.clocked, hGrows.targets⟩
      refine ⟨hClocked ▸ ClockedSignals.nodup_record_stems _ hGone.distinct,
        fun signal hSignal => ?_⟩
      rw [hClocked] at hSignal
      rcases ClockedSignals.mem_words_record_stems hSignal with hKnown | ⟨target, hTarget, rfl⟩
      · exact hGone.driven signal hKnown
      · have hOpen : next ∈ other.ledger.blocks := by simp [ledger, Ledger.blocks, hGrows.current]
        exact ⟨next, hOpen, hEdge (List.ne_nil_of_mem hTarget), target,
          hTargets target hTarget, rfl⟩
  | @closes process _ h hCloses =>
      have hSame : other.found.Drives walk.ledger.blocks := by
        obtain ⟨hDistinct, hDriven⟩ := hFound
        rw [← hCloses.clocked] at hDistinct hDriven
        exact ⟨hDistinct, hDriven⟩
      rw [ledger, Ledger.blocks, h] at hSame
      rw [ledger, Ledger.blocks, hCloses.current, hCloses.processes]
      simpa using drives_close hSame here.span.stop

/-- A signal that is recorded as clocked is driven by a block of the ledger, open or closed, all
along a run. -/
theorem drives_run (events : List Event) (h : walk.found.Drives walk.ledger.blocks)
    (hSound : walk.place.Sound) :
    (walk.run events).found.Drives (walk.run events).ledger.blocks ∧
    (walk.run events).place.Sound := by
  induction events generalizing walk with
  | nil => exact ⟨h, hSound⟩
  | cons event events ih =>
      cases event with
      | comment span => exact ih h hSound
      | directive span => exact ih h hSound
      | filler token =>
          refine ih ?_ (sound_absorb hSound token)
          rw [ledger, step, process?_absorb]
          exact h
      | word here next =>
          have hTurn : walk.Turn here (walk.step (.word here next)) := Turn.readWord hSound
          exact ih (hTurn.drives h) hTurn.sound
      | ended offset =>
          have hKeeps : walk.Keeps (walk.step (.ended offset)) := Keeps.flushAt hSound offset
          exact ih (hKeeps.drives h) hKeeps.sound

theorem drives_start (region : Region) :
    (Walk.start region).found.Drives (Walk.start region).ledger.blocks := by
  have hEmpty : ∀ blocks, Findings.Drives {} blocks := fun _ =>
    ⟨List.nodup_nil, by simp [ClockedSignals.words]⟩
  rw [Walk.start]
  split <;> exact hEmpty _

/-- The end of the text closes the block that is open, so there are only closed blocks left to drive
a signal. -/
theorem drives_finish (h : walk.found.Drives walk.ledger.blocks) (hSound : walk.place.Sound)
    (size : Nat) : (walk.finish size).found.Drives (walk.finish size).found.processes.toList := by
  have hEnd := (Keeps.flushAt hSound size).drives h
  rw [ledger, Ledger.blocks] at hEnd
  unfold Walk.finish
  dsimp only
  split
  · next process hProcess =>
    rw [hProcess] at hEnd
    rw [commitProcess]
    dsimp only [collect, note]
    rw [Array.toList_push]
    exact ⟨hEnd.distinct, (drives_close hEnd size).driven⟩
  · next hNone => simpa [hNone] using hEnd

end Walk

/-- In Verilog every clocked signal is named once, and is a target of a clocked block. -/
theorem scan_drives (region : Region) (limit : Option Nat) (text : String) :
    (scan region limit text).table.Drives (scan region limit text).table.processes.toList := by
  have hRun := Walk.drives_run (readEvents text.utf8ByteSize (tokens limit text).list)
    (Walk.drives_start region) (Walk.sound_start region)
  have hFound := Walk.drives_finish hRun.1 hRun.2 text.utf8ByteSize
  exact ⟨hFound.distinct, hFound.driven⟩

end Verilog

/-- The clocked signals are those that the clocked processes account for: in VHDL all that they
drive, the first one of each name, and in Verilog some of them. -/
def Design.ClockedAgree : Design → Prop
  | .vhdl table => table.clocked.words = firstByName (clockedStems table.processes.toList)
  | .verilog table => ∀ signal ∈ table.clocked.words, ∃ process ∈ table.processes.toList,
      process.clocked = true ∧ ∃ target ∈ process.signalTargets, signal = target.stem

/-- The clocked signals of every text have distinct names and one list of conditions each, and they
agree with the processes. -/
theorem scan_clockedAgree (start : Start) (limit : Option Nat) (text : String) :
    (scan start limit text).design.clocked.IsIndexed ∧
    (scan start limit text).design.ClockedAgree := by
  cases start with
  | vhdl region =>
      have hAgrees := Vhdl.scan_agrees region limit text
      exact ⟨ClockedSignals.isIndexed_of_nodup hAgrees.distinct, hAgrees.words⟩
  | verilog region =>
      have hDrives := Verilog.scan_drives region limit text
      exact ⟨ClockedSignals.isIndexed_of_nodup hDrives.distinct, hDrives.driven⟩

end HdlIndex

import HdlIndex.Proofs.ClockedSignals
import HdlIndex.Proofs.ProcessBlocks
import HdlIndex.Proofs.Vhdl.ProcessOrder
import HdlIndex.Proofs.Vhdl.StatementGathering
import HdlIndex.Proofs.Vhdl.StatementWords
import Mathlib.Data.List.Flatten

/-! The names of a VHDL table in the order of the text, and labels between instances and processes.
A label is taken once: by the instance that is recorded under it, or by the process that begins at
it. -/
namespace HdlIndex

namespace Vhdl

/-- The words of events. -/
def readWords (events : List Event) : List Word := (events.filterMap Event.word?).map Lexeme.word

/-- The words of events that follow an offset follow it as well. -/
theorem Follows.readWords {offset stop : Nat} {events : List Event}
    (h : Follows offset events stop) : Word.Follow offset (readWords events) stop := by
  induction events generalizing offset with
  | nil => exact h
  | cons event events ih =>
      cases event with
      | comment span => exact ih h
      | filler token => exact ih h
      | word here before next =>
          obtain ⟨hBehind, hText, -, hRest⟩ := h
          exact ⟨hBehind, hText, ih hRest⟩

namespace Category

/-- The package of a selected name is a part of it that stands behind its first point. -/
theorem within_of_selectedPackage? {selected package : Word}
    (h : Walk.selectedPackage? selected = some package)
    (hSize : selected.span.stop = selected.span.start + selected.text.utf8ByteSize) :
    selected.span.start < package.span.start ∧ package.span.start ≤ package.span.stop ∧
      package.span.stop ≤ selected.span.stop := by
  have hPart : package.IsPartOf selected := fun P hP hSelected =>
    Walk.All.selectedPackage? hP hSelected h
  obtain ⟨-, hOrder, hStop⟩ := hPart.within hSize
  refine ⟨?_, hOrder, hStop⟩
  rw [Walk.selectedPackage?] at h
  split at h
  · cases h
  · dsimp only at h
    split at h
    · cases h
    · cases h
      show selected.span.start < selected.span.start + _ + 1
      omega

/-- What words that are in order can add to a category is in order. -/
theorem areInOrder_filterMap_part? {words : List Word} (category : Category)
    (h : Word.AreInOrder words)
    (hSizes : ∀ word ∈ words, word.span.stop = word.span.start + word.text.utf8ByteSize) :
    Word.AreInOrder (words.filterMap category.part?) := by
  cases category with
  | usedPackages =>
      exact h.filterMap fun word hMem part hPart =>
        within_of_selectedPackage? hPart (hSizes word hMem)
  | _ => simpa only [Category.part?, List.filterMap_some] using h

end Category

namespace Walk

variable {walk other : Walk} {here : Lexeme} {next : Option Lexeme} {events : List Event}
  {offset stop size : Nat}

/-- What a walk has of a category is taken from the words that it reads. -/
theorem trail_run (walk : Walk) (events : List Event) (category : Category) :
    ((walk.run events).trail category).Sublist
      (walk.trail category ++ (readWords events).filterMap category.part?) := by
  induction events generalizing walk with
  | nil => exact List.sublist_append_left _ _
  | cons event events ih =>
      cases event with
      | comment span => exact ih walk
      | filler token =>
          have hSame : (walk.step (.filler token)).trail category = walk.trail category := by
            have hType : (walk.place.absorb token).type? = walk.place.type? := by
              cases walk.place <;> rfl
            rw [trail, trail, step, Place.held, Place.held, hType]
          have hRest := ih (walk.step (.filler token))
          rw [hSame] at hRest
          exact hRest
      | word here before next =>
          have hStep := (Gathers.read (walk.note (.visited walk.place.region.name here.text)) here
            before next).trail category
          have hCons : (readWords (.word here before next :: events)).filterMap category.part? =
              (category.part? here.word).toList ++ (readWords events).filterMap category.part? := by
            show (here.word :: readWords events).filterMap category.part? = _
            rw [List.filterMap_cons]
            split <;> simp [*]
          rw [hCons, ← List.append_assoc]
          exact (ih _).trans (hStep.append (List.Sublist.refl _))

/-- The end of the text adds no name. -/
theorem sameNames_finish (walk : Walk) (size : Nat) :
    walk.found.SameNames (walk.finish size).found := by
  have hFlushed : walk.found.SameNames (walk.flushed size).found := by
    rw [flushed]
    cases walk.place with
    | interfaceDeclaration list element => exact sameNames_closeList list element size
    | objectDeclaration kind home element => exact sameNames_completeObject kind element
    | _ => exact ⟨fun _ => rfl, rfl, rfl⟩
  exact finish_of_flushed (P := (walk.found.SameNames ·.found)) hFlushed fun _ _ =>
    ⟨hFlushed.entries, hFlushed.instances, hFlushed.labels⟩

/-- The instances are in the order of the text, and none of their labels is that of a process. -/
structure Named (offset : Nat) (walk : Walk) : Prop where
  naming : walk.naming.Ordered offset
  apart : ∀ entry ∈ walk.found.instances.toList, ∀ process ∈ walk.ledger.blocks,
    process.label ≠ none → process.span.start ≠ entry.label.span.start

/-- A label that waits is behind all processes. -/
theorem Ordered.start_lt_label {label : Word} (h : walk.Ordered offset)
    (hLabel : walk.label = some label) :
    ∀ process ∈ walk.ledger.blocks, process.span.start < label.span.start := by
  have hNone : walk.place.process? = none := by
    rw [← Option.not_isSome_iff_eq_none]
    intro hOpen
    simp [h.free hOpen] at hLabel
  intro process hMem
  rw [Ledger.blocks, Walk.ledger, hNone, Option.toList_none, List.append_nil] at hMem
  exact (h.ledger.ended process hMem).1.trans_le ((h.begins label (.inl hLabel)).2 process hMem)

/-- A label that waits is behind all instances. -/
theorem Named.label_lt_label {label : Word} (h : walk.Named offset)
    (hLabel : walk.label = some label) :
    ∀ entry ∈ walk.found.instances.toList, entry.label.span.start < label.span.start := by
  intro entry hMem
  have hUsed : Word.AreInOrder (walk.naming.instances.map (·.label) ++ walk.naming.label.toList) :=
    (h.naming.labels.sublist (List.sublist_append_left _ _)).sublist h.naming.used
  have hWaits : walk.naming.label = some label := hLabel
  rw [hWaits, Word.AreInOrder, List.pairwise_append] at hUsed
  exact (hUsed.2.2 _ (List.mem_map_of_mem hMem) label (by simp)).start

/-- An instance is there, or it takes the label that waits. -/
theorem mem_instances (h : walk.Gathers here.word other) {entry : Instance}
    (hMem : entry ∈ other.found.instances.toList) :
    entry ∈ walk.found.instances.toList ∨ walk.label = some entry.label := by
  have hNaming := h.naming
  have hOther : entry ∈ other.naming.instances := hMem
  generalize other.naming = naming at hNaming hOther
  cases hNaming with
  | stays => exact .inl hOther
  | goes hLabel hFirst hUnit => exact .inl hOther
  | takes hFirst => exact .inl hOther
  | commits library hLabel hUnit =>
      rcases List.mem_append.1 hOther with hOld | hNew
      · exact .inl hOld
      · obtain rfl := List.mem_singleton.1 hNew
        exact .inr hLabel

/-- The blocks behind a word that opens none are those in front of it, as far as their labels and
their starts go. -/
theorem apart_of_origins {entry : Instance} {blocks others : List HdlProcess}
    (hOrigins : others.map (·.origin) = blocks.map (·.origin))
    (h : ∀ process ∈ blocks, process.label ≠ none → process.span.start ≠ entry.label.span.start) :
    ∀ process ∈ others, process.label ≠ none → process.span.start ≠ entry.label.span.start := by
  intro process hMem
  have hOrigin : process.origin ∈ blocks.map (·.origin) := hOrigins ▸ List.mem_map_of_mem hMem
  obtain ⟨other, hOther, hSame⟩ := List.mem_map.1 hOrigin
  have hLabel : other.label = process.label := congrArg Prod.fst hSame
  have hStart : other.span.start = process.span.start := congrArg Prod.snd hSame
  rw [← hLabel, ← hStart]
  exact h other hOther

/-- A word keeps labels apart: a process begins at the label that waits, and an instance takes
it. -/
theorem Turn.apart (hTurn : walk.Turn here next other) (hGathers : walk.Gathers here.word other)
    (hOrdered : walk.Ordered offset) (h : walk.Named offset) :
    ∀ entry ∈ other.found.instances.toList, ∀ process ∈ other.ledger.blocks,
      process.label ≠ none → process.span.start ≠ entry.label.span.start := by
  have hOld : ∀ entry ∈ other.found.instances.toList, ∀ process ∈ walk.ledger.blocks,
      process.label ≠ none → process.span.start ≠ entry.label.span.start := by
    intro entry hMem process hProcess hLabelled
    rcases mem_instances hGathers hMem with hKnown | hLabel
    · exact h.apart entry hKnown process hProcess hLabelled
    · exact (hOrdered.start_lt_label hLabel process hProcess).ne
  have hOrigins := hTurn.ledgerStep.origins
  intro entry hMem
  cases hTurn with
  | keeps hKeeps => exact hKeeps.ledger ▸ hOld entry hMem
  | opens hNone =>
      have hBlocks : (walk.beginProcess here).ledger.blocks = walk.ledger.blocks ++
          [HdlProcess.starting (walk.label.map (·.text))
            ((walk.label.map (·.span.start)).getD here.span.start)] := by
        rw [Ledger.blocks, Ledger.blocks, ledger, ledger, hNone]
        simp [beginProcess, Place.process?]
      rw [hBlocks, List.forall_mem_append]
      refine ⟨hOld entry hMem, fun process hProcess hLabelled => ?_⟩
      obtain rfl := List.mem_singleton.1 hProcess
      cases hLabel : walk.label with
      | none => simp [HdlProcess.starting, hLabel] at hLabelled
      | some label => exact (h.label_lt_label hLabel entry hMem).ne'
  | grows hOpen hContinues hPlace hFirst hLists =>
      have hSome : walk.ledger.current.isNone = false := by simp [ledger, hOpen]
      rw [hSome, if_neg Bool.false_ne_true, List.append_nil] at hOrigins
      exact apart_of_origins hOrigins (hOld entry hMem)
  | closes hOpen hNext =>
      have hSome : walk.ledger.current.isNone = false := by simp [ledger, hOpen]
      rw [hSome, if_neg Bool.false_ne_true, List.append_nil] at hOrigins
      exact apart_of_origins hOrigins (hOld entry hMem)

/-- What is in order up to an offset is so up to a later one. -/
theorem Named.advance {later : Nat} (h : walk.Named offset) (hLater : offset ≤ later) :
    walk.Named later where
  naming := { h.naming with
    texts := fun word hMem =>
      ⟨(h.naming.texts word hMem).1, (h.naming.texts word hMem).2.trans hLater⟩
    ends := fun word hMem =>
      ⟨(h.naming.ends word hMem).1, (h.naming.ends word hMem).2.trans hLater⟩ }
  apart := h.apart

theorem Named.of_eq (h : walk.Named offset) (hNaming : other.naming = walk.naming)
    (hLedger : other.ledger = walk.ledger) : other.Named offset where
  naming := hNaming ▸ h.naming
  apart := by
    have hInstances : other.found.instances.toList = walk.found.instances.toList :=
      congrArg Naming.instances hNaming
    rw [hInstances, hLedger]
    exact h.apart

/-- A word keeps labels and instances in order up to its end. -/
theorem named_word {before : Option Lexeme}
    (hFollows : Follows offset (.word here before next :: events) stop)
    (hSize : here.word.span.stop = here.word.span.start + here.word.text.utf8ByteSize)
    (hProcesses : walk.Ordered offset ∨ walk.Awaits (.word here before next :: events))
    (h : walk.Named offset) : (walk.step (.word here before next)).Named here.span.stop := by
  obtain ⟨hBehind, hText, -⟩ := hFollows
  have hNoted : (walk.note (.visited walk.place.region.name here.text)).Named offset :=
    h.of_eq rfl rfl
  have hGathers :=
    Gathers.read (walk.note (.visited walk.place.region.name here.text)) here before next
  rcases hProcesses with hOrdered | hAwaits
  · have hOrder := hOrdered.note (.visited walk.place.region.name here.text)
    exact ⟨hGathers.naming.ordered hNoted.naming hBehind hText hSize,
      Turn.apart (Turn.read hOrder.lists) hGathers hOrder hNoted⟩
  · obtain ⟨hSame, -⟩ := (hAwaits.note (.visited walk.place.region.name here.text)).read
    rw [step, hSame]
    exact hNoted.advance (hBehind.trans hText.le)

/-- Words that follow each other keep labels and instances in order and apart from processes. -/
theorem named_run (hFollows : Follows offset events stop)
    (hSizes : ∀ word ∈ readWords events, word.span.stop = word.span.start + word.text.utf8ByteSize)
    (hProcesses : walk.Ordered offset ∨ walk.Awaits events) (h : walk.Named offset) :
    (walk.run events).Named stop := by
  induction events generalizing walk offset with
  | nil => exact h.advance hFollows
  | cons event events ih =>
      cases event with
      | comment span => exact ih hFollows hSizes hProcesses h
      | filler token =>
          have hNaming : (walk.step (.filler token)).naming = walk.naming := by
            have hPlace : (walk.place.absorb token).first? = walk.place.first? ∧
                (walk.place.absorb token).unit? = walk.place.unit? := by
              cases walk.place <;> exact ⟨rfl, rfl⟩
            rw [naming, step, hPlace.1, hPlace.2, naming]
          have hLedger : (walk.step (.filler token)).ledger = walk.ledger := by
            rw [ledger, step, process?_absorb, ledger]
          exact ih hFollows hSizes (ordered_filler token hProcesses) (h.of_eq hNaming hLedger)
      | word here before next =>
          have hWords : readWords (.word here before next :: events) = here.word ::
              readWords events := rfl
          rw [hWords, List.forall_mem_cons] at hSizes
          exact ih hFollows.2.2.2 hSizes.2 (ordered_word hFollows hProcesses)
            (named_word hFollows hSizes.1 hProcesses h)

theorem named_start (region : Region) : (Walk.start region).Named 0 := by
  cases region <;> exact ⟨Naming.ordered_empty 0, by simp [Walk.start, Place.ofEntry?]⟩

end Walk

end Vhdl

section Tables

/-- The words of closed blocks are in order, block by block. -/
theorem Ledger.Ordered.areInOrder_words {offset : Nat} {ledger : Ledger}
    (h : ledger.Ordered offset) : Word.AreInOrder (ledger.closed.flatMap (·.words)) := by
  refine List.pairwise_flatMap.2 ⟨fun block hMem => (h.ordered block hMem).words, ?_⟩
  refine h.apart.imp_of_mem fun {block other} hBlock hOther hBefore word hWord next hNext => ?_
  have hText := h.texts block hBlock word hWord
  have hStop := ((h.ordered block hBlock).within word hWord).2
  have hStart := ((h.ordered other hOther).within next hNext).1
  have hApart := hBefore.stop
  exact ⟨by omega, by omega⟩

theorem HdlProcess.signalTargets_sublist (process : HdlProcess) :
    process.signalTargets.Sublist process.words :=
  (List.filter_sublist.map _).trans (List.sublist_append_right _ _)

/-- What the clocked blocks drive is in the order of the blocks' words. -/
theorem areInOrder_clockedStems {blocks : List HdlProcess}
    (h : Word.AreInOrder (blocks.flatMap (·.words)))
    (hSizes : ∀ block ∈ blocks, ∀ word ∈ block.words,
      word.span.stop = word.span.start + word.text.utf8ByteSize) :
    Word.AreInOrder (clockedStems blocks) := by
  have hTargets : ((blocks.filter (·.clocked)).flatMap (·.signalTargets)).Sublist
      (blocks.flatMap (·.words)) :=
    (List.Sublist.flatMap_right _ fun block _ => block.signalTargets_sublist).trans
      (List.filter_sublist.flatMap _)
  have hStems : clockedStems blocks =
      ((blocks.filter (·.clocked)).flatMap (·.signalTargets)).map Word.stem := by
    rw [clockedStems, List.map_flatMap]
  rw [hStems]
  refine (h.sublist hTargets).stems fun word hMem => ?_
  obtain ⟨block, hBlock, hWord⟩ := List.mem_flatMap.1 (hTargets.subset hMem)
  exact hSizes block hBlock word hWord

namespace Vhdl

variable (region : Region) (limit : Option Nat) (text : String)

/-- Words are as long as their texts, as they are tokens of the text that is read. -/
theorem size_of_mem_readWords {word : Word}
    (hMem : word ∈ readWords (readEvents text.utf8ByteSize (tokens limit text).list)) :
    word.span.stop = word.span.start + word.text.utf8ByteSize := by
  obtain ⟨lexeme, hLexeme, rfl⟩ := List.mem_map.1 hMem
  obtain ⟨event, hEvent, hWord⟩ := List.mem_filterMap.1 hLexeme
  have hStands := events_standIn limit text event hEvent
  cases event with
  | word here before next =>
      obtain rfl := Option.some.inj hWord
      exact (standsIn_inherited _).stop_eq hStands.1
  | _ => cases hWord

/-- A table has the names that its walk has behind the words of the text. -/
theorem sameNames_scan :
    ((Walk.start region).run
      (readEvents text.utf8ByteSize (tokens limit text).list)).found.SameNames
        (scan region limit text).table.toFindings := by
  have hFinish := ((Walk.start region).run
    (readEvents text.utf8ByteSize (tokens limit text).list)).sameNames_finish text.utf8ByteSize
  have hAlign := Findings.SameNames.align
    (walkThrough region
      (readEvents text.utf8ByteSize (tokens limit text).list) text.utf8ByteSize).found
  exact ⟨fun category => (hAlign.entries category).trans (hFinish.entries category),
    hAlign.instances.trans hFinish.instances, hAlign.labels.trans hFinish.labels⟩

/-- The words of one category stand in the order of the text. -/
theorem scan_entries (category : Category) :
    Word.AreInOrder ((scan region limit text).table.entries category) := by
  have hFollow := (follows_readEvents limit text text.utf8ByteSize).readWords
  have hRun := Walk.trail_run (Walk.start region)
    (readEvents text.utf8ByteSize (tokens limit text).list) category
  have hStart : (Walk.start region).trail category = [] := by
    cases region <;> cases category <;> rfl
  rw [hStart, List.nil_append] at hRun
  rw [(sameNames_scan region limit text).entries]
  refine (category.areInOrder_filterMap_part? hFollow.areInOrder fun word hMem =>
    size_of_mem_readWords limit text hMem).sublist ?_
  exact (List.sublist_append_left _ _).trans hRun

/-- Clocked signals stand in the order of the targets that they were first recorded for. -/
theorem scan_clocked : Word.AreInOrder (scan region limit text).table.clocked.words := by
  have hBlocks := (scan_ordered region limit text).1.areInOrder_words
  have hStands := (scan_standsIn region limit text).processes
  rw [(scan_agrees region limit text).words]
  refine (areInOrder_clockedStems hBlocks fun block hBlock word hWord => ?_).sublist
    (firstByName_sublist _)
  exact (standsIn_inherited _).stop_eq ((hStands block (by simpa using hBlock)).words word hWord)

/-- An entry of the label list labels a process that begins at it and has its name. -/
def Labels (label : Word) (process : HdlProcess) : Prop :=
  process.label = some label.text ∧ process.span.start = label.span.start

/-- Labels and instances of a table: they are in the order of the text, the instances are recorded
under some of the labels, and no label is both that of an instance and that of a process. -/
structure Table.IsNamed (table : Table) : Prop where
  labels : Word.AreInOrder table.labels.entries.toList
  units : Word.AreInOrder (table.instances.toList.map (·.unit))
  used : (table.instances.toList.map (·.label)).Sublist table.labels.entries.toList
  once : ∀ label ∈ table.labels.entries, ¬ ((∃ entry ∈ table.instances, entry.label = label) ∧
    ∃ process ∈ table.processes, Labels label process)

/-- Labels and components stand in the order of the text, and a label names an instance or a
process, but never both. -/
theorem scan_isNamed : (scan region limit text).table.IsNamed := by
  have hFollows := follows_readEvents limit text text.utf8ByteSize
  have hNamed := Walk.named_run hFollows (fun word => size_of_mem_readWords limit text)
    (.inl (Walk.ordered_start region)) (Walk.named_start region)
  have hSame := sameNames_scan region limit text
  -- The end of the text closes a process, but it opens none.
  have hOrigins := (scan_ordered region limit text).2.origins
  rw [Option.toList_none, ite_self, List.append_nil] at hOrigins
  have hLabels := congrArg (·.entries.toList) hSame.labels
  have hInstances := congrArg Array.toList hSame.instances
  constructor
  · rw [hLabels]
    exact hNamed.naming.labels.sublist (List.sublist_append_left _ _)
  · rw [hInstances]
    exact hNamed.naming.units
  · rw [hInstances, hLabels]
    exact (List.sublist_append_left _ _).trans hNamed.naming.used
  · rintro label - ⟨⟨entry, hEntry, rfl⟩, process, hProcess, hLabel, hStart⟩
    rw [hSame.instances, ← Array.mem_toList_iff] at hEntry
    refine Walk.apart_of_origins hOrigins (hNamed.apart entry hEntry) process ?_ ?_ hStart
    · simpa [Ledger.blocks] using hProcess
    · simp [hLabel]

/-- Each category of names is in the order of the text. -/
theorem areInOrder_fields :
    ∀ field ∈ (scan region limit text).table.fields, Word.AreInOrder field.2 := by
  have hEntries := scan_entries region limit text
  have hNamed := scan_isNamed region limit text
  have hInstances := hNamed.labels.sublist hNamed.used
  simp only [Findings.fields, List.forall_mem_cons]
  exact ⟨hEntries .entities, hEntries .architectures, hEntries .architectureEntities,
    hEntries .packages, hEntries .libraries, hEntries .usedPackages, hEntries .components,
    hEntries .subprograms, hEntries .types, scan_clocked region limit text, hInstances,
    hNamed.units, hNamed.labels, by simp⟩

/-- The names of every list stand in the order of the text. -/
theorem areInOrder_lists :
    ∀ list ∈ (scan region limit text).table.lists, Word.AreInOrder list.2.names := by
  have hEntries := scan_entries region limit text
  simp only [Findings.lists, List.forall_mem_cons]
  exact ⟨hEntries .ports, hEntries .generics, hEntries .objects, hEntries .componentPorts,
    hEntries .componentGenerics, hEntries .parameters, by simp⟩

end Vhdl

end Tables

end HdlIndex

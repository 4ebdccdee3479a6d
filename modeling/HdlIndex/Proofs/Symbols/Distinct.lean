import HdlIndex.Proofs.Symbols.Moved
import HdlIndex.Symbols.HdlProcess
import Mathlib.Data.List.Nodup

/-! Clocked signals are recorded by name, and the first record of a name counts. Recording words one
after the other therefore keeps the first word of each name, with the conditions that were in force
when it was recorded. -/
namespace HdlIndex

section Names

/-- The words without those that an earlier one has the name of. -/
def firstByName (words : List Word) : List Word :=
  words.eraseDupsBy fun word earlier => word.text == earlier.text

/-- Adds a word, unless one of that name is there. -/
def addNamed (known : List Word) (word : Word) : List Word :=
  if known.any (·.text == word.text) then known else known ++ [word]

/-- Adding words to known ones adds the first word of each name that is not known yet. -/
theorem foldl_addNamed (known words : List Word) :
    words.foldl addNamed known =
      known ++ firstByName (words.filter fun word => ! known.any (·.text == word.text)) := by
  induction words generalizing known with
  | nil => simp [firstByName]
  | cons word words ih =>
      rw [List.foldl_cons, ih, addNamed]
      cases hKnown : known.any (·.text == word.text) with
      | true => rw [if_pos rfl, List.filter_cons_of_neg (by simp [hKnown])]
      | false =>
          rw [if_neg (by simp), List.filter_cons_of_pos (by simp [hKnown]), firstByName,
            firstByName, List.eraseDupsBy_cons, List.filter_filter, List.append_assoc,
            List.singleton_append]
          congr 3
          apply List.filter_congr
          intro other _
          rw [List.any_append, Bool.not_or, Bool.and_comm]
          rw [List.any_cons, List.any_nil, Bool.or_false, BEq.comm]
          cases other.text == word.text <;> rfl

theorem firstByName_eq_foldl (words : List Word) : firstByName words = words.foldl addNamed [] := by
  rw [foldl_addNamed]
  simp

/-- Words are left out, and none changes its place. -/
theorem foldl_addNamed_sublist (known words : List Word) :
    (words.foldl addNamed known).Sublist (known ++ words) := by
  induction words generalizing known with
  | nil => simp
  | cons word words ih =>
      refine (ih (addNamed known word)).trans ?_
      rw [addNamed]
      split
      · exact (List.Sublist.refl _).append (List.sublist_cons_self _ _)
      · rw [List.append_assoc]
        exact List.Sublist.refl _

theorem firstByName_sublist (words : List Word) : (firstByName words).Sublist words := by
  rw [firstByName_eq_foldl]
  exact foldl_addNamed_sublist [] words

/-- Words of known names add nothing. -/
theorem foldl_addNamed_of_known {known words : List Word}
    (h : ∀ word ∈ words, known.any (·.text == word.text) = true) :
    words.foldl addNamed known = known := by
  induction words with
  | nil => rfl
  | cons word words ih =>
      rw [List.forall_mem_cons] at h
      rw [List.foldl_cons, addNamed, if_pos h.1, ih h.2]

/-- The names that were known, and those that are added, are known. -/
theorem any_foldl_addNamed {known words : List Word} {name : String}
    (h : known.any (·.text == name) = true ∨ ∃ word ∈ words, word.text = name) :
    (words.foldl addNamed known).any (·.text == name) = true := by
  induction words generalizing known with
  | nil => simpa using h
  | cons word words ih =>
      refine ih ?_
      rcases h with hKnown | ⟨other, hMem, hName⟩
      · refine .inl ?_
        rw [addNamed]
        split
        · exact hKnown
        · simp [hKnown]
      · rcases List.mem_cons.1 hMem with rfl | hMem
        · refine .inl ?_
          rw [addNamed]
          split
          · next hThere => exact hName ▸ hThere
          · simp [hName]
        · exact .inr ⟨other, hMem, hName⟩

/-- No two clocked signals have one name, and each name leads to its one list of conditions. -/
structure ClockedSignals.IsIndexed (signals : ClockedSignals) : Prop where
  distinct : signals.names.Nodup
  columns : signals.conditions.length = signals.names.length
  indexed : ∀ entry ∈ signals.entries,
    signals.conditionsOf? entry.signal.text = some entry.conditions

namespace ClockedSignals

variable {signals : ClockedSignals} {word : Word} {conditions : List String}

/-- The recorded words in order. -/
def words (signals : ClockedSignals) : List Word := signals.entries.toList.map (·.signal)

theorem contains_eq_any (name : String) :
    signals.contains name = signals.words.any (·.text == name) := by
  rw [contains, words, List.any_map, ← Array.any_toList]
  rfl

/-- Recording a signal adds its name if it is not there. -/
theorem words_record : (signals.record word conditions).words = addNamed signals.words word := by
  rw [record, addNamed, contains_eq_any]
  split
  · rfl
  · simp [words]

/-- So recording several adds the names that are new, in order. -/
theorem words_record_stems (targets : List Word) :
    (targets.foldl (fun signals target => signals.record target.stem conditions) signals).words =
      (targets.map Word.stem).foldl addNamed signals.words := by
  induction targets generalizing signals with
  | nil => rfl
  | cons target targets ih => rw [List.foldl_cons, ih, words_record, List.map_cons, List.foldl_cons]

/-- Recording keeps the names distinct. -/
theorem nodup_record (h : signals.names.Nodup) : (signals.record word conditions).names.Nodup := by
  rw [record]
  split
  · exact h
  · next hNew =>
    have hAbsent : word.text ∉ signals.names := by
      intro hMem
      obtain ⟨entry, hEntry, hName⟩ := List.mem_map.1 hMem
      refine hNew (Array.any_eq_true'.2 ⟨entry, by simpa using hEntry, ?_⟩)
      simpa using hName
    have hNames : (ClockedSignals.mk (signals.entries.push ⟨word, conditions⟩)).names =
        signals.names ++ [word.text] := by simp [names]
    rw [hNames]
    exact List.Nodup.append h (List.nodup_singleton _) (by simpa using hAbsent)

/-- Distinct names find their own conditions. -/
theorem isIndexed_of_nodup (h : signals.names.Nodup) : signals.IsIndexed := by
  refine ⟨h, by simp [ClockedSignals.conditions, names], ?_⟩
  intro entry hMem
  rw [conditionsOf?, ← Array.find?_toList]
  rw [names] at h
  rw [← Array.mem_toList_iff] at hMem
  generalize signals.entries.toList = entries at h hMem
  induction entries with
  | nil => cases hMem
  | cons first entries ih =>
      rw [List.map_cons, List.nodup_cons] at h
      rcases List.mem_cons.1 hMem with rfl | hMem
      · simp
      · have hOther : first.signal.text ≠ entry.signal.text := fun hName =>
          h.1 (hName ▸ List.mem_map_of_mem hMem)
        rw [List.find?_cons_of_neg (by simpa using hOther)]
        exact ih h.2 hMem

/-- Signals that are recorded one after the other are all kept if their names are distinct. -/
theorem foldl_record_of_nodup {known : ClockedSignals} {entries : List ClockedSignal}
    (h : ((known.entries.toList ++ entries).map (·.signal.text)).Nodup) :
    entries.foldl (fun known entry => known.record entry.signal entry.conditions) known =
      ⟨known.entries ++ entries.toArray⟩ := by
  induction entries generalizing known with
  | nil => simp
  | cons entry entries ih =>
      have hNew : known.contains entry.signal.text = false := by
        rw [List.map_append, List.nodup_append] at h
        rw [← Bool.not_eq_true]
        intro hKnown
        obtain ⟨index, hIndex, hName⟩ := Array.any_eq_true.1 hKnown
        exact h.2.2 _ (List.mem_map_of_mem (Array.getElem_mem_toList hIndex)) entry.signal.text
          (by simp) (eq_of_beq hName)
      have hRecord : known.record entry.signal entry.conditions = ⟨known.entries.push entry⟩ := by
        rw [record, hNew]
        rfl
      rw [List.foldl_cons, hRecord, ih]
      · simp
      · simpa using h

theorem followedBy_of_nodup {signals : ClockedSignals} (h : signals.names.Nodup) :
    followedBy {} signals = signals := by
  rw [followedBy, foldl_record_of_nodup (by simpa [names] using h)]
  simp

end ClockedSignals

end Names

section Conditions

/-- The names of the signals and their conditions. -/
def ClockedSignals.snapshots (signals : ClockedSignals) : List (String × List String) :=
  signals.entries.toList.map fun entry => (entry.signal.text, entry.conditions)

/-- Adds a name with its conditions, unless the name is there. -/
def addSnapshot (known : List (String × List String)) (entry : String × List String) :
    List (String × List String) :=
  if known.any (·.1 == entry.1) then known else known ++ [entry]

variable {signals : ClockedSignals} {word : Word} {words : List Word} {name : String}
  {conditions : List String} {known entries : List (String × List String)}

/-- Recording twice is recording once. -/
theorem addSnapshot_addSnapshot {entry : String × List String} :
    addSnapshot (addSnapshot known entry) entry = addSnapshot known entry := by
  by_cases h : known.any (·.1 == entry.1) = true
  · simp [addSnapshot, h]
  · simp [addSnapshot, h]

namespace ClockedSignals

/-- Recording a signal adds its name with the conditions in force, unless the name is known. -/
theorem snapshots_record :
    (signals.record word conditions).snapshots =
      addSnapshot signals.snapshots (word.text, conditions) := by
  have hContains : signals.contains word.text = signals.snapshots.any (·.1 == word.text) := by
    rw [contains, snapshots, List.any_map, ← Array.any_toList]
    rfl
  rw [record, addSnapshot, ← hContains]
  split
  · rfl
  · simp [snapshots]

/-- Signals are recorded one after the other under their base names. -/
theorem snapshots_record_stems :
    (words.foldl (fun signals word => signals.record word.stem conditions) signals).snapshots =
      (words.map fun word => (word.base, conditions)).foldl addSnapshot signals.snapshots := by
  induction words generalizing signals with
  | nil => rfl
  | cons word words ih =>
      rw [List.foldl_cons, ih, snapshots_record]
      rfl

/-- A name that is recorded several times is recorded once. -/
theorem snapshots_record_foldl (name : String) (hWords : words ≠ [])
    (hName : ∀ word ∈ words, word.text = name) :
    (words.foldl (fun signals word => signals.record word conditions) signals).snapshots =
      addSnapshot signals.snapshots (name, conditions) := by
  induction words generalizing signals with
  | nil => exact absurd rfl hWords
  | cons word words ih =>
      rw [List.forall_mem_cons] at hName
      rw [List.foldl_cons]
      by_cases hNil : words = []
      · rw [hNil, List.foldl_nil, snapshots_record, hName.1]
      · rw [ih hNil hName.2, snapshots_record, hName.1, addSnapshot_addSnapshot]

end ClockedSignals

/-- Names that are all different are all added. -/
theorem foldl_addSnapshot (h : ((known ++ entries).map (·.1)).Nodup) :
    entries.foldl addSnapshot known = known ++ entries := by
  induction entries generalizing known with
  | nil => simp
  | cons entry entries ih =>
      have hAbsent : known.any (·.1 == entry.1) = false := by
        rw [List.map_append, List.nodup_append] at h
        rw [← Bool.not_eq_true, List.any_eq_true]
        rintro ⟨other, hOther, hName⟩
        refine h.2.2 other.1 (List.mem_map_of_mem hOther) entry.1 ?_ (by simpa using hName)
        exact List.mem_map_of_mem List.mem_cons_self
      rw [List.foldl_cons, addSnapshot, hAbsent, if_neg (by simp), ih (by simpa using h)]
      simp

end Conditions

end HdlIndex

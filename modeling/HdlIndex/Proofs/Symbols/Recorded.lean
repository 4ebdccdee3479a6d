import HdlIndex.Proofs.Text.Cover
import HdlIndex.Symbols.Declarations
import HdlIndex.Symbols.HdlProcess

/-! Properties of all recorded words. What a walk does to a list of words, a declaration list, the
clocked signals or a process is one of a few operations, and each of them keeps a property of words
that passes from a word to its parts. A byte offset has the property when the empty word at it has,
so that the ends of a process need no property of their own. -/
namespace HdlIndex

open String (utf8Len)

/-- A property that passes from a word to its stem, and to the places at its two ends. -/
structure Rooted (P : Word → Prop) : Prop where
  before {word : Word} : P word → P (.absent word.span.start)
  behind {word : Word} : P word → P (.absent word.span.stop)
  stem {word : Word} : P word → P word.stem

/-- A property that passes from a word to its parts, and to the places at its two ends. -/
structure Inherited (P : Word → Prop) : Prop where
  before {word : Word} : P word → P (.absent word.span.start)
  behind {word : Word} : P word → P (.absent word.span.stop)
  stop_eq {word : Word} : P word → word.span.stop = word.span.start + word.text.utf8ByteSize
  part {word : Word} (first middle last : List Char) : P word →
    word.text.toList = first ++ middle ++ last →
    P ⟨String.ofList middle,
      ⟨word.span.start + utf8Len first, word.span.start + utf8Len first + utf8Len middle⟩⟩

/-- A part of a word has what passes from words to their parts. -/
def Word.IsPartOf (part word : Word) : Prop := ∀ P : Word → Prop, Inherited P → P word → P part

/-- To be what the text has at one's place is such a property. -/
theorem standsIn_inherited (text : String) : Inherited (·.StandsIn text) where
  before {word} h := by
    have hPart := Span.Covers.part h [] [] word.text.toList rfl
    simpa [Word.StandsIn, Word.absent, Span.empty] using hPart
  behind h := Span.Covers.empty_stop h
  stop_eq := by
    rintro word ⟨before, after, -, hSpan⟩
    rw [hSpan]
  part first middle last h hText := Span.Covers.part h first middle last hText

variable {P Q : Word → Prop}

/-- The base of a selected name is its first part. -/
theorem Inherited.stem (hP : Inherited P) {word : Word} (h : P word) : P word.stem := by
  have hPart := hP.part [] (word.text.toList.takeWhile (· != '.'))
    (word.text.toList.dropWhile (· != '.')) h (by simp)
  simpa [Word.stem, Word.base, baseName, String.utf8ByteSize_ofList] using hPart

theorem Inherited.rooted (hP : Inherited P) : Rooted P := ⟨hP.before, hP.behind, hP.stem⟩

/-- Every word of the list has the property. -/
def Words.All (P : Word → Prop) (words : Words) : Prop := ∀ word ∈ words.entries, P word

theorem Words.All.empty : Words.All P {} := by simp [Words.All]

theorem Words.All.push {words : Words} {word : Word} (h : words.All P) (hWord : P word) :
    (words.push word).All P := by
  intro other hMem
  rcases Array.mem_push.1 hMem with hMem | rfl
  · exact h other hMem
  · exact hWord

/-- Every declared name has the property `P`, and every type the property `Q`. -/
structure Declarations.All (P Q : Word → Prop) (list : Declarations) : Prop where
  rows : ∀ row ∈ list.rows, P row.name ∧ Q row.type
  pending : ∀ name ∈ list.pending, P name

namespace Declarations.All

variable {list : Declarations} {name : Word} {type : Option Word}

theorem empty : Declarations.All P Q {} := ⟨by simp, by simp⟩

theorem pushName (h : list.All P Q) (hName : P name) : (list.pushName name).All P Q := by
  refine ⟨h.rows, fun other hMem => ?_⟩
  rcases Array.mem_push.1 hMem with hMem | rfl
  · exact h.pending other hMem
  · exact hName

/-- A missing type stands at the end of its name. -/
theorem complete (h : list.All P Q) (mode range init : String) (hType : ∀ word ∈ type, Q word)
    (hAbsent : ∀ name, P name → Q (.absent name.span.stop)) :
    (list.complete mode type range init).All P Q := by
  refine ⟨fun row hMem => ?_, by simp [Declarations.complete]⟩
  rcases Array.mem_append.1 hMem with hMem | hMem
  · exact h.rows row hMem
  · obtain ⟨name, hName, rfl⟩ := Array.mem_map.1 hMem
    refine ⟨h.pending name hName, ?_⟩
    cases type with
    | none => exact hAbsent name (h.pending name hName)
    | some word => exact hType word rfl

/-- Padding adds absent types, each where its name stops. -/
theorem align (h : list.All P Q) (hAbsent : ∀ name, P name → Q (.absent name.span.stop)) :
    list.align.All P Q := by
  rw [Declarations.align]
  split
  · exact h
  · exact h.complete "" "" "" (by simp) hAbsent

theorem pushRow (h : list.All P Q) (mode range init : String) (hName : P name)
    (hType : ∀ word ∈ type, Q word) (hAbsent : ∀ name, P name → Q (.absent name.span.stop)) :
    (list.pushRow name mode type range init).All P Q :=
  (h.pushName hName).complete mode range init hType hAbsent

/-- A row that is updated takes its type from the declaration or keeps its own. -/
theorem update (h : list.All P Q) (index : Nat) (mode range init : String)
    (hType : ∀ word ∈ type, Q word) : (list.update index mode type range init).All P Q := by
  refine ⟨fun row hMem => ?_, h.pending⟩
  obtain ⟨place, hPlace, rfl⟩ := Array.mem_iff_getElem.1 hMem
  have hBound : place < list.rows.size := by simpa [Declarations.update] using hPlace
  have hRow := h.rows list.rows[place] (by simp)
  simp only [Declarations.update, Array.getElem_modify]
  split
  · refine ⟨hRow.1, ?_⟩
    cases type with
    | none => exact hRow.2
    | some word => exact hType word rfl
  · exact hRow

theorem names (h : list.All P Q) : ∀ name ∈ list.names, P name := by
  intro name hMem
  rcases List.mem_append.1 hMem with hMem | hMem
  · obtain ⟨row, hRow, rfl⟩ := List.mem_map.1 hMem
    exact (h.rows row (by simpa using hRow)).1
  · exact h.pending name (by simpa using hMem)

theorem types (h : list.All P Q) : ∀ type ∈ list.types, Q type := by
  intro type hMem
  obtain ⟨row, hRow, rfl⟩ := List.mem_map.1 hMem
  exact (h.rows row (by simpa using hRow)).2

end Declarations.All

/-- Moreover no name waits for its attributes. -/
structure Declarations.AllComplete (P Q : Word → Prop) (list : Declarations) : Prop
    extends Declarations.All P Q list where
  settled : list.pending = #[]

namespace Declarations.AllComplete

variable {list : Declarations} {name : Word} {type : Option Word}

theorem empty : Declarations.AllComplete P Q {} := ⟨.empty, rfl⟩

theorem pushRow (h : list.AllComplete P Q) (mode range init : String) (hName : P name)
    (hType : ∀ word ∈ type, Q word) (hAbsent : ∀ name, P name → Q (.absent name.span.stop)) :
    (list.pushRow name mode type range init).AllComplete P Q :=
  ⟨h.toAll.pushRow mode range init hName hType hAbsent, rfl⟩

theorem update (h : list.AllComplete P Q) (index : Nat) (mode range init : String)
    (hType : ∀ word ∈ type, Q word) : (list.update index mode type range init).AllComplete P Q :=
  ⟨h.toAll.update index mode range init hType, h.settled⟩

end Declarations.AllComplete

/-- Completing a list without pending names changes nothing. -/
theorem Declarations.align_eq_self {list : Declarations} (h : list.pending = #[]) :
    list.align = list := by
  simp [Declarations.align, h]

/-- Every clocked signal has the property. -/
def ClockedSignals.All (P : Word → Prop) (signals : ClockedSignals) : Prop :=
  ∀ entry ∈ signals.entries, P entry.signal

/-- A signal that is recorded has the property, and one that is known is left as it is. -/
theorem ClockedSignals.All.record {signals : ClockedSignals} {signal : Word}
    (h : signals.All P) (hSignal : P signal) (conditions : List String) :
    (signals.record signal conditions).All P := by
  rw [ClockedSignals.record]
  split
  · exact h
  · intro entry hMem
    rcases Array.mem_push.1 hMem with hMem | rfl
    · exact h entry hMem
    · exact hSignal

/-- The base names of words have every property that the words have and that goes down to their
beginnings. -/
theorem ClockedSignals.All.record_foldl {targets : List Word} {signals : ClockedSignals}
    (hP : Rooted P) (h : signals.All P) (hTargets : ∀ target ∈ targets, P target)
    (conditions : List String) :
    (targets.foldl (fun signals target => signals.record target.stem conditions) signals).All
      P := by
  induction targets generalizing signals with
  | nil => exact h
  | cons target targets ih =>
      rw [List.forall_mem_cons] at hTargets
      exact ih (h.record (hP.stem hTargets.1) conditions) hTargets.2

/-- The two ends of the range are in order, and their places have the property. -/
structure Span.All (P : Word → Prop) (span : Span) : Prop where
  ordered : span.start ≤ span.stop
  start : P (.absent span.start)
  stop : P (.absent span.stop)

/-- Every word of the process has the property, and so have the two ends of the process. -/
structure HdlProcess.All (P : Word → Prop) (process : HdlProcess) : Prop where
  span : process.span.All P
  sensitivity : ∀ word ∈ process.sensitivity, P word
  body : ∀ entry ∈ process.body, P entry.word

/-- The words of a process: its sensitivity list and the names of its body. -/
def HdlProcess.words (process : HdlProcess) : List Word :=
  process.sensitivity.toList ++ process.body.toList.map (·.word)

namespace HdlProcess.All

variable {process : HdlProcess} {word : Word}

theorem starting {offset : Nat} (label : Option String) (hOffset : P (.absent offset)) :
    (HdlProcess.starting label offset).All P :=
  ⟨⟨Nat.le_refl _, hOffset, hOffset⟩, by simp [HdlProcess.starting],
    by simp [HdlProcess.starting]⟩

theorem pushSensitivity (h : process.All P) (hWord : P word) :
    (process.pushSensitivity word).All P where
  __ := h
  sensitivity other hMem := by
    rcases Array.mem_push.1 hMem with hMem | rfl
    · exact h.sensitivity other hMem
    · exact hWord

theorem pushBody (h : process.All P) (hWord : P word) (role : Role) :
    (process.pushBody word role).All P where
  __ := h
  body other hMem := by
    rcases Array.mem_push.1 hMem with hMem | rfl
    · exact h.body other hMem
    · exact hWord

/-- The words of a body do not change with the role that one of them is given. -/
theorem mark (h : process.All P) (index : Nat) (role : Role) : (process.mark index role).All P where
  __ := h
  body entry hMem := by
    obtain ⟨place, hPlace, rfl⟩ := Array.mem_iff_getElem.1 hMem
    have hBound : place < process.body.size := by simpa [HdlProcess.mark] using hPlace
    have hEntry := h.body process.body[place] (by simp)
    simp only [HdlProcess.mark, Array.getElem_modify]
    split <;> exact hEntry

/-- Closing a process adds nothing but the place of its end. -/
theorem close (h : process.All P) {offset : Nat} (hOffset : P (.absent offset)) :
    (process.close offset).All P where
  __ := h
  span := by
    refine ⟨Nat.le_max_right _ _, h.span.start, ?_⟩
    rcases Nat.le_total offset process.span.start with hle | hle
    · simpa [HdlProcess.close, Nat.max_eq_right hle] using h.span.start
    · simpa [HdlProcess.close, Nat.max_eq_left hle] using hOffset

theorem signalTargets (h : process.All P) : ∀ word ∈ process.signalTargets, P word := by
  intro word hMem
  obtain ⟨entry, hEntry, rfl⟩ := List.mem_map.1 hMem
  exact h.body entry (by simpa using (List.mem_filter.1 hEntry).1)

theorem bodyWord? (h : process.All P) {index : Nat} (hWord : process.bodyWord? index = some word) :
    P word := by
  obtain ⟨entry, hEntry, rfl⟩ := Option.map_eq_some_iff.1 hWord
  exact h.body entry (Array.mem_of_getElem? hEntry)

theorem words (h : process.All P) : ∀ word ∈ process.words, P word := by
  intro word hMem
  rcases List.mem_append.1 hMem with hMem | hMem
  · exact h.sensitivity word (by simpa using hMem)
  · obtain ⟨entry, hEntry, rfl⟩ := List.mem_map.1 hMem
    exact h.body entry (by simpa using hEntry)

end HdlProcess.All

end HdlIndex

import HdlIndex.Proofs.Symbols.Recorded
import HdlIndex.Symbols.Declarations
import Mathlib.Data.List.Chain

/-! Blocks from their opening to their end. A ledger is what a walk has of them: the block that is
open and those that are closed. In one step a block is opened, goes on or is closed, and a block is
opened only where none is open. So every block that is opened is closed once, in the order of
opening, unless it is open still. A block ends at or behind the last word that is read for it, and
words are read in the order of the text, so that blocks are apart from each other, and each one has
its words inside of it, in order. -/
namespace HdlIndex

/-- The range begins and ends in front of another one. -/
structure Span.Precedes (span other : Span) : Prop where
  start : span.start < other.start
  stop : span.stop ≤ other.start

/-- What a block keeps as long as it is open. -/
def HdlProcess.origin (process : HdlProcess) : Option String × Nat :=
  (process.label, process.span.start)

/-- No word of the block is read. -/
structure HdlProcess.IsFresh (process : HdlProcess) : Prop where
  words : process.words = []
  closed : process.span.stop = process.span.start

/-- The block goes on as another one: at most the word `here` is added to its words, and it stays
clocked if it is. -/
structure HdlProcess.Continues (here : Word) (process other : HdlProcess) : Prop where
  label : other.label = process.label
  span : other.span = process.span
  words : other.words = process.words ∨ other.words = process.words ++ [here]
  clocked : process.clocked = true → other.clocked = true

namespace HdlProcess

variable {process other : HdlProcess} {here : Word}

theorem isFresh_starting (label : Option String) (offset : Nat) :
    (starting label offset).IsFresh :=
  ⟨by simp [words, starting], rfl⟩

/-- The role of a word is not part of what stands where. -/
theorem words_mark (process : HdlProcess) (index : Nat) (role : Role) :
    (process.mark index role).words = process.words := by
  have hBody : (process.mark index role).body.map (·.word) = process.body.map (·.word) := by
    apply Array.ext
    · simp [mark]
    · intro place _ _
      simp only [mark, Array.getElem_map, Array.getElem_modify]
      split <;> rfl
  simpa [words, mark] using congrArg Array.toList hBody

namespace Continues

theorem refl (here : Word) (process : HdlProcess) : Continues here process process :=
  ⟨rfl, rfl, .inl rfl, id⟩

theorem pushSensitivity (here : Word) (h : process.body = #[]) :
    process.Continues here (process.pushSensitivity here) :=
  ⟨rfl, rfl, .inr (by simp [HdlProcess.words, HdlProcess.pushSensitivity, h]), id⟩

theorem pushBody (here : Word) (process : HdlProcess) (role : Role) :
    process.Continues here (process.pushBody here role) :=
  ⟨rfl, rfl, .inr (by simp [HdlProcess.words, HdlProcess.pushBody]), id⟩

theorem mark (here : Word) (process : HdlProcess) (index : Nat) (role : Role) :
    process.Continues here (process.mark index role) :=
  ⟨rfl, rfl, .inl (process.words_mark index role), id⟩

/-- Flags are raised and not taken back. -/
theorem raise (h : process.Continues here other) {clocked all : Bool}
    (hClocked : other.clocked = true → clocked = true) :
    process.Continues here { other with clocked, all } where
  __ := h
  clocked hProcess := hClocked (h.clocked hProcess)

end Continues

end HdlProcess

/-- The block that is open, and those that are closed in the order of their ends. -/
structure Ledger where
  current : Option HdlProcess
  closed : List HdlProcess

/-- What a step does to the blocks. -/
inductive Ledger.Step : Ledger → Ledger → Prop where
  /-- None is open, before and after. -/
  | idle (closed : List HdlProcess) : Step ⟨none, closed⟩ ⟨none, closed⟩
  /-- One is opened where none is open. -/
  | opens {process : HdlProcess} (closed : List HdlProcess) (hFresh : process.IsFresh) :
      Step ⟨none, closed⟩ ⟨some process, closed⟩
  /-- The open one goes on. -/
  | grows {process other : HdlProcess} (closed : List HdlProcess) (here : Word)
      (hContinues : process.Continues here other) :
      Step ⟨some process, closed⟩ ⟨some other, closed⟩
  /-- The open one is closed at a byte offset. -/
  | closes (process : HdlProcess) (closed : List HdlProcess) (offset : Nat) :
      Step ⟨some process, closed⟩ ⟨none, closed ++ [process.close offset]⟩

namespace Ledger

/-- The blocks that are opened on the way through ledgers that follow each other, as they are when
they are opened. -/
def opened : List Ledger → List HdlProcess
  | first :: second :: rest =>
    (if first.current.isNone then second.current.toList else []) ++ opened (second :: rest)
  | _ => []

/-- The blocks of a ledger: the closed ones, then the open one. -/
def blocks (ledger : Ledger) : List HdlProcess := ledger.closed ++ ledger.current.toList

variable {first last : Ledger} {ledgers : List Ledger}

/-- Nothing happens. -/
theorem Step.refl (ledger : Ledger) : Step ledger ledger := by
  obtain ⟨current, closed⟩ := ledger
  cases current with
  | none => exact .idle closed
  | some process => exact .grows closed (.absent 0) (.refl _ process)

/-- A step adds the block that it opens. -/
theorem Step.origins (h : Step first last) :
    last.blocks.map (·.origin) =
      (first.blocks ++ if first.current.isNone then last.current.toList else []).map
        (·.origin) := by
  cases h with
  | idle closed => simp [blocks]
  | opens closed hFresh => simp [blocks]
  | grows closed here hContinues =>
      simp [blocks, HdlProcess.origin, hContinues.label, hContinues.span]
  | closes process closed offset => simp [blocks, HdlProcess.origin, HdlProcess.close]

/-- At the end of a chain of steps there are the blocks of the beginning and those opened since. -/
theorem origins_of_isChain (h : (first :: ledgers).IsChain Step)
    (hLast : (first :: ledgers).getLast? = some last) :
    last.blocks.map (·.origin) = (first.blocks ++ opened (first :: ledgers)).map (·.origin) := by
  induction ledgers generalizing first with
  | nil =>
      obtain rfl : first = last := by simpa using hLast
      simp [opened]
  | cons second ledgers ih =>
      rw [List.isChain_cons_cons] at h
      rw [List.getLast?_cons_cons] at hLast
      have hRest := ih h.2 hLast
      rw [List.map_append, h.1.origins] at hRest
      rw [hRest, opened]
      simp

end Ledger

/-- The words of a process are inside of it, one behind the other. -/
structure HdlProcess.IsOrdered (process : HdlProcess) : Prop where
  words : process.words.Pairwise fun word other => word.span.Precedes other.span
  within : ∀ word ∈ process.words,
    process.span.start ≤ word.span.start ∧ word.span.stop ≤ process.span.stop

/-- The words of a process that is open at a byte offset are behind its start and in front of the
offset, one behind the other. -/
structure HdlProcess.IsOpen (offset : Nat) (process : HdlProcess) : Prop where
  start : process.span.start < offset
  words : process.words.Pairwise fun word other => word.span.Precedes other.span
  within : ∀ word ∈ process.words,
    process.span.start ≤ word.span.start ∧ word.span.start < word.span.stop ∧
    word.span.stop ≤ offset

namespace HdlProcess

variable {process other : HdlProcess} {offset later : Nat} {here : Word}

theorem IsFresh.isOpen (h : process.IsFresh) (hStart : process.span.start < offset) :
    process.IsOpen offset :=
  ⟨hStart, by simp [h.words], by simp [h.words]⟩

/-- A process that is open at an offset is open at a later one. -/
theorem IsOpen.advance (h : process.IsOpen offset) (hLater : offset ≤ later) :
    process.IsOpen later where
  start := h.start.trans_le hLater
  words := h.words
  within word hMem := by
    obtain ⟨hStart, hOrder, hStop⟩ := h.within word hMem
    exact ⟨hStart, hOrder, hStop.trans hLater⟩

/-- The word that is read may be added. -/
theorem IsOpen.continues (h : process.IsOpen offset) (hContinues : process.Continues here other)
    (hBehind : offset ≤ here.span.start) (hOrder : here.span.start < here.span.stop) :
    other.IsOpen here.span.stop := by
  have hLater : offset ≤ here.span.stop := hBehind.trans hOrder.le
  refine ⟨?_, ?_, ?_⟩
  · rw [hContinues.span]
    exact h.start.trans_le hLater
  · rcases hContinues.words with hWords | hWords
    · rw [hWords]
      exact h.words
    · rw [hWords, List.pairwise_append]
      refine ⟨h.words, List.pairwise_singleton _ _, fun word hMem last hLast => ?_⟩
      obtain rfl := List.mem_singleton.1 hLast
      obtain ⟨-, hWord, hStop⟩ := h.within word hMem
      exact ⟨by omega, hStop.trans hBehind⟩
  · intro word hMem
    rw [hContinues.span]
    have hOld : word ∈ process.words → process.span.start ≤ word.span.start ∧
        word.span.start < word.span.stop ∧ word.span.stop ≤ here.span.stop := fun hWord =>
      (h.advance hLater).within word hWord
    rcases hContinues.words with hWords | hWords
    · exact hOld (hWords ▸ hMem)
    · rw [hWords] at hMem
      rcases List.mem_append.1 hMem with hMem | hMem
      · exact hOld hMem
      · obtain rfl := List.mem_singleton.1 hMem
        exact ⟨h.start.le.trans hBehind, hOrder, Nat.le_refl _⟩

/-- A process that is closed at or behind the offset has its words inside. -/
theorem IsOpen.isOrdered_close (h : process.IsOpen offset) (hLater : offset ≤ later) :
    (process.close later).IsOrdered where
  words := h.words
  within word hMem := by
    obtain ⟨hStart, -, hStop⟩ := h.within word hMem
    exact ⟨hStart, (hStop.trans hLater).trans (Nat.le_max_left _ _)⟩

end HdlProcess

/-- In front of a byte offset, the closed blocks are apart from each other, in order, and with their
words inside, and the open one is behind all of them. -/
structure Ledger.Ordered (offset : Nat) (ledger : Ledger) : Prop where
  apart : ledger.closed.Pairwise fun block other => block.span.Precedes other.span
  ordered : ∀ block ∈ ledger.closed, block.IsOrdered
  texts : ∀ block ∈ ledger.closed, ∀ word ∈ block.words, word.span.start < word.span.stop
  ended : ∀ block ∈ ledger.closed, block.span.start < block.span.stop ∧ block.span.stop ≤ offset
  begun : ∀ block ∈ ledger.current, block.IsOpen offset
  behind : ∀ block ∈ ledger.current, ∀ earlier ∈ ledger.closed,
    earlier.span.stop ≤ block.span.start

namespace Ledger.Ordered

variable {ledger : Ledger} {offset later : Nat} {process other : HdlProcess}
  {closed : List HdlProcess} {here : Word}

theorem empty (offset : Nat) : Ordered offset ⟨none, []⟩ := by
  constructor <;> simp

theorem advance (h : ledger.Ordered offset) (hLater : offset ≤ later) : ledger.Ordered later where
  __ := h
  ended block hMem := ⟨(h.ended block hMem).1, (h.ended block hMem).2.trans hLater⟩
  begun block hMem := (h.begun block hMem).advance hLater

/-- A block is opened behind those that are closed, at the word that is read or at the label in
front of it. -/
theorem opens (h : Ordered offset ⟨none, closed⟩) (hFresh : process.IsFresh)
    (hStart : process.span.start < later) (hLater : offset ≤ later)
    (hBehind : ∀ earlier ∈ closed, earlier.span.stop ≤ process.span.start) :
    Ordered later ⟨some process, closed⟩ where
  apart := h.apart
  ordered := h.ordered
  texts := h.texts
  ended := (h.advance hLater).ended
  begun := by
    rintro _ ⟨⟩
    exact hFresh.isOpen hStart
  behind := by
    rintro _ ⟨⟩
    exact hBehind

/-- The open block takes the words that are read behind its own, and nothing else about the ledger
changes. -/
theorem grows (h : Ordered offset ⟨some process, closed⟩)
    (hContinues : process.Continues here other) (hBehind : offset ≤ here.span.start)
    (hOrder : here.span.start < here.span.stop) :
    Ordered here.span.stop ⟨some other, closed⟩ where
  apart := h.apart
  ordered := h.ordered
  texts := h.texts
  ended := (h.advance (hBehind.trans hOrder.le)).ended
  begun := by
    rintro _ ⟨⟩
    exact (h.begun process rfl).continues hContinues hBehind hOrder
  behind := by
    rintro _ ⟨⟩
    rw [hContinues.span]
    exact h.behind process rfl

/-- A block that is closed is behind all others, since it began behind them. -/
theorem closes (h : Ordered offset ⟨some process, closed⟩) (hLater : offset ≤ later) :
    Ordered later ⟨none, closed ++ [process.close later]⟩ := by
  have hOpen := h.begun process rfl
  have hStart : process.span.start < later := hOpen.start.trans_le hLater
  have hStop : (process.close later).span.stop = later := Nat.max_eq_left hStart.le
  refine ⟨?_, ?_, ?_, ?_, by simp, by simp⟩
  · rw [List.pairwise_append]
    refine ⟨h.apart, List.pairwise_singleton _ _, fun block hMem last hLast => ?_⟩
    obtain rfl := List.mem_singleton.1 hLast
    have hBehind : block.span.stop ≤ process.span.start := h.behind process rfl block hMem
    exact ⟨(h.ended block hMem).1.trans_le hBehind, hBehind⟩
  · intro block hMem
    rcases List.mem_append.1 hMem with hMem | hMem
    · exact h.ordered block hMem
    · obtain rfl := List.mem_singleton.1 hMem
      exact hOpen.isOrdered_close hLater
  · intro block hMem
    rcases List.mem_append.1 hMem with hMem | hMem
    · exact h.texts block hMem
    · obtain rfl := List.mem_singleton.1 hMem
      exact fun word hWord => (hOpen.within word hWord).2.1
  · intro block hMem
    rcases List.mem_append.1 hMem with hMem | hMem
    · exact (h.advance hLater).ended block hMem
    · obtain rfl := List.mem_singleton.1 hMem
      exact ⟨hStart.trans_eq hStop.symm, hStop.le⟩

end Ledger.Ordered

end HdlIndex

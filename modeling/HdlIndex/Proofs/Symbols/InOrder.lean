import HdlIndex.Proofs.Symbols.Ledger
import HdlIndex.Proofs.Symbols.Recorded
import HdlIndex.Symbols.Declarations
import Mathlib.Data.List.Chain

/-! Words in the order of the text. A list that takes its words one by one from those that are read
is in that order, whenever it takes them, as long as it never goes back behind a word that it has
taken. Attributes come and go without touching the order of the names they belong to. -/
namespace HdlIndex

/-- Each range begins and ends in front of those that come after it in the list, so that no two of
them have a byte in common. -/
def Span.AreInOrder (spans : List Span) : Prop := spans.Pairwise Span.Precedes

/-- Each word stands in front of those that come after it in the list. -/
def Word.AreInOrder (words : List Word) : Prop :=
  words.Pairwise fun word other => word.span.Precedes other.span

/-- The word is not empty. -/
def Word.HasText (word : Word) : Prop := word.span.start < word.span.stop

namespace Word

variable {words others : List Word} {word : Word}

theorem areInOrder_iff : Word.AreInOrder words ↔ Span.AreInOrder (words.map (·.span)) :=
  List.pairwise_map.symm

theorem AreInOrder.sublist (h : Word.AreInOrder words) (hSublist : others.Sublist words) :
    Word.AreInOrder others :=
  List.Pairwise.sublist hSublist h

end Word

/-- From a byte offset on, words with text follow each other up to another offset. -/
def Word.Follow : Nat → List Word → Nat → Prop
  | offset, [], stop => offset ≤ stop
  | offset, word :: words, stop =>
    offset ≤ word.span.start ∧ word.HasText ∧ Word.Follow word.span.stop words stop

namespace Word.Follow

variable {offset stop : Nat} {words : List Word}

/-- All words of a list that follows an offset begin there or behind it. -/
theorem start_le (h : Word.Follow offset words stop) :
    ∀ word ∈ words, offset ≤ word.span.start := by
  induction words generalizing offset with
  | nil => simp
  | cons word words ih =>
      obtain ⟨hBehind, hText, hRest⟩ := h
      rw [List.forall_mem_cons]
      exact ⟨hBehind, fun other hMem => (hBehind.trans hText.le).trans (ih hRest other hMem)⟩

/-- Words that follow each other are in the order of the text, and no two begin at one place. -/
theorem areInOrder (h : Word.Follow offset words stop) : Word.AreInOrder words := by
  induction words generalizing offset with
  | nil => exact .nil
  | cons word words ih =>
      obtain ⟨-, hText, hRest⟩ := h
      refine List.pairwise_cons.2 ⟨fun other hMem => ?_, ih hRest⟩
      have hStart := hRest.start_le other hMem
      exact ⟨hText.trans_le hStart, hStart⟩

end Word.Follow

/-- A word that takes the place of each one, and begins inside of it, keeps the order. -/
theorem Word.AreInOrder.filterMap {words : List Word} {part? : Word → Option Word}
    (h : Word.AreInOrder words)
    (hPart : ∀ word ∈ words, ∀ part ∈ part? word,
      word.span.start < part.span.start ∧ part.span.start ≤ part.span.stop ∧
        part.span.stop ≤ word.span.stop) : Word.AreInOrder (words.filterMap part?) := by
  refine List.pairwise_filterMap.2 (h.imp_of_mem ?_)
  intro word other hWord hOther hBefore part hFirst part' hSecond
  obtain ⟨-, hSize, hStop⟩ := hPart word hWord part hFirst
  obtain ⟨hStart, -, -⟩ := hPart other hOther part' hSecond
  have hApart := hBefore.stop
  exact ⟨by omega, by omega⟩

/-- To be as long as one's text, between two byte offsets, passes to parts. -/
theorem between_inherited (first last : Nat) :
    Inherited fun word => (first ≤ word.span.start ∧ word.span.stop ≤ last) ∧
      word.span.stop = word.span.start + word.text.utf8ByteSize where
  before {word} h := by
    obtain ⟨⟨hFirst, hLast⟩, hSize⟩ := h
    exact ⟨⟨hFirst, by simp only [Word.absent, Span.empty]; omega⟩, by
      simp [Word.absent, Span.empty]⟩
  behind {word} h := by
    obtain ⟨⟨hFirst, hLast⟩, hSize⟩ := h
    exact ⟨⟨by simp only [Word.absent, Span.empty]; omega,
      hLast⟩, by simp [Word.absent, Span.empty]⟩
  stop_eq h := h.2
  part {word} front middle back h hText := by
    obtain ⟨⟨hFirst, hLast⟩, hSize⟩ := h
    have hLength : word.text.utf8ByteSize =
        String.utf8Len front + String.utf8Len middle + String.utf8Len back := by
      rw [← String.ofList_toList (s := word.text), String.utf8ByteSize_ofList, hText]
      simp [Nat.add_assoc]
    refine ⟨⟨?_, ?_⟩, ?_⟩
    · exact hFirst.trans (Nat.le_add_right _ _)
    · show word.span.start + String.utf8Len front + String.utf8Len middle ≤ last
      omega
    · rw [String.utf8ByteSize_ofList]

/-- A part of a word lies within it. -/
theorem Word.IsPartOf.within {part word : Word} (h : part.IsPartOf word)
    (hSize : word.span.stop = word.span.start + word.text.utf8ByteSize) :
    word.span.start ≤ part.span.start ∧ part.span.start ≤ part.span.stop ∧
      part.span.stop ≤ word.span.stop := by
  obtain ⟨⟨hFirst, hLast⟩, hPart⟩ := h _ (between_inherited word.span.start word.span.stop)
    ⟨⟨Nat.le_refl _, Nat.le_refl _⟩, hSize⟩
  exact ⟨hFirst, by omega, hLast⟩

/-- The stem of a word is a part of it. -/
theorem Word.isPartOf_stem (word : Word) : word.stem.IsPartOf word := fun _ hP => hP.stem

/-- Stems begin where their words do, so they are in the same order. -/
theorem Word.AreInOrder.stems {words : List Word} (h : Word.AreInOrder words)
    (hSizes : ∀ word ∈ words, word.span.stop = word.span.start + word.text.utf8ByteSize) :
    Word.AreInOrder (words.map Word.stem) := by
  refine List.pairwise_map.2 (h.imp_of_mem fun {word other} hWord _ hBefore => ?_)
  obtain ⟨-, -, hStop⟩ := word.isPartOf_stem.within (hSizes word hWord)
  exact ⟨hBefore.start, hStop.trans hBefore.stop⟩

namespace Declarations

variable (list : Declarations) (name : Word) (mode : String) (type : Option Word)
  (range init : String)

theorem names_pushName : (list.pushName name).names = list.names ++ [name] := by
  simp [names, pushName]

theorem names_complete : (list.complete mode type range init).names = list.names := by
  simp [names, complete, completed, Function.comp_def]

theorem names_pushRow : (list.pushRow name mode type range init).names = list.names ++ [name] := by
  rw [pushRow, names_complete, names_pushName]

/-- A declaration that adds to a row leaves all names where they are. -/
theorem names_update (index : Nat) :
    (list.update index mode type range init).names = list.names := by
  have hRows : (list.update index mode type range init).rows.map (·.name) =
      list.rows.map (·.name) := by
    apply Array.ext
    · simp [update]
    · intro place _ _
      simp only [update, Array.getElem_map, Array.getElem_modify]
      split <;> rfl
  have hNames := congrArg Array.toList hRows
  rw [Array.toList_map, Array.toList_map] at hNames
  exact congrArg (· ++ list.pending.toList) hNames

theorem names_align : list.align.names = list.names := by
  rw [align]
  split
  · rfl
  · exact list.names_complete _ _ _ _

end Declarations

end HdlIndex

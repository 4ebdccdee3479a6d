import HdlIndex.Proofs.Lexical
import HdlIndex.Proofs.Symbols.InOrder
import HdlIndex.Proofs.Token.Reader

/-! Recorded ranges, and the places of a text that they are taken from. Those are the words,
comments and directive lines that a reading tells apart, so they have no byte in common. Ranges can
have bytes in common only where they are taken from one place, and if all that is taken from a place
begins together, they do so too. -/
namespace HdlIndex

/-- From a byte offset on, the ranges follow each other. -/
def Span.Follow : Nat → List Span → Prop
  | _, [] => True
  | offset, span :: spans =>
      offset ≤ span.start ∧ span.start ≤ span.stop ∧ Span.Follow span.stop spans

namespace Span

variable {spans places : List Span} {span other place : Span} {offset later : Nat}

/-- Spans that follow an offset follow every earlier one. -/
theorem Follow.mono (h : Span.Follow later spans) (hLe : offset ≤ later) :
    Span.Follow offset spans := by
  cases spans with
  | nil => exact trivial
  | cons span spans => exact ⟨hLe.trans h.1, h.2⟩

theorem Follow.start_le (h : Span.Follow offset spans) : ∀ span ∈ spans, offset ≤ span.start := by
  induction spans generalizing offset with
  | nil => simp
  | cons span spans ih =>
      obtain ⟨hBehind, hOrder, hRest⟩ := h
      exact List.forall_mem_cons.2 ⟨hBehind, ih (hRest.mono (hBehind.trans hOrder))⟩

/-- Spans that follow one another are disjoint, and in order. -/
theorem Follow.pairwise (h : Span.Follow offset spans) :
    spans.Pairwise fun span other => span.stop ≤ other.start := by
  induction spans generalizing offset with
  | nil => exact .nil
  | cons span spans ih =>
      obtain ⟨-, -, hRest⟩ := h
      exact List.pairwise_cons.2 ⟨hRest.start_le, ih hRest⟩

/-- The place of an event has no byte in common with the place of another one. -/
theorem Follow.isApart {α : Type} {place? : α → Option Span} {front behind : List α} {event : α}
    (h : Span.Follow offset ((front ++ event :: behind).filterMap place?))
    (hPlace : place? event = some place) :
    ∀ other ∈ front ++ behind, ∀ span ∈ place? other, span.IsApart place := by
  have hPairwise := h.pairwise
  rw [List.filterMap_append, List.filterMap_cons_some hPlace, List.pairwise_append,
    List.pairwise_cons] at hPairwise
  obtain ⟨-, ⟨hBehind, -⟩, hFront⟩ := hPairwise
  intro other hOther span hSpan
  rcases List.mem_append.1 hOther with hMem | hMem
  · exact .inl (hFront span (List.mem_filterMap.2 ⟨other, hMem, hSpan⟩) place List.mem_cons_self)
  · exact .inr (hBehind span (List.mem_filterMap.2 ⟨other, hMem, hSpan⟩))

/-- What is picked of the places of events has no byte in common with the place of an event, unless
it is picked there. -/
theorem Follow.isApart_or {α : Type} {place? pick? : α → Option Span} {front behind : List α}
    {event : α} (h : Span.Follow offset ((front ++ event :: behind).filterMap place?))
    (hPlace : place? event = some place)
    (hPick : ∀ {other : α} {span : Span}, pick? other = some span → place? other = some span)
    (hSpan : span ∈ (front ++ event :: behind).filterMap pick?) :
    span.IsApart place ∨ pick? event = some span := by
  obtain ⟨other, hOther, hSome⟩ := List.mem_filterMap.1 hSpan
  have hMem : other = event ∨ other ∈ front ++ behind := by simpa [or_left_comm] using hOther
  obtain rfl | hMem := hMem
  · exact .inr hSome
  · exact .inl (h.isApart hPlace other hMem span (hPick hSome))

/-- What one token does to the places of a reading: it adds none, and only what it opens or what was
open before is open behind it; or it closes what is open, in front of itself or behind; or it is a
word. -/
inductive AddedBy (token : Token) : (before after : Option Nat) → List Span → Prop where
  | idle {before after : Option Nat}
      (h : ∀ start ∈ after, start = token.span.start ∨ start ∈ before) :
      AddedBy token before after []
  | closes {start stop : Nat} (hStop : stop = token.span.start ∨ stop = token.span.stop) :
      AddedBy token (some start) none [⟨start, stop⟩]
  | word : AddedBy token none none [token.span]

namespace AddedBy

variable {token : Token} {before after : Option Nat}

/-- What is open behind a token began in front of its end. -/
theorem start_le_stop (h : AddedBy token before after spans)
    (hOrder : token.span.start ≤ token.span.stop)
    (hBefore : ∀ start ∈ before, start ≤ token.span.start) :
    ∀ start ∈ after, start ≤ token.span.stop := by
  cases h with
  | idle h =>
      intro start hMem
      obtain rfl | hOpen := h start hMem
      · exact hOrder
      · exact (hBefore start hOpen).trans hOrder
  | closes hStop => simp
  | word => simp

/-- The places that a token adds stand in front of those that follow it. -/
theorem follow (h : AddedBy token before after spans)
    (hOrder : token.span.start ≤ token.span.stop)
    (hBefore : ∀ start ∈ before, start ≤ token.span.start)
    (hLater : Span.Follow (after.getD token.span.stop) places) :
    Span.Follow (before.getD token.span.start) (spans ++ places) := by
  cases h with
  | idle h =>
      refine hLater.mono ?_
      have hFrom : before.getD token.span.start ≤ token.span.start := by
        cases before with
        | none => exact Nat.le_refl _
        | some start => exact hBefore start rfl
      cases after with
      | none => exact hFrom.trans hOrder
      | some start =>
          obtain rfl | hOpen := h start rfl
          · exact hFrom
          · rw [show before = some start from hOpen]
            exact Nat.le_refl _
  | closes hStop =>
      have hStart := hBefore _ rfl
      obtain rfl | rfl := hStop
      · exact ⟨Nat.le_refl _, hStart, hLater.mono hOrder⟩
      · exact ⟨Nat.le_refl _, hStart.trans hOrder, hLater⟩
  | word => exact ⟨Nat.le_refl _, hOrder, hLater⟩

end AddedBy

/-- Every range is taken from one of the places, and those that have a byte of one place begin
together. -/
structure AreAnchored (places spans : List Span) : Prop where
  taken : ∀ span ∈ spans, span.start < span.stop →
    ∃ place ∈ places, place.start ≤ span.start ∧ span.stop ≤ place.stop
  together : ∀ place ∈ places, place.start < place.stop →
    ∃ offset, ∀ span ∈ spans, span.start < span.stop → span.IsApart place ∨ span.start = offset

/-- Ranges that have a byte in common begin together. -/
theorem AreAnchored.start_eq (h : AreAnchored places spans) (hSpan : span ∈ spans)
    (hOther : other ∈ spans) (hText : span.start < span.stop)
    (hOtherText : other.start < other.stop) (hMeet : ¬ span.IsApart other) :
    span.start = other.start := by
  obtain ⟨place, hPlace, hStart, hStop⟩ := h.taken span hSpan hText
  obtain ⟨offset, hTogether⟩ := h.together place hPlace (by omega)
  -- Both have a byte of the place that the first one is taken from.
  have hFirst : ¬ span.IsApart place := by
    rintro (hApart | hApart) <;> omega
  have hSecond : ¬ other.IsApart place := by
    rintro (hApart | hApart)
    · exact hMeet (.inr (hApart.trans hStart))
    · exact hMeet (.inl (hStop.trans hApart))
  exact ((hTogether span hSpan hText).resolve_left hFirst).trans
    ((hTogether other hOther hOtherText).resolve_left hSecond).symm

/-- Fewer spans are anchored at the same places. -/
theorem AreAnchored.mono {others : List Span} (h : AreAnchored places spans)
    (hSubset : others ⊆ spans) :
    AreAnchored places others where
  taken span hSpan := h.taken span (hSubset hSpan)
  together place hPlace hText :=
    let ⟨offset, hTogether⟩ := h.together place hPlace hText
    ⟨offset, fun span hSpan => hTogether span (hSubset hSpan)⟩

/-- What is taken from events is anchored in their places, if it lies there and begins together. -/
theorem Follow.areAnchored {α : Type} {place? : α → Option Span} {taken : α → List Span}
    {events : List α} (h : Span.Follow offset (events.filterMap place?))
    (hLies : ∀ event ∈ events, ∀ span ∈ taken event, ∃ place ∈ place? event, place.start ≤
      span.start ∧ span.stop ≤ place.stop)
    (hTogether : ∀ event, ∃ offset, ∀ span ∈ taken event, span.start = offset) :
    AreAnchored (events.filterMap place?) (events.flatMap taken) := by
  constructor
  case taken =>
    intro span hSpan _
    obtain ⟨event, hEvent, hTaken⟩ := List.mem_flatMap.1 hSpan
    obtain ⟨place, hPlace, hInside⟩ := hLies event hEvent span hTaken
    exact ⟨place, List.mem_filterMap.2 ⟨event, hEvent, hPlace⟩, hInside⟩
  case together =>
    intro place hPlace _
    obtain ⟨event, hEvent, hSome⟩ := List.mem_filterMap.1 hPlace
    obtain ⟨front, behind, rfl⟩ := List.append_of_mem hEvent
    obtain ⟨offset, hOffset⟩ := hTogether event
    refine ⟨offset, fun span hSpan _ => ?_⟩
    obtain ⟨other, hOther, hTaken⟩ := List.mem_flatMap.1 hSpan
    have hMem : other = event ∨ other ∈ front ++ behind := by simpa [or_left_comm] using hOther
    obtain rfl | hMem := hMem
    · exact .inr (hOffset span hTaken)
    · obtain ⟨home, hHome, hStart, hStop⟩ := hLies other hOther span hTaken
      obtain hBefore | hBehind := h.isApart hSome other hMem home hHome
      · exact .inl (.inl (hStop.trans hBefore))
      · exact .inl (.inr (hBehind.trans hStart))

end Span

namespace Word

variable {place : Span} {places : List Span} {word part : Word}

/-- If the word has a byte of the place, it begins at the offset. -/
def EntersAt (place : Span) (offset : Nat) (word : Word) : Prop :=
  word.span.stop = word.span.start + word.text.utf8ByteSize ∧
    (word.span.start < word.span.stop → word.span.IsApart place ∨ word.span.start = offset)

theorem entersAt_absent (place : Span) (offset other : Nat) :
    (Word.absent other).EntersAt place offset :=
  ⟨by simp [Word.absent, Span.empty], fun h => absurd h (Nat.lt_irrefl _)⟩

/-- The stem of a word begins where the word does. -/
theorem entersAt_rooted (place : Span) (offset : Nat) : Rooted (EntersAt place offset) where
  before _ := entersAt_absent ..
  behind _ := entersAt_absent ..
  stem {word} h := by
    obtain ⟨hSize, hEnters⟩ := h
    obtain ⟨-, -, hStop⟩ := word.isPartOf_stem.within hSize
    refine ⟨rfl, fun hText => ?_⟩
    have hWhole : word.span.start < word.span.stop := Nat.lt_of_lt_of_le hText hStop
    obtain (hApart | hApart) | hStart := hEnters hWhole
    · exact .inl (.inl (hStop.trans hApart))
    · exact .inl (.inr hApart)
    · exact .inr hStart

/-- What is taken from a word has no byte in common with a place that the word has none in common
with. -/
theorem IsPartOf.entersAt (h : part.IsPartOf word) (hApart : word.span.IsApart place)
    (hSize : word.span.stop = word.span.start + word.text.utf8ByteSize) (offset : Nat) :
    part.EntersAt place offset := by
  obtain ⟨⟨hFirst, hLast⟩, hPart⟩ := h _ (between_inherited word.span.start word.span.stop)
    ⟨⟨Nat.le_refl _, Nat.le_refl _⟩, hSize⟩
  refine ⟨hPart, fun _ => .inl ?_⟩
  obtain hApart | hApart := hApart
  · exact .inl (hLast.trans hApart)
  · exact .inr (hApart.trans hFirst)

/-- If the word has text, it is taken from one of the places. -/
def LiesIn (places : List Span) (word : Word) : Prop :=
  word.span.stop = word.span.start + word.text.utf8ByteSize ∧
    (word.span.start < word.span.stop → ∃ place ∈ places, place.start ≤ word.span.start ∧
      word.span.stop ≤ place.stop)

theorem liesIn_absent (places : List Span) (offset : Nat) : (Word.absent offset).LiesIn places :=
  ⟨by simp [Word.absent, Span.empty], fun h => absurd h (Nat.lt_irrefl _)⟩

/-- Whatever is taken from a recorded word, its base or its ends, lies in the place that the word
lies in. -/
theorem liesIn_inherited (places : List Span) : Inherited (LiesIn places) where
  before _ := liesIn_absent ..
  behind _ := liesIn_absent ..
  stop_eq h := h.1
  part {word} first middle last h hText := by
    obtain ⟨hSize, hPlace⟩ := h
    obtain ⟨⟨hFirst, hLast⟩, hPart⟩ :=
      (between_inherited word.span.start word.span.stop).part first middle last
        ⟨⟨Nat.le_refl _, Nat.le_refl _⟩, hSize⟩ hText
    refine ⟨hPart, fun hSome => ?_⟩
    obtain ⟨place, hMem, hStart, hStop⟩ := hPlace (by omega)
    exact ⟨place, hMem, hStart.trans hFirst, hLast.trans hStop⟩

end Word

/-- Where the ranges of words are anchored, names that are words or stems of words are so with
them. -/
theorem Span.AreAnchored.append_names {spans places : List Span} {words names : List Word}
    (h : Span.AreAnchored places spans)
    (hWords : ∀ word ∈ words,
      word.span ∈ spans ∧ word.span.stop = word.span.start + word.text.utf8ByteSize)
    (hNames : ∀ {P : Word → Prop}, Rooted P → (∀ offset, P (.absent offset)) →
      (∀ word ∈ words, P word) →
      ∀ word ∈ names, P word) : Span.AreAnchored places (spans ++ names.map (·.span)) := by
  constructor
  case taken =>
    intro span hSpan hText
    obtain hSpan | hName := List.mem_append.1 hSpan
    · exact h.taken span hSpan hText
    · obtain ⟨word, hWord, rfl⟩ := List.mem_map.1 hName
      refine (hNames (Word.liesIn_inherited places).rooted
        (Word.liesIn_absent places) ?_ word hWord).2 hText
      intro other hOther
      obtain ⟨hMem, hSize⟩ := hWords other hOther
      exact ⟨hSize, h.taken other.span hMem⟩
  case together =>
    intro place hPlace hText
    obtain ⟨offset, hTogether⟩ := h.together place hPlace hText
    refine ⟨offset, fun span hSpan => ?_⟩
    obtain hSpan | hName := List.mem_append.1 hSpan
    · exact hTogether span hSpan
    · obtain ⟨word, hWord, rfl⟩ := List.mem_map.1 hName
      refine (hNames (Word.entersAt_rooted place offset)
        (Word.entersAt_absent place offset) ?_ word hWord).2
      intro other hOther
      obtain ⟨hMem, hSize⟩ := hWords other hOther
      exact ⟨hSize, hTogether other.span hMem⟩

/-- The places of the events to come follow each other, and begin behind what is open, if that began
in front of the tokens. The end of the text closes what is still open. -/
theorem IsReader.follow_upcoming {ρ ε : Type} {read : ρ → Token → List Token → ρ}
    {readAll : ρ → List Token → ρ} {readOver : ρ → List Token → List Token → ρ}
    {events : ρ → Array ε} {added : Array ε → ρ → ρ} {forget : ρ → ρ}
    {emitted : ρ → Token → List Token → List ε}
    {emittedOver : ρ → List Token → List Token → List ε} {finish : ρ → Nat → Array ε}
    {upcoming : Nat → ρ → List Token → List ε} {place? : ε → Option Span}
    {opened? : ρ → Option Nat} {tokens : List Token} {size offset stop : Nat}
    (h : IsReader read readAll readOver events added forget emitted emittedOver finish upcoming)
    (hRead : ∀ reader token rest, Span.AddedBy token (opened? reader)
      (opened? (read reader token rest)) ((emitted reader token rest).filterMap place?))
    (hFinish : ∀ reader, (finish (forget reader) size).toList.filterMap place? =
      ((opened? reader).map (⟨·, size⟩)).toList)
    (reader : ρ) (hContiguous : Contiguous offset tokens stop) (hSize : stop ≤ size)
    (hOpened : ∀ start ∈ opened? reader, start ≤ offset) :
    Span.Follow ((opened? reader).getD offset)
      ((upcoming size reader tokens).filterMap place?) := by
  induction tokens generalizing reader offset with
  | nil =>
      have hEnd : offset ≤ size := (Nat.le_of_eq hContiguous).trans hSize
      rw [h.upcoming_def, h.readAll_nil, hFinish]
      cases hCase : opened? reader with
      | none => exact trivial
      | some start => exact ⟨Nat.le_refl _, (hOpened start hCase).trans hEnd, trivial⟩
  | cons token rest ih =>
      obtain ⟨rfl, hOrder, hRest⟩ := hContiguous
      have hAdded := hRead reader token rest
      rw [h.upcoming_eq, List.filterMap_append]
      exact hAdded.follow hOrder hOpened
        (ih (read reader token rest) hRest (hAdded.start_le_stop hOrder hOpened))

end HdlIndex

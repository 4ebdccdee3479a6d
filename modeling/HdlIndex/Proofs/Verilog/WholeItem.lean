import HdlIndex.Proofs.Verilog.Inside
import HdlIndex.Proofs.Verilog.Seeking

/-! One whole item, as the walk delimits it. A condition that is in force for the next item only is
in force up to the last word of the item. How far that is does not depend on what is open around the
item: in every context the walk ends the item there, and finds the same on the way. -/
namespace HdlIndex.Verilog

/-- A condition is in force for the next item, and nothing else is open. -/
def Context.ofItem :
    Context := { frames := [{ condition := "", otherwise := "", owner := 0, single := true }] }

/-- An item that is put in front of the walk ends with the innermost condition of the context, or it
leads to the next choice of the innermost case. -/
structure Context.IsForItem (context : Context) : Prop extends context.IsClosed where
  ends : ∃ top ∈ context.frames.head?, top.owner = context.blocks ∧
    (top.single = true ∨ top.selector.isSome = true)

theorem Context.isForItem_ofItem : Context.ofItem.IsForItem where
  awaiting := by simp [ofItem]
  owner := by simp [ofItem]
  ends := by simp [ofItem]

namespace Walk

/-- The walk in front of an item that a condition is in force for. -/
def beforeItem : Walk := { place := .moduleBody, frames := Context.ofItem.frames }

/-- As long as the condition is in force, the event leaves alone what is open around the item.
Behind the item it is a part of a label, or it is no word. -/
def takes (walk : Walk) (event : Event) : Bool :=
  walk.isLabel event || ! walk.frames.isEmpty && walk.goesOn .ofItem event

/-- The walk takes the events, and behind the last one the condition is in force no more. -/
def readsItem : Walk → List Event → Bool
  | walk, [] => walk.frames.isEmpty && walk.label = .idle
  | walk, event :: events => walk.takes event && (walk.step event).readsItem events

variable {exact : Prop} {context context' : Context} {probe walk other : Walk} {found : Findings}
  {notes : List Note} {event : Event} {here : Lexeme} {next : Option Lexeme}

/-- Whether an event is part of a label depends on what is expected of one. -/
theorem isLabel_congr (h : other.label = walk.label) (event : Event) :
    other.isLabel event = walk.isLabel event := by
  cases event with
  | word here next =>
      rw [isLabel, isLabel]
      obtain hNone | ⟨later, change, hRead⟩ := readLabel?_cases walk.label here
      · rw [hNone other h, hNone walk rfl]
      · rw [hRead other h, hRead walk rfl]
        rfl
  | _ => rfl

/-- Behind an item as many frames are left as were below those that end with it. -/
theorem length_framesBehind (blocks : Nat) (frames : List Frame) :
    (framesBehind blocks frames).length =
      (frames.dropWhile (Frame.endsWithItem blocks)).length := by
  have hDrop : (frames.dropWhile fun frame => frame.single && blocks ≤ frame.owner) =
      frames.dropWhile (Frame.endsWithItem blocks) := rfl
  rw [framesBehind, hDrop]
  cases frames.dropWhile (Frame.endsWithItem blocks) with
  | nil => rfl
  | cons top rest =>
      dsimp only
      split <;> rfl

/-- Behind the end of an item the walk is in front of it no more. -/
theorem endItem_ne_inside (h : context.IsForItem) {own own' : Walk} {found found' : Findings}
    {notes notes' : List Note} (hOver : own.IsOver) :
    (own.inside context found notes).endItem ≠ own'.inside context found' notes' := by
  intro hSame
  obtain ⟨top, hTop, hOwner, hEnds⟩ := h.ends
  obtain ⟨rest, hFrames⟩ := List.head?_eq_some_iff.1 hTop
  have hBehind : framesBehind context.blocks (top :: rest) =
      own'.frames.map (·.raised context.blocks) ++ top :: rest := by
    have hBoth := congrArg (·.frames) hSame
    simpa [endItem_eq, inside, hOver.frames, hOver.blocks, hFrames] using hBoth
  cases hSingle : top.single with
  | true =>
      have hLength := congrArg List.length hBehind
      have hEnd : top.endsWithItem context.blocks = true := by
        simp [Frame.endsWithItem, hSingle, hOwner]
      have hLe := (List.dropWhile_sublist (Frame.endsWithItem context.blocks) (l := rest)).length_le
      rw [length_framesBehind, List.dropWhile_cons_of_pos hEnd] at hLength
      simp at hLength
      omega
  | false =>
      have hSelector := hEnds.resolve_left (by simp [hSingle])
      have hStays : framesBehind context.blocks (top :: rest) =
          { top with awaiting := true } :: rest := by
        simp [framesBehind, hSingle, hOwner, hSelector]
      rw [hStays] at hBehind
      have hLength := congrArg List.length hBehind
      have hOwn : own'.frames = [] := by simpa using hLength
      rw [hOwn] at hBehind
      have hAwaiting := congrArg Frame.awaiting (List.head_eq_of_cons_eq hBehind)
      rw [h.awaiting top hTop] at hAwaiting
      cases hAwaiting

namespace Abreast

theorem isSome_readLabel? (h : Abreast exact context context' walk other) (here : Lexeme) :
    (other.readLabel? here).isSome = (walk.readLabel? here).isSome :=
  isLabel_congr h.label (.word here none)

/-- The walks look for the same word behind the next one. -/
theorem seeks (h : Abreast exact context context' walk other) (hClosed : context.IsClosed)
    (hClosed' : context'.IsClosed) (here : Lexeme) : other.seeks here = walk.seeks here := by
  have hAwaits : other.awaitsChoice = walk.awaitsChoice := by
    cases h with
    | intro notes notes' hAlike hFound =>
        rw [awaitsChoice_inside hClosed, awaitsChoice_inside hClosed', hAlike.awaitsChoice]
  rw [Walk.seeks, Walk.seeks, h.isSome_readLabel?, h.place]
  simp only [seeksItem, hAwaits]

/-- Walks that are abreast stay inside of their contexts at the same words. -/
theorem staysInside (h : Abreast exact context context' walk other) (here : Lexeme) :
    other.staysInside context' here = walk.staysInside context here := by
  have hPlace := h.place
  cases h with
  | intro notes notes' hAlike hFound =>
      rw [Walk.staysInside, Walk.staysInside, hPlace]
      split
      · simp [inside, hAlike.blocks]
      · simp [inside, Frame.raised, Function.comp_def, hAlike.any_selector]
      · rfl
      · rfl
      · rfl
      · rfl
      · simp [inside, hAlike.length_frames]
      · rfl

/-- Walks abreast go on with their items or end them at the same events. -/
theorem goesOn (h : Abreast exact context context' walk other) (event : Event) :
    other.goesOn context' event = walk.goesOn context event := by
  cases event with
  | word here next => rw [Walk.goesOn, Walk.goesOn, h.isSome_readLabel?, h.staysInside]
  | _ => rfl

theorem frames_ne_nil (h : Abreast exact .ofItem context walk other) :
    walk.frames.isEmpty = false := by
  cases h with
  | intro notes notes' hAlike hFound => simp [inside, Context.ofItem]

end Abreast

theorem PastItem.frames (h : PastItem exact .ofItem context walk other) : walk.frames = [] := by
  cases h with
  | intro notes notes' hAlike hFound hOver hPlace =>
      simp [endItem_eq, inside, Context.ofItem, framesBehind, hOver.frames, hOver.blocks]

/-- No walk is in front of the end of an item and behind it. -/
theorem Abreast.not_pastItem {exact' : Prop} {outer outer' : Context} (hFor : context.IsForItem)
    (h : Abreast exact outer context probe walk) (h' : PastItem exact' context outer' walk other) :
    False := by
  cases h with
  | intro notes notes' hAlike hFound =>
      generalize hWalk : Walk.inside context _ _ _ = walk at h'
      cases h' with
      | intro notes notes' hAlike hFound hOver hPlace =>
          exact endItem_ne_inside hFor hOver hWalk.symm

/-- A walk that is past the item has left a frame of its context, so that it is no longer abreast
with one inside. -/
theorem PastItem.not_abreast {exact' : Prop} {outer outer' : Context} (hFor : context.IsForItem)
    (h : PastItem exact outer context probe walk) (h' : Abreast exact' context outer' walk other) :
    False := by
  cases h with
  | intro notes notes' hAlike hFound hOver hPlace =>
      generalize hWalk : Walk.endItem _ = walk at h'
      cases h' with
      | intro notes notes' _ _ => exact endItem_ne_inside hFor (hAlike.isOver hOver) hWalk

/-- Two walks read an item in contexts with the same conditions, as the walk in front of the item
does. -/
inductive Flanks (context context' : Context) (probe walk other : Walk) : Prop where
  | amid (h : Abreast False .ofItem context probe walk)
      (h' : Abreast True context context' walk other)
  | past (h : PastItem False .ofItem context probe walk)
      (h' : PastItem True context context' walk other)

theorem goesOn_of_isLabel (h : walk.isLabel event = true) : walk.goesOn context event = true := by
  cases event with
  | word here next =>
      rw [isLabel] at h
      rw [goesOn, h, Bool.true_or]
  | ended offset => cases h
  | _ => rfl

theorem seeks_of_isLabel (h : walk.isLabel (.word here next) = true) : walk.seeks here = [] := by
  rw [isLabel] at h
  rw [seeks, if_pos h]

/-- What is sought behind the item is what the probe seeks behind it, on both sides. -/
theorem Flanks.seeksBehind (hFor : context.IsForItem) (hClosed : context'.IsClosed)
    (h : Flanks context context' probe walk other) (hTakes : probe.takes event = true)
    (symbols : List Symbol) :
    walk.seeksBehind symbols event = probe.seeksBehind symbols event ∧
      other.seeksBehind symbols event = probe.seeksBehind symbols event := by
  cases event with
  | word here next =>
      rw [Walk.seeksBehind, Walk.seeksBehind, Walk.seeksBehind]
      cases h with
      | amid h h' =>
          rw [h'.seeks hFor.toIsClosed hClosed,
            h.seeks Context.isForItem_ofItem.toIsClosed hFor.toIsClosed]
          exact ⟨rfl, rfl⟩
      | past h h' =>
          rw [takes, h.frames, List.isEmpty_nil, Bool.not_true, Bool.false_and,
            Bool.or_false] at hTakes
          have hLabel := (isLabel_congr h.label (.word here next)).trans hTakes
          have hLabel' := (isLabel_congr h'.label (.word here next)).trans hLabel
          rw [seeks_of_isLabel hTakes, seeks_of_isLabel hLabel, seeks_of_isLabel hLabel']
          exact ⟨rfl, rfl⟩
  | _ => exact ⟨rfl, rfl⟩

section Flanking

variable (hFor : context.IsForItem) (hClosed : context'.IsClosed)
  (hConditions : conditionsOf context'.frames = conditionsOf context.frames)

include hFor hClosed hConditions

/-- The item goes on in both contexts or ends in both. -/
theorem Flanks.step (h : Flanks context context' probe walk other)
    (hTakes : probe.takes event = true) :
    Flanks context context' (probe.step event) (walk.step event) (other.step event) := by
  rw [takes, Bool.or_eq_true, Bool.and_eq_true] at hTakes
  cases h with
  | amid h h' =>
      have hGoes : probe.goesOn .ofItem event = true := hTakes.elim goesOn_of_isLabel And.right
      have hGoes' : walk.goesOn context event = true := (h.goesOn event).trans hGoes
      rcases h.step nofun Context.isForItem_ofItem.toIsClosed hFor.toIsClosed hGoes,
        h'.step (fun _ => hConditions) hFor.toIsClosed hClosed hGoes' with ⟨hNext | hNext,
          hNext' | hNext'⟩
      · exact .amid hNext hNext'
      · exact (hNext.not_pastItem hFor hNext').elim
      · exact (hNext.not_abreast hFor hNext').elim
      · exact .past hNext hNext'
  | past h h' =>
      have hLabel : probe.isLabel event = true := hTakes.resolve_right (by simp [h.frames])
      exact .past (h.step hLabel) (h'.step ((isLabel_congr h.label event).trans hLabel))

/-- Behind a whole item both walks have ended it, and have looked ahead for the same. -/
theorem Flanks.run {events : List Event} (h : Flanks context context' probe walk other)
    (hReads : probe.readsItem events = true) :
    PastItem True context context' (walk.run events) (other.run events) ∧
    (walk.run events).label = .idle ∧
      ∀ symbols, walk.sought events symbols = probe.sought events symbols ∧
        other.sought events symbols = probe.sought events symbols := by
  induction events generalizing probe walk other with
  | nil =>
      rw [readsItem, Bool.and_eq_true, decide_eq_true_iff] at hReads
      cases h with
      | amid h h' => simp [h.frames_ne_nil] at hReads
      | past h h' => exact ⟨h', h.label.trans hReads.2, fun _ => ⟨rfl, rfl⟩⟩
  | cons event events ih =>
      rw [readsItem, Bool.and_eq_true] at hReads
      obtain ⟨hEnd, hIdle, hSought⟩ := ih (h.step hFor hClosed hConditions hReads.1) hReads.2
      refine ⟨hEnd, hIdle, fun symbols => ?_⟩
      obtain ⟨hHere, hHere'⟩ := h.seeksBehind hFor hClosed hReads.1 symbols
      rw [sought, sought, sought, hHere, hHere']
      exact hSought _

end Flanking

section Elsewhere

variable {move : Nat → Nat}

theorem isLabel_moved (move : Nat → Nat) (walk : Walk) (event : Event) :
    (walk.moved move).isLabel (event.moved move) = walk.isLabel event := by
  cases event with
  | word here next => rw [Event.moved, isLabel, isLabel, readLabel?_moved, Option.isSome_map]
  | _ => rfl

theorem staysInside_moved (context : Context) (move : Nat → Nat) (walk : Walk) (here : Lexeme) :
    (walk.moved move).staysInside context (here.moved move) = walk.staysInside context here := by
  have hPlace : (walk.moved move).place = walk.place.moved move := rfl
  rw [staysInside, staysInside, hPlace]
  cases walk.place <;> rfl

/-- Whether an event is taken does not depend on places. -/
theorem takes_moved (move : Nat → Nat) (walk : Walk) (event : Event) :
    (walk.moved move).takes (event.moved move) = walk.takes event := by
  have hGoes : (walk.moved move).goesOn .ofItem (event.moved move) = walk.goesOn .ofItem event := by
    cases event with
    | word here next =>
        rw [Event.moved, goesOn, goesOn, readLabel?_moved, Option.isSome_map, staysInside_moved]
    | _ => rfl
  rw [takes, takes, isLabel_moved, hGoes]
  rfl

theorem seeks_moved (move : Nat → Nat) (walk : Walk) (here : Lexeme) :
    (walk.moved move).seeks (here.moved move) = walk.seeks here := by
  have hPlace : (walk.moved move).place = walk.place.moved move := rfl
  rw [seeks, seeks, readLabel?_moved, Option.isSome_map, hPlace]
  cases walk.place <;> rfl

theorem seeksBehind_moved (move : Nat → Nat) (walk : Walk) (symbols : List Symbol) (event : Event) :
    (walk.moved move).seeksBehind symbols (event.moved move) = walk.seeksBehind symbols event := by
  cases event with
  | word here next => exact seeks_moved move walk here
  | _ => rfl

/-- An item is an item wherever it stands, and looks for the same words behind it. -/
theorem readsItem_moved {events : List Event} (h : walk.All (·.IsRigid move) (fun _ => True))
    (hMove : Monotone move) (hEvents : ∀ event ∈ events, event.All (·.IsRigid move)) :
    (walk.moved move).readsItem (events.map (·.moved move)) = walk.readsItem events ∧
      ∀ symbols, (walk.moved move).sought (events.map (·.moved move)) symbols =
        walk.sought events symbols := by
  induction events generalizing walk with
  | nil => exact ⟨rfl, fun _ => rfl⟩
  | cons event events ih =>
      rw [List.forall_mem_cons] at hEvents
      obtain ⟨hReads, hSought⟩ := ih (h.step (isRigid_located move) hEvents.1) hEvents.2
      rw [List.map_cons, readsItem, readsItem, takes_moved, step_moved h hMove, hReads]
      refine ⟨rfl, fun symbols => ?_⟩
      rw [sought, sought, seeksBehind_moved, step_moved h hMove, hSought]

end Elsewhere

end Walk

end HdlIndex.Verilog

import HdlIndex.Proofs.Verilog.Alike
import HdlIndex.Proofs.Verilog.GenerateFrames
import Mathlib.Data.List.TakeWhile

/-! A walk inside of what is open around an item. It does to the conditions and blocks of the item
what it does to them alone, as long as it closes nothing that is open around it; only the end of the
item goes on to the conditions outside. So two walks that read the same item in different contexts
end it with the same word, and with the same conditions around them they find the same. -/
namespace HdlIndex.Verilog

/-- What is open around an item. -/
structure Context where
  /-- The conditions in force, innermost first. -/
  frames : List Frame := []
  /-- The open blocks. -/
  blocks : Nat := 0
  /-- The numbers of conditions in front of the open generate regions. -/
  bases : List Nat := []

/-- No choice is to come, and no condition waits for a block. -/
structure Context.IsClosed (context : Context) : Prop where
  awaiting : ∀ top ∈ context.frames.head?, top.awaiting = false
  owner : ∀ top ∈ context.frames.head?, top.owner ≤ context.blocks

/-- The condition with so many more blocks around it. -/
def Frame.raised (blocks : Nat) (frame : Frame) :
    Frame := { frame with owner := blocks + frame.owner }

/-- The condition ends with an item that leaves so many blocks open. -/
def Frame.endsWithItem (blocks : Nat) (frame : Frame) : Bool := frame.single && blocks ≤ frame.owner

/-- The condition ends with a block that leaves so many blocks open. -/
def Frame.endsWithBlock (blocks : Nat) (frame : Frame) : Bool :=
  frame.selector.isNone && ! frame.single && blocks < frame.owner

theorem Frame.endsWithItem_raised (count blocks : Nat) (frame : Frame) :
    (frame.raised count).endsWithItem (count + blocks) = frame.endsWithItem blocks := by
  simp [endsWithItem, raised]

theorem Frame.endsWithBlock_raised (count blocks : Nat) (frame : Frame) :
    (frame.raised count).endsWithBlock (count + blocks) = frame.endsWithBlock blocks := by
  simp [endsWithBlock, raised]

namespace Walk

/-- The walk through an item, inside of a context. It has found something in front of the item. -/
def inside (context : Context) (found : Findings) (notes : List Note) (walk : Walk) : Walk :=
  { walk with
    frames := walk.frames.map (·.raised context.blocks) ++ context.frames
    blocks := context.blocks + walk.blocks
    bases := context.bases
    found, notes }

/-- Nothing that the item has opened is open. -/
structure IsOver (walk : Walk) : Prop where
  frames : walk.frames = []
  blocks : walk.blocks = 0

/-- The walk inside of the context, or behind the end of the item there if the item is over. -/
def EndsInside (context : Context) (found : Findings) (notes : List Note) (walk other : Walk) :
    Prop :=
  ¬ walk.IsOver ∧ other = walk.inside context found notes ∨
    walk.IsOver ∧ other = (walk.inside context found notes).endItem

section Leaving

variable {context : Context} {walk other : Walk} {top : Frame} {rest : List Frame}
  {ends ends' : Frame → Bool}

/-- A condition that ends is left, and then the ones outside of it. -/
theorem leaveFrames_cons (hFrames : walk.frames = top :: rest) (hTop : ends top = true) :
    walk.leaveFrames ends =
      ({ walk with frames := rest, pendingElse := some top.otherwise } : Walk).leaveFrames
        ends := by
  simp only [leaveFrames, hFrames, List.takeWhile_cons, List.dropWhile_cons, hTop, if_true]
  cases hLeft : rest.takeWhile ends with
  | nil => rfl
  | cons frame frames =>
      have hLast : (frame :: frames).getLast? ≠ none := by simp
      obtain ⟨last, hLast⟩ := Option.ne_none_iff_exists'.1 hLast
      rw [List.getLast?_cons_cons, hLast]

/-- What is left in front does not end. -/
theorem head_leaveFrames (walk : Walk) (ends : Frame → Bool) :
    ∀ top ∈ (walk.leaveFrames ends).frames.head?, ends top = false := by
  intro top hTop
  have hHead := List.head?_dropWhile_not ends walk.frames
  have hDrop : (walk.frames.dropWhile ends).head? = some top := hTop
  rw [hDrop] at hHead
  simpa using hHead

/-- Walks that leave the same conditions behind end an item alike. -/
theorem endItem_congr (h : walk.leaveFrames (Frame.endsWithItem walk.blocks) =
    other.leaveFrames (Frame.endsWithItem other.blocks)) : walk.endItem = other.endItem := by
  have hLeft : (walk.leaveFrames fun frame => frame.single && walk.blocks ≤ frame.owner) =
      other.leaveFrames fun frame => frame.single && other.blocks ≤ frame.owner := h
  rw [endItem, endItem, hLeft]

/-- Where no condition ends, at most the next choice of a case is to come. -/
theorem endItem_of_head (h : ∀ top ∈ walk.frames.head?, top.endsWithItem walk.blocks = false) :
    walk.endItem =
      match walk.frames with
      | [] => walk
      | top :: rest =>
        if top.selector.isSome && top.owner = walk.blocks then
          { walk with frames := { top with awaiting := true } :: rest }
        else walk := by
  have hLeft : walk.leaveFrames (fun frame => frame.single && walk.blocks ≤ frame.owner) = walk :=
    leaveFrames_eq_self h
  unfold endItem
  exact hLeft.symm ▸ rfl

/-- Where a block is open inside of the innermost condition, the end of an item changes nothing. -/
theorem endItem_of_owner_lt (h : ∀ top ∈ walk.frames.head?, top.owner < walk.blocks) :
    walk.endItem = walk := by
  rw [endItem_of_head fun top hTop => by simp [Frame.endsWithItem, h top hTop]]
  split
  · rfl
  · next top rest hFrames =>
    have hOwner := h top (by rw [hFrames]; rfl)
    rw [if_neg (by simp [hOwner.ne])]

end Leaving

section Inside

variable {context : Context} {found : Findings} {notes : List Note} {walk : Walk}
  {ends ends' : Frame → Bool} {here : Lexeme} {next : Option Lexeme} {depth : Nat} {expr : Capture}

/-- The conditions of the item are left like those of the item alone, and then those outside. -/
theorem leaveFrames_inside
    (hEnds : ∀ frame : Frame, ends' (frame.raised context.blocks) = ends frame) :
    (walk.inside context found notes).leaveFrames ends' =
      ((walk.leaveFrames ends).inside context found notes).leaveFrames ends' := by
  generalize hFrames : walk.frames = frames
  induction frames generalizing walk with
  | nil =>
      have hSame : walk.leaveFrames ends = walk := leaveFrames_eq_self (by simp [hFrames])
      rw [hSame]
  | cons top rest ih =>
      cases hTop : ends top with
      | false =>
          have hSame : walk.leaveFrames ends = walk := leaveFrames_eq_self (by simp [hFrames, hTop])
          rw [hSame]
      | true =>
          have hInside : (walk.inside context found notes).frames =
              top.raised context.blocks ::
                (rest.map (·.raised context.blocks) ++ context.frames) := by
            rw [inside, hFrames]
            rfl
          rw [leaveFrames_cons hInside ((hEnds top).trans hTop),
            leaveFrames_cons hFrames hTop, ← ih rfl]
          rfl

/-- Where the conditions outside do not end, only conditions of the item are left. -/
theorem leaveFrames_inside_of_head
    (hEnds : ∀ frame : Frame, ends' (frame.raised context.blocks) = ends frame)
    (hOuter : ∀ top ∈ context.frames.head?, ends' top = false) :
    (walk.inside context found notes).leaveFrames ends' =
      (walk.leaveFrames ends).inside context found notes := by
  rw [leaveFrames_inside hEnds]
  refine leaveFrames_eq_self fun top hTop => ?_
  have hHead := walk.head_leaveFrames ends
  rw [inside] at hTop
  cases hFrames : (walk.leaveFrames ends).frames with
  | nil =>
      rw [hFrames] at hTop
      exact hOuter top hTop
  | cons frame rest =>
      rw [hFrames] at hTop hHead
      obtain rfl := Option.some.inj hTop
      exact (hEnds frame).trans (hHead frame rfl)

/-- The end of an item inside of the item is as it is alone. Behind the end of the item itself the
conditions outside are left. -/
theorem endItem_inside (hClosed : context.IsClosed) :
    walk.endItem.EndsInside context found notes (walk.inside context found notes).endItem := by
  set left := walk.leaveFrames (Frame.endsWithItem walk.blocks) with hLeft
  have hSame : walk.endItem = left.endItem :=
    endItem_congr (leaveFrames_eq_self (walk.head_leaveFrames _)).symm
  have hInside : (walk.inside context found notes).endItem =
      (left.inside context found notes).endItem :=
    endItem_congr (leaveFrames_inside (Frame.endsWithItem_raised context.blocks walk.blocks))
  have hHead : ∀ top ∈ left.frames.head?, top.endsWithItem left.blocks = false :=
    walk.head_leaveFrames _
  rw [hSame, hInside, endItem_of_head hHead]
  cases hFrames : left.frames with
  | nil =>
      by_cases hBlocks : left.blocks = 0
      · exact .inr ⟨⟨hFrames, hBlocks⟩, rfl⟩
      · refine .inl ⟨fun h => hBlocks h.blocks, endItem_of_owner_lt fun top hTop => ?_⟩
        rw [inside, hFrames] at hTop
        have hOwner := hClosed.owner top hTop
        show top.owner < context.blocks + left.blocks
        omega
  | cons top rest =>
      have hOuter : (left.inside context found notes).frames =
          top.raised context.blocks :: (rest.map (·.raised context.blocks) ++ context.frames) := by
        rw [inside, hFrames]
        rfl
      have hAwaits : ((top.raised context.blocks).selector.isSome &&
          decide ((top.raised context.blocks).owner = (left.inside context found notes).blocks)) =
          (top.selector.isSome && decide (top.owner = left.blocks)) := by
        simp [Frame.raised, inside]
      have hRaised : ∀ frame ∈ (left.inside context found notes).frames.head?,
          frame.endsWithItem (left.inside context found notes).blocks = false := by
        intro frame hFrame
        rw [hOuter] at hFrame
        obtain rfl := Option.some.inj hFrame
        exact (Frame.endsWithItem_raised context.blocks left.blocks top).trans
          (hHead top (by rw [hFrames]; rfl))
      rw [endItem_of_head hRaised, hOuter]
      dsimp only
      rw [hAwaits]
      left
      split
      · exact ⟨fun h => List.cons_ne_nil _ _ h.frames, rfl⟩
      · exact ⟨fun h => List.cons_ne_nil top rest (hFrames.symm.trans h.frames), rfl⟩

/-- The end of a block of the item is as it is alone. -/
theorem closeBlock_inside (hClosed : context.IsClosed) (hBlocks : 0 < walk.blocks) :
    walk.closeBlock.EndsInside context found notes
      (walk.inside context found notes).closeBlock := by
  set closed : Walk := { walk with blocks := walk.blocks - 1 } with hWalk
  have hSame : { walk.inside context found notes with
      blocks := (walk.inside context found notes).blocks - 1 } =
        closed.inside context found notes := by
    rw [hWalk, inside, inside]
    dsimp only
    rw [Nat.add_sub_assoc hBlocks]
  have hLeft : (closed.inside context found notes).leaveFrames
      (Frame.endsWithBlock (context.blocks + closed.blocks)) =
        (closed.leaveFrames (Frame.endsWithBlock closed.blocks)).inside context found notes := by
    refine leaveFrames_inside_of_head (Frame.endsWithBlock_raised context.blocks closed.blocks) ?_
    intro top hTop
    have hOwner := hClosed.owner top hTop
    have hKept : ¬ context.blocks + closed.blocks < top.owner := by omega
    simp [Frame.endsWithBlock, hKept]
  have hClose : (walk.inside context found notes).closeBlock =
      ((closed.inside context found notes).leaveFrames
      (Frame.endsWithBlock (context.blocks + closed.blocks))).endItem := by
    rw [closeBlock, hSame]
    rfl
  rw [hClose, hLeft]
  exact endItem_inside hClosed

/-- The end of a case of the item is as it is alone. -/
theorem closeCase_inside (hClosed : context.IsClosed)
    (hCase : walk.frames.any (·.selector.isSome) = true) :
    walk.closeCase.EndsInside context found notes (walk.inside context found notes).closeCase := by
  have hDrop : (walk.frames.map (Frame.raised context.blocks)).dropWhile (·.selector.isNone) =
      (walk.frames.dropWhile (·.selector.isNone)).map (Frame.raised context.blocks) := by
    rw [List.dropWhile_map]
    rfl
  cases hFrames : walk.frames.dropWhile (·.selector.isNone) with
  | nil =>
      obtain ⟨frame, hMem, hSome⟩ := List.any_eq_true.1 hCase
      have hNone := List.dropWhile_eq_nil_iff.1 hFrames frame hMem
      rw [Option.isNone_iff_eq_none] at hNone
      rw [hNone] at hSome
      cases hSome
  | cons top rest =>
      have hOuter : (walk.inside context found notes).frames.dropWhile (·.selector.isNone) =
          top.raised context.blocks ::
            (rest.map (Frame.raised context.blocks) ++ context.frames) := by
        show ((walk.frames.map _) ++ context.frames).dropWhile _ = _
        rw [List.dropWhile_append, hDrop, hFrames]
        rfl
      have hRest : ({ walk with frames := rest } : Walk).endItem.EndsInside context found notes
          (({ walk with frames := rest } : Walk).inside context found notes).endItem :=
          endItem_inside hClosed
      rw [closeCase, closeCase, hFrames, hOuter]
      exact hRest

/-- Within the item and in front of it, a choice of the item is awaited or none. -/
theorem awaitsChoice_inside (hClosed : context.IsClosed) :
    (walk.inside context found notes).awaitsChoice = walk.awaitsChoice := by
  have hFrames : (walk.inside context found notes).frames =
      walk.frames.map (Frame.raised context.blocks) ++ context.frames := rfl
  rw [awaitsChoice, awaitsChoice, hFrames]
  cases hOwn : walk.frames with
  | nil =>
      cases hOuter : context.frames with
      | nil => rfl
      | cons top rest => simp [hClosed.awaiting top (by rw [hOuter]; rfl)]
  | cons top rest => simp [Frame.raised, inside]

theorem enterFrame_inside (context : Context) (found : Findings) (notes : List Note) (walk : Walk)
    (condition otherwise : String) (next : Option Lexeme) :
    ∃ later, (walk.inside context found notes).enterFrame condition otherwise next =
      (walk.enterFrame condition otherwise next).inside context found later := by
  rw [enterFrame, enterFrame]
  cases isNext next (.keyword .begin) with
  | false => exact ⟨_, rfl⟩
  | true => exact ⟨_, rfl⟩

/-- A walk inside of a context reads an `else` as it does by itself. What it notes is added to the
notes of the context. -/
theorem readElse_inside (context : Context) (found : Findings) (notes : List Note) (walk : Walk)
    (next : Option Lexeme) :
    ∃ later, (walk.inside context found notes).readElse next =
      (walk.readElse next).inside context found later := by
  rw [readElse, readElse]
  dsimp only
  split
  · exact ⟨_, rfl⟩
  · exact enterFrame_inside context found notes { walk with pendingElse := none } _ _ _

theorem enterGenerate_inside (context : Context) (found : Findings) (notes : List Note)
    (walk : Walk) (kind : GenerateKind) (header : String) (next : Option Lexeme) :
    ∃ later, (walk.inside context found notes).enterGenerate kind header next =
      (walk.enterGenerate kind header next).inside context found later := by
  cases kind with
  | «if» => exact enterFrame_inside context found notes { walk with chained := none } _ _ _
  | «for» => exact enterFrame_inside context found notes walk _ _ _
  | case => exact ⟨_, rfl⟩

/-- The header of a generate statement is read inside of a context as it is outside of it. -/
theorem readGenerate_inside (context : Context) (found : Findings) (notes : List Note) (walk : Walk)
    (kind : GenerateKind) (depth : Nat) (expr : Capture) (here : Lexeme) (next : Option Lexeme) :
    ∃ later, (walk.inside context found notes).readGenerate kind depth expr here next =
      (walk.readGenerate kind depth expr here next).inside context found later := by
  unfold readGenerate
  dsimp only
  split
  · exact ⟨_, rfl⟩
  split
  · exact ⟨_, rfl⟩
  split
  · obtain ⟨later, hEnter⟩ := enterGenerate_inside context found notes walk kind expr.text next
    rw [hEnter]
    exact ⟨later, rfl⟩
  split
  · exact ⟨_, rfl⟩
  split
  · exact ⟨_, rfl⟩
  · exact ⟨notes, rfl⟩

/-- The choice belongs to a case of the item. -/
theorem readChoice_inside (hOwn : walk.frames ≠ []) :
    (walk.inside context found notes).readChoice depth expr here =
      (walk.readChoice depth expr here).inside context found notes := by
  obtain ⟨top, rest, hFrames⟩ := List.exists_cons_of_ne_nil hOwn
  have hInside : (walk.inside context found notes).frames =
      top.raised context.blocks :: (rest.map (Frame.raised context.blocks) ++ context.frames) := by
    rw [inside, hFrames]
    rfl
  unfold readChoice
  dsimp only
  rw [hInside, hFrames]
  split
  · rfl
  split
  · rfl
  split <;> rfl

end Inside

/-- The word leaves alone what is open around the item: it closes a block, a case or a choice of the
item only, and no generate region and no module. -/
def staysInside (context : Context) (walk : Walk) (here : Lexeme) : Bool :=
  match walk.place, here.symbol with
  | .moduleBody, .keyword .end => context.blocks < walk.blocks
  | .moduleBody, .keyword .endcase =>
    (walk.frames.take (walk.frames.length - context.frames.length)).any (·.selector.isSome)
  | .moduleBody, .keyword .generate | .moduleBody, .keyword .endgenerate
  | .moduleBody, .keyword .endmodule | .moduleHeader _, _ => false
  | .generateChoice .., _ => context.frames.length < walk.frames.length
  | _, _ => true

/-- The event leaves alone what is open around the item. -/
def goesOn (context : Context) (walk : Walk) : Event → Bool
  | .word here _ => (walk.readLabel? here).isSome || walk.staysInside context here
  | .ended _ => false
  | _ => true

/-- The event is a part of a label, or it is no word. -/
def isLabel (walk : Walk) : Event → Bool
  | .word here _ => (walk.readLabel? here).isSome
  | .ended _ => false
  | _ => true

variable {exact : Prop} {context context' : Context} {own own' walk other : Walk}
  {found found' : Findings} {notes notes' : List Note} {here : Lexeme} {next : Option Lexeme}

/-- Two walks are at the same place of an item, each inside of its context. With `exact` the texts
of the item's conditions are the same, and so is what they have found. -/
inductive Abreast (exact : Prop) (context context' : Context) : Walk → Walk → Prop where
  | intro {own own' : Walk} {found found' : Findings} (notes notes' : List Note)
      (hAlike : Alike exact (fun _ _ => True) own own') (hFound : exact → found' = found) :
      Abreast exact context context' (own.inside context found notes)
        (own'.inside context' found' notes')

/-- Two walks have ended an item, each inside of its context. -/
inductive PastItem (exact : Prop) (context context' : Context) : Walk → Walk → Prop where
  | intro {own own' : Walk} {found found' : Findings} (notes notes' : List Note)
      (hAlike : Alike exact (fun _ _ => True) own own') (hFound : exact → found' = found)
      (hOver : own.IsOver) (hPlace : own.place = .moduleBody) :
      PastItem exact context context' (own.inside context found notes).endItem
        (own'.inside context' found' notes').endItem

/-- Walks that are alike end an item together. -/
theorem Alike.isOver (h : Alike exact (fun _ _ => True) own own') (hOver : own.IsOver) :
    own'.IsOver := by
  refine ⟨?_, h.blocks.trans hOver.blocks⟩
  have hShapes := h.shapes
  rw [hOver.frames, List.map_nil, List.map_eq_nil_iff] at hShapes
  exact hShapes

/-- Of two items that are alike both are over or neither is. -/
theorem Alike.isOver_iff (h : Alike exact (fun _ _ => True) own own') :
    own.IsOver ↔ own'.IsOver := by
  refine ⟨h.isOver, fun hOver => ⟨?_, h.blocks.symm.trans hOver.blocks⟩⟩
  have hShapes := h.shapes
  rw [hOver.frames, List.map_nil, eq_comm, List.map_eq_nil_iff] at hShapes
  exact hShapes

/-- Two walks are abreast, or they have ended the item. -/
def Passes (exact : Prop) (context context' : Context) (walk other : Walk) : Prop :=
  Abreast exact context context' walk other ∨ PastItem exact context context' walk other

/-- Two items that end at the same place, and are alike in between, leave the walks around them
alike as well. -/
theorem Passes.of_endsInside (hAlike : Alike exact (fun _ _ => True) own own')
    (hFound : exact → found' = found) (hPlace : own.place = .moduleBody)
    (h : own.EndsInside context found notes walk)
    (h' : own'.EndsInside context' found' notes' other) :
    Passes exact context context' walk other := by
  rcases h with ⟨hOver, rfl⟩ | ⟨hOver, rfl⟩
  · obtain ⟨-, rfl⟩ := h'.resolve_right fun hEnd => hOver (hAlike.isOver_iff.2 hEnd.1)
    exact .inl (.intro _ _ hAlike hFound)
  · obtain ⟨-, rfl⟩ := h'.resolve_left fun hEnd => hEnd.1 (hAlike.isOver hOver)
    exact .inr (.intro _ _ hAlike hFound hOver hPlace)

/-- A label that is expected changes nothing else. -/
theorem endItem_withLabel (walk : Walk) (label : Label) :
    ({ walk with label } : Walk).endItem = { walk.endItem with label } := by
  rw [endItem_eq, endItem_eq]
  rfl

/-- Expecting a label behind both items keeps them alike. -/
theorem Passes.expectLabel (h : Passes exact context context' walk other) (recorded : Bool)
    (next : Option Lexeme) :
    Passes exact context context' (walk.expectLabel recorded next)
      (other.expectLabel recorded next) := by
  rw [Walk.expectLabel, Walk.expectLabel]
  split
  · rcases h with ⟨notes, notes', hAlike, hFound⟩ | ⟨notes, notes', hAlike, hFound, hOver, hPlace⟩
    · exact .inl (.intro notes notes' (hAlike.withLabel (.colon recorded)) hFound)
    · rw [← endItem_withLabel, ← endItem_withLabel]
      exact .inr (.intro notes notes' (hAlike.withLabel (.colon recorded)) hFound
        ⟨hOver.frames, hOver.blocks⟩ hPlace)
  · exact h

/-- The item has opened a case. -/
theorem any_selector_inside
    (h : ((own.inside context found notes).frames.take
      ((own.inside context found notes).frames.length -
      context.frames.length)).any (·.selector.isSome) = true) :
    own.frames.any (·.selector.isSome) = true := by
  simpa [inside, Frame.raised, Function.comp_def] using h

/-- The frames of both walks wait for a choice of a case or neither does. -/
theorem Alike.any_selector (h : Alike exact (fun _ _ => True) own own') :
    own.frames.any (·.selector.isSome) = own'.frames.any (·.selector.isSome) := by
  have hShape : ∀ frames : List Frame, frames.any (·.selector.isSome) =
      (frames.map Frame.shape).any (·.selector.isSome) := by
    intro frames
    rw [List.any_map]
    rfl
  rw [hShape, hShape own'.frames, h.shapes]

/-- What a word does as a part of a label is decided by the word and by the label that is
expected. -/
theorem readLabel?_cases (label : Label) (here : Lexeme) :
    (∀ walk : Walk, walk.label = label → walk.readLabel? here = none) ∨
      ∃ later change, ∀ walk : Walk, walk.label = label →
        walk.readLabel? here = some (({ walk with label := later } : Walk).collect change) := by
  unfold readLabel?
  cases label with
  | idle => exact .inl fun walk hLabel => by simp [hLabel]
  | colon recorded =>
      by_cases hColon : here.symbol = .colon
      · exact .inr ⟨.name recorded, id, fun walk hLabel => by simp [hLabel, hColon, collect]⟩
      · exact .inl fun walk hLabel => by simp [hLabel, hColon]
  | name recorded =>
      by_cases hWord : here.symbol.isWord = true
      · cases recorded with
        | false => exact .inr ⟨.idle, id, fun walk hLabel => by simp [hLabel, hWord, collect]⟩
        | true =>
            exact .inr ⟨.idle, fun found => { found with labels := found.labels.push here.word },
              fun walk hLabel => by simp [hLabel, hWord, collect]⟩
      · exact .inl fun walk hLabel => by simp [hLabel, hWord]

/-- The conditions outside come first. -/
theorem conditions_inside :
    (own.inside context found notes).conditions = conditionsOf context.frames ++
      own.conditions := by
  simp [conditions, inside, conditionsOf, Frame.raised, Function.comp_def]

namespace Abreast

theorem place (h : Abreast exact context context' walk other) : other.place = walk.place := by
  cases h with
  | intro notes notes' hAlike hFound => exact hAlike.place

theorem label (h : Abreast exact context context' walk other) : other.label = walk.label := by
  cases h with
  | intro notes notes' hAlike hFound => exact hAlike.label

theorem collect (h : Abreast exact context context' walk other) (change : Findings → Findings) :
    Abreast exact context context' (walk.collect change) (other.collect change) := by
  cases h with
  | intro notes notes' hAlike hFound =>
      exact .intro notes notes' hAlike fun hExact => congrArg change (hFound hExact)

/-- A choice of the item is read. -/
theorem readChoice {depth : Nat} {expr : Capture} (hAlike : Alike exact (fun _ _ => True) own own')
    (hFound : exact → found' = found) (hOwn : own.frames ≠ []) :
    Abreast exact context context' ((own.inside context found notes).readChoice depth expr here)
      ((own'.inside context' found' notes').readChoice depth expr here) := by
  have hOwn' : own'.frames ≠ [] := by
    rw [← List.length_pos_iff, hAlike.length_frames, List.length_pos_iff]
    exact hOwn
  rw [readChoice_inside hOwn, readChoice_inside hOwn']
  exact .intro notes notes' hAlike.readChoice hFound

theorem readGenerate {kind : GenerateKind} {depth : Nat} {expr : Capture}
    (h : Abreast exact context context' walk other) :
    Abreast exact context context' (walk.readGenerate kind depth expr here next)
      (other.readGenerate kind depth expr here next) := by
  cases h with
  | @intro own own' found found' notes notes' hAlike hFound =>
      obtain ⟨later, hRead⟩ := readGenerate_inside context found notes own kind depth expr here next
      obtain ⟨later', hRead'⟩ :=
        readGenerate_inside context' found' notes' own' kind depth expr here next
      rw [hRead, hRead']
      exact .intro later later' hAlike.readGenerate hFound

variable (hConditions : exact → conditionsOf context'.frames = conditionsOf context.frames)
  (hClosed : context.IsClosed) (hClosed' : context'.IsClosed)

include hConditions hClosed hClosed'

/-- Nothing that the words of an item do separates the walks. -/
theorem pairing : Pairing (fun _ => True) (Abreast exact context context')
    (Passes exact context context') where
  behind h := .inl h
  goto := by
    rintro _ _ ⟨notes, notes', hAlike, hFound⟩ place
    exact .intro notes notes' (hAlike.goto place) hFound
  note := by
    rintro _ _ ⟨notes, notes', hAlike, hFound⟩ note note'
    exact .intro (note :: notes) (note' :: notes') hAlike hFound
  label := by
    rintro _ _ ⟨notes, notes', hAlike, hFound⟩ label
    exact .intro notes notes' (hAlike.withLabel label) hFound
  collect h _ := h.collect _
  flush h _ := h.collect _
  record := by
    rintro _ _ ⟨notes, notes', hAlike, hFound⟩ targets
    refine .intro notes notes' hAlike fun hExact => ?_
    obtain rfl := hFound hExact
    rw [conditions_inside, conditions_inside, hConditions hExact, hAlike.conditions hExact]
    rfl
  backToBody := by
    rintro _ _ ⟨notes, notes', hAlike, hFound⟩
    exact .of_endsInside (hAlike.goto .moduleBody).endItem hFound
      (Idles.endItem _).place (endItem_inside hClosed) (endItem_inside hClosed')

/-- An item keyword that stays inside the context does the same to both walks. This is where items
open, and where the guard `staysInside` is needed: `endmodule` and `end` might leave the context. -/
theorem readItemKeyword {word : Keyword} (h : Abreast exact context context' walk other)
    (hPlace : walk.place = .moduleBody) (hSymbol : here.symbol = .keyword word)
    (hStays : walk.staysInside context here = true) :
    Passes exact context context' (walk.readItemKeyword word here next)
      (other.readItemKeyword word here next) := by
  have hPair := pairing hConditions hClosed hClosed'
  have hGoto : ∀ place, Passes exact context context' (walk.goto place) (other.goto place) :=
    fun place =>
      .inl (hPair.goto h place)
  have hDeclares : ∀ kind, Passes exact context context' (walk.beginDeclaration kind here)
      (other.beginDeclaration kind here) := fun kind => hPair.readDeclaration h fun _ _ => trivial
  rw [staysInside, hPlace, hSymbol] at hStays
  cases h with
  | @intro own own' found found' notes notes' hAlike hFound =>
      have hBody : own.place = .moduleBody := hPlace
      unfold Walk.readItemKeyword
      split
      case h_1 =>
        have hOpened : Alike exact (fun _ _ => True) { own with blocks := own.blocks + 1 }
            { own' with blocks := own'.blocks + 1 } := by
          rw [hAlike.blocks]
          exact hAlike.withBlocks _
        exact .inl (hPair.expectLabel (.intro notes notes' hOpened hFound) true next)
      case h_2 =>
        have hBlocks : 0 < own.blocks := by simpa [inside] using hStays
        refine .expectLabel
          (.of_endsInside hAlike.closeBlock hFound ?_ (closeBlock_inside hClosed hBlocks)
          (closeBlock_inside hClosed' (hAlike.blocks ▸ hBlocks))) false next
        exact (Idles.closeBlock own).place.trans hBody
      case h_3 =>
        have hCase := any_selector_inside hStays
        exact .of_endsInside hAlike.closeCase hFound ((Idles.closeCase own).place.trans hBody)
          (closeCase_inside hClosed hCase) (closeCase_inside hClosed' (hAlike.any_selector ▸ hCase))
      case h_4 | h_5 | h_6 => cases hStays
      case h_24 =>
        obtain ⟨later, hElse⟩ := readElse_inside context found notes own next
        obtain ⟨later', hElse'⟩ := readElse_inside context' found' notes' own' next
        rw [hElse, hElse']
        exact .inl (.intro later later' hAlike.readElse hFound)
      case h_25 =>
        split
        · exact hDeclares _
        · exact hGoto _
      all_goals first
        | exact hGoto _
        | exact hDeclares _

/-- A word between items keeps walks abreast if it stays inside of the context. -/
theorem readItem (h : Abreast exact context context' walk other) (hPlace : walk.place = .moduleBody)
    (hStays : walk.staysInside context here = true) :
    Passes exact context context' (walk.readItem here next) (other.readItem here next) := by
  have hPair := pairing hConditions hClosed hClosed'
  have hKeyword : ∀ word, here.symbol = .keyword word → Passes exact context context'
      (walk.readItemKeyword word here next) (other.readItemKeyword word here next) :=
      fun word hSymbol =>
    h.readItemKeyword hConditions hClosed hClosed' hPlace hSymbol hStays
  have hGoto : ∀ place, Passes exact context context' (walk.goto place) (other.goto place) :=
    fun place =>
      .inl (hPair.goto h place)
  cases h with
  | @intro own own' found found' notes notes' hAlike hFound =>
      rw [Walk.readItem, Walk.readItem, awaitsChoice_inside hClosed, awaitsChoice_inside hClosed',
        hAlike.awaitsChoice]
      split
      · next hAwaits =>
        refine .inl (readChoice hAlike hFound fun hNil => ?_)
        simp [awaitsChoice, hNil] at hAwaits
      split
      · exact .of_endsInside hAlike.endItem hFound ((Idles.endItem own).place.trans hPlace)
          (endItem_inside hClosed) (endItem_inside hClosed')
      · next word hSymbol => exact hKeyword word hSymbol
      · exact hGoto _
      · exact hGoto _

/-- So does any word, wherever the walks stand. -/
theorem read (h : Abreast exact context context' walk other)
    (hStays : walk.staysInside context here = true) :
    Passes exact context context' (walk.read here next) (other.read here next) := by
  have hPair := pairing hConditions hClosed hClosed'
  cases hApart : walk.place.isConstruct with
  | false => exact hPair.read h h.place (fun _ _ => trivial) hApart
  | true =>
      rw [Walk.read, Walk.read, h.place]
      cases hPlace : walk.place with
      | moduleHeader announced =>
          rw [staysInside, hPlace] at hStays
          cases hStays
      | moduleBody => exact h.readItem hConditions hClosed hClosed' hPlace hStays
      | generateHeader kind depth expr => exact .inl h.readGenerate
      | generateChoice depth expr =>
          rw [staysInside, hPlace] at hStays
          cases h with
          | @intro own own' found found' notes notes' hAlike hFound =>
              refine .inl (readChoice hAlike hFound fun hNil => ?_)
              simp [inside, hNil] at hStays
      | _ =>
          rw [hPlace] at hApart
          cases hApart

/-- Both walks take a word for a part of a label, or none does. -/
theorem readLabel? (h : Abreast exact context context' walk other) (here : Lexeme) :
    (walk.readLabel? here = none ∧ other.readLabel? here = none) ∨
      ∃ labelled labelled', walk.readLabel? here = some labelled ∧
        other.readLabel? here = some labelled' ∧
        Abreast exact context context' labelled labelled' := by
  have hPair := pairing hConditions hClosed hClosed'
  obtain hNone | ⟨later, change, hRead⟩ := readLabel?_cases walk.label here
  · exact .inl ⟨hNone walk rfl, hNone other h.label⟩
  · exact .inr ⟨_, _, hRead walk rfl, hRead other h.label, (hPair.label h later).collect change⟩

/-- Inside of the item the walks take an event together. -/
theorem step {event : Event} (h : Abreast exact context context' walk other)
    (hGoes : walk.goesOn context event = true) :
    Passes exact context context' (walk.step event) (other.step event) := by
  have hPair := pairing hConditions hClosed hClosed'
  cases event with
  | comment span => exact .inl h
  | directive span => exact .inl h
  | ended offset => cases hGoes
  | filler token =>
      rw [Walk.step, Walk.step, h.place]
      exact .inl (hPair.goto h _)
  | word here next =>
      rw [Walk.step, Walk.step, Walk.readWord, Walk.readWord]
      rw [goesOn] at hGoes
      obtain ⟨hNone, hNone'⟩ | ⟨labelled, labelled', hLabel, hLabel', hAbreast⟩ :=
        h.readLabel? hConditions hClosed hClosed' here
      · rw [hNone] at hGoes
        rw [hNone, hNone']
        exact (hPair.note (hPair.label h .idle) _ _).read hConditions hClosed hClosed' hGoes
      · rw [hLabel, hLabel']
        exact .inl hAbreast

end Abreast

namespace PastItem

theorem place (h : PastItem exact context context' walk other) : walk.place = .moduleBody := by
  cases h with
  | intro notes notes' hAlike hFound hOver hPlace => exact (Idles.endItem _).place.trans hPlace

/-- Past the item both walks are in the body of the module. -/
theorem place_other (h : PastItem exact context context' walk other) :
    other.place = .moduleBody := by
  cases h with
  | intro notes notes' hAlike hFound hOver hPlace =>
      exact (Idles.endItem _).place.trans (hAlike.place.trans hPlace)

theorem label (h : PastItem exact context context' walk other) : other.label = walk.label := by
  cases h with
  | intro notes notes' hAlike hFound hOver hPlace =>
      rw [endItem_eq, endItem_eq]
      exact hAlike.label

/-- Behind the item the walks read a label together. -/
theorem step {event : Event} (h : PastItem exact context context' walk other)
    (hLabel : walk.isLabel event = true) :
    PastItem exact context context' (walk.step event) (other.step event) := by
  cases event with
  | comment span => exact h
  | directive span => exact h
  | ended offset => cases hLabel
  | filler token =>
      have hAbsorb : ∀ walk : Walk, walk.place = .moduleBody →
          walk.step (.filler token) = walk := by
        intro walk hPlace
        rw [Walk.step, hPlace]
        exact congrArg (fun place => ({ walk with place } : Walk)) hPlace.symm
      rwa [hAbsorb walk h.place, hAbsorb other h.place_other]
  | word here next =>
      cases h with
      | @intro own own' found found' notes notes' hAlike hFound hOver hPlace =>
          have hHere : (own.inside context found notes).endItem.label = own.label := by
            rw [endItem_eq]
            rfl
          have hHere' : (own'.inside context' found' notes').endItem.label = own.label := by
            rw [endItem_eq]
            exact hAlike.label
          obtain hNone | ⟨later, change, hRead⟩ := readLabel?_cases own.label here
          · rw [isLabel, hNone _ hHere] at hLabel
            cases hLabel
          · rw [Walk.step, Walk.step, Walk.readWord, Walk.readWord, hRead _ hHere, hRead _ hHere']
            dsimp only
            have hSame : ∀ (context : Context) (found : Findings) (notes : List Note) (own : Walk),
                ({ (own.inside context found notes).endItem with label := later } : Walk).collect
                  change =
                  (({ own with label := later } : Walk).inside context
                    (change found) notes).endItem := by
              intro context found notes own
              rw [endItem_eq, endItem_eq]
              rfl
            rw [hSame, hSame]
            exact .intro notes notes' (hAlike.withLabel later)
              (fun hExact => congrArg change (hFound hExact))
              ⟨hOver.frames, hOver.blocks⟩ hPlace

end PastItem

end Walk

end HdlIndex.Verilog

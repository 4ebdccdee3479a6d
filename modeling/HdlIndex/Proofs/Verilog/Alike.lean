import HdlIndex.Proofs.Verilog.Paired

/-! Two walks that read the same words behind different texts. What was found before decides nothing
about where they go, and neither do the texts of the conditions in force. So they stay at the same
places, under conditions of the same shape, and what they find stays related by every relation that
recording a name keeps. -/
namespace HdlIndex.Verilog

/-- The item whose name an event ends. A walk records it. -/
def Walk.flushed? (walk : Walk) : Event → Option Item
  | .word here _ =>
    if (walk.readLabel? here).isSome then none else walk.place.begun?.bind (·.endedBy? here)
  | .ended _ => walk.place.item?
  | _ => none

/-- The items whose names a walk records on its way through events. -/
def Walk.flushes : Walk → List Event → List Item
  | _, [] => []
  | walk, event :: events => (walk.flushed? event).toList ++ (walk.step event).flushes events

/-- The condition without its texts. -/
def Frame.shape (frame : Frame) : Frame := { frame with condition := "", otherwise := "" }

/-- A relation between what two walks have found is kept when both declare the name of an item of
some sort, and when both record a signal. With `exact` they record it under the same conditions. -/
structure Findings.IsKept (exact : Prop) (allowed : Item → Prop)
    (Related : Findings → Findings → Prop) : Prop where
  apart : ∀ {found found' : Findings} {change : Findings → Findings}, Related found found' →
    (∀ found : Findings, found.SameLists (change found)) → Related (change found) (change found')
  declare : ∀ {found found' item}, Related found found' → allowed item →
    Related (Walk.declare found item) (Walk.declare found' item)
  record : ∀ {found found' target conditions conditions'}, Related found found' →
    (exact → conditions' = conditions) →
    Related (Walk.recordClocked found target conditions)
      (Walk.recordClocked found' target conditions')

namespace Walk

/-- Two walks are at the same place, under conditions of the same shape. With `exact` the texts of
the conditions are the same too. -/
structure Alike (exact : Prop) (Related : Findings → Findings → Prop)
    (walk other : Walk) : Prop where
  place : other.place = walk.place
  bases : other.bases = walk.bases
  blocks : other.blocks = walk.blocks
  label : other.label = walk.label
  shapes : other.frames.map Frame.shape = walk.frames.map Frame.shape
  chained : other.chained.isSome = walk.chained.isSome
  texts : exact → other.frames = walk.frames ∧ other.pendingElse = walk.pendingElse ∧
    other.chained = walk.chained
  found : Related walk.found other.found

end Walk

section Shapes

variable {frame frame' : Frame} {frames frames' : List Frame} {ends : Frame → Bool}

/-- The shape of a frame is all of it but for the texts of its conditions. -/
theorem Frame.shape_eq_iff :
    frame'.shape = frame.shape ↔ frame'.owner = frame.owner ∧ frame'.single = frame.single ∧
      frame'.selector = frame.selector ∧ frame'.awaiting = frame.awaiting := by
  obtain ⟨condition, otherwise, owner, single, selector, awaiting⟩ := frame
  obtain ⟨condition', otherwise', owner', single', selector', awaiting'⟩ := frame'
  simp [Frame.shape]

/-- What is left of some frames is decided by their shapes. -/
theorem map_shape_dropWhile (hEnds : ∀ frame : Frame, ends frame.shape = ends frame) :
    (frames.dropWhile ends).map Frame.shape = (frames.map Frame.shape).dropWhile ends := by
  rw [List.dropWhile_map]
  congr 2
  funext frame
  exact (hEnds frame).symm

/-- Lists of conditions of the same shapes are empty together, and begin with conditions of one
shape. -/
theorem frames_cases (h : frames'.map Frame.shape = frames.map Frame.shape) :
    (frames = [] ∧ frames' = []) ∨ ∃ top rest top' rest', frames = top :: rest ∧
      frames' = top' :: rest' ∧ top'.shape = top.shape ∧
      rest'.map Frame.shape = rest.map Frame.shape := by
  cases frames with
  | nil =>
      rw [List.map_nil, List.map_eq_nil_iff] at h
      exact .inl ⟨rfl, h⟩
  | cons top rest =>
      obtain ⟨top', rest', rfl, hTop, hRest⟩ := List.map_eq_cons_iff.1 h
      exact .inr ⟨top, rest, top', rest', rfl, rfl, hTop, hRest⟩

end Shapes

namespace Walk

variable {exact : Prop} {allowed : Item → Prop} {Related : Findings → Findings → Prop}
  {walk other : Walk} {here : Lexeme} {next : Option Lexeme} {item : Item} {owner : Owner}
  {home : Home}
  {place : Place} {depth : Nat} {expr : Capture} {kind : GenerateKind} {statement : Instantiation}

/-- Between modules a walk is alike to one that begins there. Its texts are those of a walk that the
same condition of an `else` waits for. -/
theorem Alike.between {pending : Option String} (hPlace : walk.place = .moduleContext)
    (hClear : walk.IsClear) (hChained : walk.chained = none)
    (hPending : exact → walk.pendingElse = pending) (hFound : Related {} walk.found) :
    Alike exact Related { start .moduleContext with pendingElse := pending } walk := by
  obtain ⟨hFrames, hBases, hBlocks, hLabel⟩ := hClear (hPlace ▸ rfl)
  exact {
    place := hPlace
    bases := hBases
    blocks := hBlocks
    label := hLabel
    shapes := by rw [hFrames]; rfl
    chained := by rw [hChained]; rfl
    texts := fun hExact => ⟨hFrames, hPending hExact, hChained⟩
    found := hFound }

namespace Alike

theorem goto (h : Alike exact Related walk other) (place : Place) :
    Alike exact Related (walk.goto place) (other.goto place) :=
  { h with place := rfl }

theorem note (h : Alike exact Related walk other) (note note' : Note) :
    Alike exact Related (walk.note note) (other.note note') :=
  { h with }

theorem withLabel (h : Alike exact Related walk other) (label : Label) :
    Alike exact Related { walk with label } { other with label } :=
  { h with label := rfl }

theorem withBlocks (h : Alike exact Related walk other) (blocks : Nat) :
    Alike exact Related { walk with blocks } { other with blocks } :=
  { h with blocks := rfl }

/-- Frames may be exchanged for others of the same shapes. -/
theorem withFrames {frames frames' : List Frame} (h : Alike exact Related walk other)
    (hShapes : frames'.map Frame.shape = frames.map Frame.shape) (hTexts : exact →
      frames' = frames) :
    Alike exact Related { walk with frames } { other with frames := frames' } :=
  { h with shapes := hShapes, texts := fun hExact => ⟨hTexts hExact, (h.texts hExact).2⟩ }

theorem collect (h : Alike exact Related walk other) {change change' : Findings → Findings}
    (hFound : Related (change walk.found) (change' other.found)) :
    Alike exact Related (walk.collect change) (other.collect change') :=
  { h with found := hFound }

section Kept

variable (hKept : Findings.IsKept exact allowed Related)

include hKept

/-- What is neither declared nor recorded makes no difference. -/
theorem collectApart (h : Alike exact Related walk other) {change : Findings → Findings}
    (hChange : ∀ found : Findings, found.SameLists (change found)) :
    Alike exact Related (walk.collect change) (other.collect change) :=
  h.collect (hKept.apart h.found hChange)

theorem flush (h : Alike exact Related walk other) (hItem : allowed item) :
    Alike exact Related (walk.flush item) (other.flush item) :=
  h.collect (hKept.declare h.found hItem)

end Kept

theorem expectLabel (h : Alike exact Related walk other) (recorded : Bool) (next : Option Lexeme) :
    Alike exact Related (walk.expectLabel recorded next) (other.expectLabel recorded next) := by
  rw [Walk.expectLabel, Walk.expectLabel]
  split
  · exact h.withLabel _
  · exact h

theorem conditions (h : Alike exact Related walk other) (hExact : exact) :
    other.conditions = walk.conditions := by
  rw [Walk.conditions, Walk.conditions, (h.texts hExact).1]

/-- Walks whose frames are alike leave the same number of them, whatever conditions the frames stand
for. -/
theorem leaveFrames {ends : Frame → Bool} (h : Alike exact Related walk other)
    (hEnds : ∀ frame : Frame, ends frame.shape = ends frame) :
    Alike exact Related (walk.leaveFrames ends) (other.leaveFrames ends) where
  place := h.place
  bases := h.bases
  blocks := h.blocks
  label := h.label
  shapes := by
    show (other.frames.dropWhile ends).map Frame.shape =
      (walk.frames.dropWhile ends).map Frame.shape
    rw [map_shape_dropWhile hEnds, map_shape_dropWhile hEnds, h.shapes]
  chained := h.chained
  texts hExact := by
    obtain ⟨hFrames, hPending, hChained⟩ := h.texts hExact
    simp only [Walk.leaveFrames, hFrames, hPending, hChained, and_self]
  found := h.found

/-- At the end of an item both walks leave the branches that the item was the whole of, and note the
same `else`. -/
theorem endItem (h : Alike exact Related walk other) :
    Alike exact Related walk.endItem other.endItem := by
  have hLeft : Alike exact Related
      (walk.leaveFrames fun frame => frame.single && walk.blocks ≤ frame.owner)
      (other.leaveFrames fun frame => frame.single && walk.blocks ≤ frame.owner) :=
    h.leaveFrames fun _ => rfl
  rw [Walk.endItem, Walk.endItem, h.blocks]
  generalize walk.leaveFrames _ = left at hLeft ⊢
  generalize other.leaveFrames _ = left' at hLeft ⊢
  obtain ⟨hFrames, hFrames'⟩ | ⟨top, rest, top', rest', hFrames, hFrames', hTop, hRest⟩ :=
    frames_cases hLeft.shapes
  · rw [hFrames, hFrames']
    exact hLeft
  · obtain ⟨hOwner, hSingle, hSelector, hAwaiting⟩ := Frame.shape_eq_iff.1 hTop
    have hAwaits : (top'.selector.isSome && decide (top'.owner = left'.blocks)) =
        (top.selector.isSome && decide (top.owner = left.blocks)) := by
      rw [hOwner, hSelector, hLeft.blocks]
    rw [hFrames, hFrames']
    dsimp only
    rw [hAwaits]
    split
    · apply hLeft.withFrames
      · rw [List.map_cons, List.map_cons, hRest]
        congr 1
        exact Frame.shape_eq_iff.2 ⟨hOwner, hSingle, hSelector, rfl⟩
      · intro hExact
        have hSame := (hLeft.texts hExact).1
        rw [hFrames, hFrames', List.cons_eq_cons] at hSame
        rw [hSame.1, hSame.2]
    · exact hLeft

theorem backToBody (h : Alike exact Related walk other) :
    Alike exact Related walk.backToBody other.backToBody :=
  (h.goto .moduleBody).endItem

/-- A condition that is put in force is part of both stacks. Its text has to be the same only where
conditions are compared exactly. -/
theorem enterFrame {condition condition' otherwise otherwise' : String}
    (h : Alike exact Related walk other)
    (hTexts : exact → condition' = condition ∧ otherwise' = otherwise) (next : Option Lexeme) :
    Alike exact Related (walk.enterFrame condition otherwise next)
      (other.enterFrame condition' otherwise' next) := by
  rw [Walk.enterFrame, Walk.enterFrame]
  apply Alike.note
  apply h.withFrames
  · rw [List.map_cons, List.map_cons, h.shapes, h.blocks]
    rfl
  · intro hExact
    obtain ⟨rfl, rfl⟩ := hTexts hExact
    rw [(h.texts hExact).1, h.blocks]

section Kept

variable (hKept : Findings.IsKept exact allowed Related)

include hKept

/-- Several signals are recorded one after the other. -/
theorem recordClocked_foldl {found found' : Findings} {conditions conditions' : List String}
    (h : Related found found') (hConditions : exact → conditions' = conditions)
    (targets : List Word) :
    Related (targets.foldl (recordClocked · · conditions) found)
      (targets.foldl (recordClocked · · conditions') found') := by
  induction targets generalizing found found' with
  | nil => exact h
  | cons target targets ih => exact ih (hKept.record h hConditions)

/-- Walks that are alike stay so amid an item and behind it. -/
theorem pairing : Pairing allowed (Alike exact Related) (Alike exact Related) where
  behind h := h
  goto h := h.goto
  note h := h.note
  label h := h.withLabel
  collect h := h.collectApart hKept
  flush h := h.flush hKept
  record h targets := h.collect (recordClocked_foldl hKept h.found h.conditions targets)
  backToBody h := h.backToBody

end Kept

/-- Only the end of the header goes on to the items of the body, and it closes all blocks in both
walks. -/
theorem readModuleHeader {announced : Bool} (h : Alike exact Related walk other) :
    Alike exact Related (walk.readModuleHeader announced here)
      (other.readModuleHeader announced here) := by
  rw [Walk.readModuleHeader, Walk.readModuleHeader]
  split
  · exact h.goto _
  · split <;> exact h.goto _
  · exact (h.withBlocks 0).backToBody
  · exact h.goto _
  · exact h

section Body

/-- Whether the choice of a case comes next is a matter of frames and blocks, of which the two walks
have the same. -/
theorem awaitsChoice (h : Alike exact Related walk other) :
    other.awaitsChoice = walk.awaitsChoice := by
  rw [Walk.awaitsChoice, Walk.awaitsChoice]
  obtain ⟨hFrames, hFrames'⟩ | ⟨top, rest, top', rest', hFrames, hFrames', hTop, -⟩ :=
    frames_cases h.shapes
  · rw [hFrames, hFrames']
  · obtain ⟨hOwner, -, hSelector, hAwaiting⟩ := Frame.shape_eq_iff.1 hTop
    rw [hFrames, hFrames']
    dsimp only
    rw [hOwner, hSelector, hAwaiting, h.blocks]

/-- The choice becomes the condition of the innermost frame, which both walks have. -/
theorem readChoice (h : Alike exact Related walk other) :
    Alike exact Related (walk.readChoice depth expr here) (other.readChoice depth expr here) := by
  have hStay : ∀ depth', Alike exact Related
      (walk.goto (.generateChoice depth' (expr.push here.token)))
      (other.goto (.generateChoice depth' (expr.push here.token))) := fun _ => h.goto _
  unfold Walk.readChoice
  dsimp only
  split
  · apply (h.goto .moduleBody).withFrames
    · obtain ⟨hFrames, hFrames'⟩ | ⟨top, rest, top', rest', hFrames, hFrames', hTop, hRest⟩ :=
        frames_cases h.shapes
      · rw [hFrames, hFrames']
      · obtain ⟨hOwner, hSingle, hSelector, -⟩ := Frame.shape_eq_iff.1 hTop
        rw [hFrames, hFrames', List.map_cons, List.map_cons, hRest]
        congr 1
        exact Frame.shape_eq_iff.2 ⟨hOwner, hSingle, hSelector, rfl⟩
    · intro hExact
      rw [(h.texts hExact).1]
  split
  · exact hStay _
  split
  · exact hStay _
  · exact hStay _

/-- Both walks leave the frames that the block kept in force, and the item with them. -/
theorem closeBlock (h : Alike exact Related walk other) :
    Alike exact Related walk.closeBlock other.closeBlock := by
  have hBlocks := h.withBlocks (walk.blocks - 1)
  rw [Walk.closeBlock, Walk.closeBlock, h.blocks]
  apply Alike.endItem
  apply hBlocks.leaveFrames
  intro frame
  rfl

/-- Up to the innermost case the frames are alike, so that the same ones are dropped. -/
theorem closeCase (h : Alike exact Related walk other) :
    Alike exact Related walk.closeCase other.closeCase := by
  have hShapes : (other.frames.dropWhile (·.selector.isNone)).map Frame.shape =
      (walk.frames.dropWhile (·.selector.isNone)).map Frame.shape := by
    rw [map_shape_dropWhile fun _ => rfl, map_shape_dropWhile fun _ => rfl, h.shapes]
  rw [Walk.closeCase, Walk.closeCase]
  obtain ⟨hFrames, hFrames'⟩ | ⟨top, rest, top', rest', hFrames, hFrames', hTop, hRest⟩ :=
    frames_cases hShapes
  · rw [hFrames, hFrames']
    exact h.endItem
  · rw [hFrames, hFrames']
    apply Alike.endItem
    apply h.withFrames hRest
    intro hExact
    have hSame := hFrames
    rw [← (h.texts hExact).1, hFrames', List.cons_eq_cons] at hSame
    exact hSame.2

theorem length_frames (h : Alike exact Related walk other) :
    other.frames.length = walk.frames.length := by
  simpa using congrArg List.length h.shapes

theorem closeGenerate (h : Alike exact Related walk other) :
    Alike exact Related walk.closeGenerate other.closeGenerate := by
  have hShapes : (other.frames.drop (other.frames.length - other.bases.headD 0)).map Frame.shape =
      (walk.frames.drop (walk.frames.length - walk.bases.headD 0)).map Frame.shape := by
    rw [List.map_drop, List.map_drop, h.shapes, h.length_frames, h.bases]
  have hLeft := h.withFrames hShapes fun hExact => by rw [(h.texts hExact).1, h.bases]
  exact { hLeft with bases := congrArg List.tail h.bases }

/-- The condition of an `else` is what the last frame left, which is compared exactly only where
conditions are. -/
theorem readElse (h : Alike exact Related walk other) :
    Alike exact Related (walk.readElse next) (other.readElse next) := by
  have hPending : Alike exact Related { walk with pendingElse := none }
      { other with pendingElse := none } :=
    { h with texts := fun hExact => ⟨(h.texts hExact).1, rfl, (h.texts hExact).2.2⟩ }
  rw [Walk.readElse, Walk.readElse]
  dsimp only
  split
  · refine { hPending with chained := rfl, texts := fun hExact => ?_ }
    obtain ⟨hFrames, hSame, -⟩ := h.texts hExact
    exact ⟨hFrames, rfl, by rw [hSame]⟩
  · apply hPending.enterFrame
    intro hExact
    rw [(h.texts hExact).2.1]
    exact ⟨rfl, rfl⟩

/-- A header gives its condition to both walks; in front of it stands what an `else` chained to
it. -/
theorem enterGenerate (h : Alike exact Related walk other) (header : String) :
    Alike exact Related (walk.enterGenerate kind header next)
      (other.enterGenerate kind header next) := by
  cases kind with
  | «if» =>
      have hChained :
          Alike exact Related { walk with chained := none } { other with chained := none } :=
        { h with
          chained := rfl
          texts := fun hExact => ⟨(h.texts hExact).1, (h.texts hExact).2.1, rfl⟩ }
      unfold Walk.enterGenerate
      dsimp only
      apply hChained.enterFrame
      intro hExact
      rw [(h.texts hExact).2.2]
      exact ⟨rfl, rfl⟩
  | «for» => exact h.enterFrame (fun _ => ⟨rfl, rfl⟩) next
  | «case» =>
      unfold Walk.enterGenerate
      dsimp only
      apply h.withFrames
      · rw [List.map_cons, List.map_cons, h.shapes, h.blocks]
      · intro hExact
        rw [(h.texts hExact).1, h.blocks]

/-- Up to its closing parenthesis a header is collected alike, and there its condition is put in
force. -/
theorem readGenerate (h : Alike exact Related walk other) :
    Alike exact Related (walk.readGenerate kind depth expr here next)
      (other.readGenerate kind depth expr here next) := by
  unfold Walk.readGenerate
  dsimp only
  split
  · exact h.goto _
  split
  · exact h.goto _
  split
  · exact (h.enterGenerate _).goto _
  split
  · exact h.goto _
  split
  · exact h.goto _
  · exact h

/-- The first word of a declaration ends no name. -/
theorem endedBy?_keyword (hSymbol : here.symbol = .keyword word) (kind : ItemKind) :
    Item.endedBy? { kind } here = none := by
  rw [Item.endedBy?, Item.read, Item.readHead, hSymbol]
  cases word <;> rfl

variable (hKept : Findings.IsKept exact allowed Related)

include hKept

theorem beginDeclaration (h : Alike exact Related walk other)
    (hSymbol : here.symbol = .keyword word) (kind : ItemKind) :
    Alike exact Related (walk.beginDeclaration kind here) (other.beginDeclaration kind here) := by
  apply (pairing hKept).readDeclaration h
  intro ended hEnded
  rw [endedBy?_keyword hSymbol] at hEnded
  cases hEnded

/-- Every word that begins or ends an item is read alike, each by the lemma of its own reader. -/
theorem readItemKeyword (h : Alike exact Related walk other)
    (hSymbol : here.symbol = .keyword word) :
    Alike exact Related (walk.readItemKeyword word here next)
      (other.readItemKeyword word here next) := by
  have hBegin := h.withBlocks (walk.blocks + 1)
  have hClosed : Alike exact Related
      ({ walk with frames := [], bases := [], blocks := 0 }.goto .moduleContext)
      ({ other with frames := [], bases := [], blocks := 0 }.goto .moduleContext) :=
    { h with
      place := rfl
      bases := rfl
      blocks := rfl
      shapes := rfl
      texts := fun hExact => ⟨rfl, (h.texts hExact).2⟩ }
  have hGenerate : Alike exact Related { walk with bases := walk.frames.length :: walk.bases }
      { other with bases := other.frames.length :: other.bases } := by
    refine { h with bases := ?_ }
    rw [h.bases, h.length_frames]
  unfold Walk.readItemKeyword
  split
  case h_1 =>
    rw [h.blocks]
    exact hBegin.expectLabel _ _
  case h_2 => exact h.closeBlock.expectLabel _ _
  case h_3 => exact h.closeCase
  case h_4 => exact hGenerate
  case h_5 => exact h.closeGenerate
  case h_6 => exact hClosed
  case h_24 => exact h.readElse
  case h_25 =>
    split
    · exact h.beginDeclaration hKept hSymbol _
    · exact h.goto _
  all_goals first
    | exact h.goto _
    | exact h.beginDeclaration hKept hSymbol _

/-- A word between items begins a choice, an item, an instance or a statement that is passed over,
in both walks the same. -/
theorem readItem (h : Alike exact Related walk other) :
    Alike exact Related (walk.readItem here next) (other.readItem here next) := by
  rw [Walk.readItem, Walk.readItem, h.awaitsChoice]
  split
  · exact h.readChoice
  split
  · exact h.endItem
  · next word hSymbol => exact h.readItemKeyword hKept hSymbol
  · exact h.goto _
  · exact h.goto _

end Body

section Runs

variable (hKept : Findings.IsKept exact allowed Related)

include hKept

/-- The reader is chosen by the place, which both walks share. A name that the word ends must be an
allowed one, since it is recorded by looking up what was found. -/
theorem read (h : Alike exact Related walk other)
    (hItem : ∀ ended ∈ walk.place.begun?.bind (·.endedBy? here), allowed ended) :
    Alike exact Related (walk.read here next) (other.read here next) := by
  cases hApart : walk.place.isConstruct with
  | false => exact (pairing hKept).read h h.place hItem hApart
  | true =>
      rw [Walk.read, Walk.read, h.place]
      cases hPlace : walk.place with
      | moduleHeader announced => exact h.readModuleHeader
      | moduleBody => exact h.readItem hKept
      | generateHeader kind depth expr => exact h.readGenerate
      | generateChoice depth expr => exact h.readChoice
      | _ =>
          rw [hPlace] at hApart
          cases hApart

/-- Both walks take a word for a part of a label, or none does. -/
theorem readLabel? (h : Alike exact Related walk other) (here : Lexeme) :
    (walk.readLabel? here = none ∧ other.readLabel? here = none) ∨
      ∃ labelled labelled', walk.readLabel? here = some labelled ∧
        other.readLabel? here = some labelled' ∧ Alike exact Related labelled labelled' := by
  unfold Walk.readLabel?
  rw [h.label]
  split
  · exact .inl ⟨rfl, rfl⟩
  · split
    · exact .inr ⟨_, _, rfl, rfl, h.withLabel _⟩
    · exact .inl ⟨rfl, rfl⟩
  · dsimp only
    split
    · refine .inr ⟨_, _, rfl, rfl, ?_⟩
      split
      · apply (h.withLabel .idle).collectApart hKept
        exact fun _ => ⟨rfl, rfl, rfl, rfl⟩
      · exact h.withLabel .idle
    · exact .inl ⟨rfl, rfl⟩

/-- Labels are read alike, as both walks have the same one under way. -/
theorem readWord (h : Alike exact Related walk other)
    (hItem : ∀ ended ∈ walk.flushed? (.word here next), allowed ended) :
    Alike exact Related (walk.readWord here next) (other.readWord here next) := by
  rw [Walk.readWord, Walk.readWord]
  rw [flushed?] at hItem
  obtain ⟨hNone, hNone'⟩ | ⟨labelled, labelled', hLabel, hLabel', hAlike⟩ :=
    h.readLabel? hKept here
  · rw [hNone] at hItem
    rw [hNone, hNone']
    exact ((h.withLabel .idle).note _ _).read hKept hItem
  · rw [hLabel, hLabel']
    exact hAlike

/-- What is under way where a text ends is recorded alike, if the name that it ends is an allowed
one. -/
theorem flushAt (h : Alike exact Related walk other) (offset : Nat)
    (hItem : ∀ ended ∈ walk.place.item?, allowed ended) :
    Alike exact Related (walk.flushAt offset) (other.flushAt offset) := by
  rw [Walk.flushAt, Walk.flushAt, h.place]
  cases hPlace : walk.place with
  | parameterList owner inside item =>
      rw [hPlace] at hItem
      exact (pairing hKept).closeParameters (h.flush hKept (hItem item rfl)) _ _
  | portList owner item =>
      rw [hPlace] at hItem
      exact (h.flush hKept (hItem item rfl)).goto _
  | declaration item =>
      rw [hPlace] at hItem
      exact (h.flush hKept (hItem item rfl)).goto _
  | _ => exact h

/-- Taking an event keeps two walks alike, as long as the name that it records is allowed. -/
theorem step {event : Event} (h : Alike exact Related walk other)
    (hItem : ∀ ended ∈ walk.flushed? event, allowed ended) :
    Alike exact Related (walk.step event) (other.step event) := by
  cases event with
  | comment span => exact h
  | directive span => exact h
  | filler token => exact { h with place := congrArg (Place.absorb · token) h.place }
  | word here next => exact h.readWord hKept hItem
  | ended offset => exact h.flushAt hKept offset hItem

/-- So does taking every event of a reading. -/
theorem run {events : List Event} (h : Alike exact Related walk other)
    (hItems : ∀ item ∈ walk.flushes events, allowed item) :
    Alike exact Related (walk.run events) (other.run events) := by
  induction events generalizing walk other with
  | nil => exact h
  | cons event events ih =>
      rw [flushes, List.forall_mem_append] at hItems
      apply ih (h.step hKept fun ended hEnded => hItems.1 ended (Option.mem_toList.2 hEnded))
      exact hItems.2

/-- At the end of a text the item and then the always block are ended, in both walks the same
ones. -/
theorem finish (h : Alike exact Related walk other) (size : Nat)
    (hItem : ∀ ended ∈ walk.flushed? (.ended size), allowed ended) :
    Alike exact Related (walk.finish size) (other.finish size) := by
  have hFlushed := h.flushAt hKept size hItem
  rw [Walk.finish, Walk.finish, hFlushed.place]
  split
  · exact (pairing hKept).commitProcess hFlushed _ _
  · exact hFlushed

end Runs

end Alike

end HdlIndex.Verilog.Walk

import HdlIndex.Proofs.Verilog.WholeItem

/-! Braces around a single item of a generate construct. -/
namespace HdlIndex.Verilog

/-- The condition of a branch is kept by the block around it then, and not by the item alone. The
condition of a case item stays with the case. -/
def Frame.braced (blocks : Nat) (frame : Frame) : Frame :=
  if frame.selector.isSome then frame else { frame with owner := blocks + 1, single := false }

/-- What is open inside of the block around a branch. -/
def Context.braced (context : Context) : Context :=
  { context with
    frames := context.frames.modifyHead (Frame.braced context.blocks)
    blocks := context.blocks + 1 }

/-- In front of a branch no condition outside of it is left over from a block that is closed. -/
structure Context.IsBranch (context : Context) : Prop extends context.IsForItem where
  settled : ∀ top ∈ context.frames.head?, top.selector = none →
    ∀ frame ∈ context.frames.tail.head?, frame.endsWithBlock context.blocks = false

section Frames

variable {frame : Frame} {blocks : Nat}

theorem Frame.braced_of_some (h : frame.selector.isSome = true) (blocks : Nat) :
    frame.braced blocks = frame := if_pos h

theorem Frame.braced_of_none (h : frame.selector = none) (blocks : Nat) :
    frame.braced blocks = { frame with owner := blocks + 1, single := false } := by
  simp [braced, h]

@[simp]
theorem Frame.condition_braced : (frame.braced blocks).condition = frame.condition := by
  rw [braced]
  split <;> rfl

@[simp]
theorem Frame.otherwise_braced : (frame.braced blocks).otherwise = frame.otherwise := by
  rw [braced]
  split <;> rfl

@[simp]
theorem Frame.awaiting_braced : (frame.braced blocks).awaiting = frame.awaiting := by
  rw [braced]
  split <;> rfl

theorem Frame.owner_braced_le (h : frame.owner = blocks) :
    (frame.braced blocks).owner ≤ blocks + 1 := by
  rw [braced]
  split
  · exact h.le.trans (Nat.le_succ _)
  · exact Nat.le_refl _

end Frames

namespace Context

variable {context : Context} {top : Frame} {rest : List Frame}

theorem frames_braced (h : context.frames = top :: rest) :
    context.braced.frames = top.braced context.blocks :: rest := by
  rw [braced, h]
  rfl

/-- With a block around the item the context has one block more, and nothing that the item could
close. -/
theorem IsForItem.braced (h : context.IsForItem) : context.braced.IsClosed := by
  obtain ⟨top, hTop, hOwner, -⟩ := h.ends
  obtain ⟨rest, hFrames⟩ := List.head?_eq_some_iff.1 hTop
  constructor
  · intro frame hFrame
    rw [frames_braced hFrames] at hFrame
    obtain rfl := Option.some.inj hFrame
    rw [Frame.awaiting_braced]
    exact h.awaiting top hTop
  · intro frame hFrame
    rw [frames_braced hFrames] at hFrame
    obtain rfl := Option.some.inj hFrame
    exact Frame.owner_braced_le hOwner

/-- Braces change no condition. -/
theorem conditionsOf_braced (context : Context) :
    conditionsOf context.braced.frames = conditionsOf context.frames := by
  cases hFrames : context.frames with
  | nil => rw [braced, hFrames]; rfl
  | cons top rest => rw [frames_braced hFrames]; simp [conditionsOf]

end Context

namespace Walk

variable {context : Context} {found : Findings} {notes notes' : List Note} {own walk : Walk}
  {here : Lexeme} {next next' : Option Lexeme}

/-- Behind the item the frames are those of the context. -/
theorem IsOver.frames_inside (hOver : own.IsOver) (context : Context) (found : Findings)
    (notes : List Note) :
    (own.inside context found notes).frames = context.frames := by
  rw [inside, hOver.frames]
  rfl

/-- And so are the blocks. -/
theorem IsOver.blocks_inside (hOver : own.IsOver) (context : Context) (found : Findings)
    (notes : List Note) :
    (own.inside context found notes).blocks = context.blocks := by
  rw [inside, hOver.blocks]
  rfl

/-- In its block the end of the item changes nothing. -/
theorem endItem_braced (h : context.IsForItem) (hOver : own.IsOver) :
    (own.inside context.braced found notes).endItem = own.inside context.braced found notes := by
  obtain ⟨top, hTop, hOwner, -⟩ := h.ends
  obtain ⟨rest, hFrames⟩ := List.head?_eq_some_iff.1 hTop
  have hInside := hOver.frames_inside context.braced found notes
  rw [Context.frames_braced hFrames] at hInside
  cases hSelector : top.selector with
  | some selector =>
      refine endItem_of_owner_lt fun frame hFrame => ?_
      rw [hInside, Frame.braced_of_some (by simp [hSelector])] at hFrame
      obtain rfl := Option.some.inj hFrame
      rw [hOver.blocks_inside, hOwner]
      exact Nat.lt_succ_self _
  | none =>
      rw [Frame.braced_of_none hSelector] at hInside
      rw [endItem_of_head fun frame hFrame => ?_, hInside]
      · simp [hSelector]
      · rw [hInside] at hFrame
        obtain rfl := Option.some.inj hFrame
        rfl

/-- The end of the block does what the end of the item does without it. -/
theorem closeBlock_braced (h : context.IsBranch) (hOver : own.IsOver) :
    (own.inside context.braced found notes).closeBlock =
      (own.inside context found notes).endItem := by
  obtain ⟨top, hTop, hOwner, hEnds⟩ := h.ends
  obtain ⟨rest, hFrames⟩ := List.head?_eq_some_iff.1 hTop
  have hInside := hOver.frames_inside context found notes
  set bare := own.inside context found notes with hBare
  have hBlocks : bare.blocks = context.blocks := hOver.blocks_inside context found notes
  have hClose : (own.inside context.braced found notes).closeBlock =
      (({ bare with frames := top.braced context.blocks :: rest } : Walk).leaveFrames
        (Frame.endsWithBlock context.blocks)).endItem := by
    have hBraced : { own.inside context.braced found notes with blocks := context.blocks } =
        { bare with frames := top.braced context.blocks :: rest } := by
      rw [hBare, inside, inside, hOver.frames, hOver.blocks, Context.frames_braced hFrames]
      rfl
    rw [closeBlock, hOver.blocks_inside, ← hBraced]
    rfl
  rw [hClose]
  cases hSelector : top.selector with
  | some selector =>
      have hSame : { bare with frames := top.braced context.blocks :: rest } = bare := by
        rw [Frame.braced_of_some (by simp [hSelector]), ← hFrames, ← hInside]
      rw [hSame, leaveFrames_eq_self]
      intro frame hFrame
      rw [hInside, hFrames] at hFrame
      obtain rfl := Option.some.inj hFrame
      simp [Frame.endsWithBlock, hSelector]
  | none =>
      have hSingle : top.single = true := hEnds.resolve_right (by simp [hSelector])
      have hSettled := h.settled top hTop hSelector
      rw [hFrames, List.tail_cons] at hSettled
      have hBlock : (top.braced context.blocks).endsWithBlock context.blocks = true := by
        rw [Frame.braced_of_none hSelector]
        simp [Frame.endsWithBlock, hSelector]
      have hItem : top.endsWithItem bare.blocks = true := by
        simp [Frame.endsWithItem, hSingle, hOwner, hBlocks]
      rw [leaveFrames_cons rfl hBlock, leaveFrames_eq_self hSettled, Frame.otherwise_braced]
      exact endItem_congr (leaveFrames_cons (hInside.trans hFrames) hItem).symm

/-- The word ends the header of an `if` or of a loop, or the choice of a case item, or it is an
`else`. What follows it is a branch. -/
def opensBranch (walk : Walk) (word : String) : Bool :=
  walk.label = .idle && walk.frames.head?.all (! ·.endsWithBlock walk.blocks) &&
    match walk.place with
    | .generateHeader .if depth _ => depth = 1 && word = ")"
    | .generateHeader .for depth _ => walk.chained.isNone && depth = 1 && word = ")"
    | .generateChoice depth _ => walk.chained.isNone && depth = 0 && walk.awaitsChoice && word = ":"
    | .moduleBody => walk.chained.isNone && ! walk.awaitsChoice && word = "else"
    | _ => false

/-- The walk in one block more. -/
def openBlock (walk : Walk) : Walk := { walk with blocks := walk.blocks + 1 }

/-- Two walks are in front of the item of a branch, without a block around it and in a block. -/
inductive AtBranch : Walk → Walk → Prop where
  | intro {context : Context} {own : Walk} {found : Findings} (notes notes' : List Note)
      (hBranch : context.IsBranch)
      (hOwn : Alike False (fun _ _ => True) { place := .moduleBody } own) :
      AtBranch (own.inside context found notes) (own.inside context.braced found notes')

/-- The next word means one thing. -/
theorem isNext_of_ne {symbol symbol' : Symbol} (h : isNext next symbol = true)
    (hNe : symbol ≠ symbol') :
    isNext next symbol' = false := by
  cases next with
  | none => rfl
  | some later =>
      rw [isNext, Option.any_some, decide_eq_true_iff] at h
      rw [isNext, Option.any_some, h, decide_eq_false hNe]

/-- Between the items of a body a `begin` opens a block. -/
theorem step_begin (hPlace : walk.place = .moduleBody) (hLabel : walk.label = .idle)
    (hHere : here.symbol = .keyword .begin) (hNext : isNext next .colon = false) :
    ∃ notes, walk.step (.word here next) = { walk.openBlock with notes } := by
  have hNoted : (walk.note (.visited walk.place.region.name here.text)).place = .moduleBody :=
    hPlace
  refine ⟨(walk.note (.visited walk.place.region.name here.text)).notes, ?_⟩
  rw [step_word hLabel, read_keyword .begin hNoted hHere (.inr rfl), readItemKeyword,
    expectLabel, hNext, if_neg Bool.false_ne_true]
  rfl

/-- An `end` closes a block there. -/
theorem step_end (hPlace : walk.place = .moduleBody) (hLabel : walk.label = .idle)
    (hHere : here.symbol = .keyword .end) (hNext : isNext next .colon = false) :
    ∃ note, walk.step (.word here next) = (walk.note note).closeBlock := by
  have hNoted : (walk.note (.visited walk.place.region.name here.text)).place = .moduleBody :=
    hPlace
  refine ⟨.visited walk.place.region.name here.text, ?_⟩
  rw [step_word hLabel, read_keyword .end hNoted hHere (.inr rfl), readItemKeyword,
    expectLabel, hNext, if_neg Bool.false_ne_true]

/-- The walk in front of an item without what is open around it. -/
def bare (walk : Walk) : Walk :=
  { walk with
    place := .moduleBody, frames := [], blocks := 0, bases := [], found := {}, notes := [] }

/-- Two walks are alike at the beginning of an item but for what is open around it. -/
theorem alike_bare (walk : Walk) (hLabel : walk.label = .idle) (hChained : walk.chained = none) :
    Alike False (fun _ _ => True) { place := .moduleBody } walk.bare where
  place := rfl
  bases := rfl
  blocks := rfl
  label := hLabel
  shapes := rfl
  chained := by rw [bare, hChained]
  texts := nofun
  found := trivial

/-- A condition that is put in force for an item or for a block is that of a branch. -/
theorem atBranch_enterFrame (walk : Walk) (condition otherwise : String)
    (hSettled : ∀ frame ∈ walk.frames.head?, frame.endsWithBlock walk.blocks = false)
    (hLabel : walk.label = .idle) (hChained : walk.chained = none)
    (hBare : isNext next (.keyword .begin) = false)
    (hBegin : isNext next' (.keyword .begin) = true) :
    AtBranch ((walk.enterFrame condition otherwise next).goto .moduleBody)
      ((walk.enterFrame condition otherwise next').goto .moduleBody).openBlock := by
  have hBranch : Context.IsBranch {
      frames := { condition, otherwise, owner := walk.blocks, single := true } :: walk.frames
      blocks := walk.blocks
      bases := walk.bases } := {
    awaiting := by simp
    owner := by simp
    ends := by simp
    settled := fun _ _ _ => hSettled }
  have hOwn := walk.alike_bare hLabel hChained
  rw [enterFrame, enterFrame, hBare, hBegin]
  exact .intro _ _ hBranch hOwn

/-- The choice of a case item that is read puts its condition in force for the branch. -/
theorem atBranch_choice (walk : Walk) {top : Frame} (rest : List Frame)
    (hSelector : top.selector.isSome = true) (hOwner : top.owner = walk.blocks)
    (hAwaiting : top.awaiting = false) (hLabel : walk.label = .idle)
    (hChained : walk.chained = none) :
    AtBranch { walk with frames := top :: rest, place := .moduleBody }
      ({ walk with frames := top :: rest, place := .moduleBody } : Walk).openBlock := by
  have hBranch : Context.IsBranch ⟨top :: rest, walk.blocks, walk.bases⟩ := {
    awaiting := by simpa using hAwaiting
    owner := by simp [hOwner]
    ends := by simp [hOwner, hSelector]
    settled := by simp [Option.isSome_iff_ne_none.1 hSelector] }
  have hOwn := walk.alike_bare hLabel hChained
  have hAt : AtBranch (walk.bare.inside _ walk.found walk.notes)
      (walk.bare.inside _ walk.found walk.notes) :=
    .intro walk.notes walk.notes hBranch hOwn
  simp only [Context.braced, List.modifyHead_cons, Frame.braced_of_some hSelector] at hAt
  exact hAt

/-- The colon behind the choice of a case item puts its condition in force. -/
theorem read_choice {expr : Capture} (hPlace : walk.place = .generateChoice 0 expr)
    (hAwaits : walk.awaitsChoice = true) (hHere : here.symbol = .colon) :
    ∃ top rest, top.selector.isSome = true ∧ top.owner = walk.blocks ∧ top.awaiting = false ∧
      ∀ next, walk.read here next = { walk with frames := top :: rest, place := .moduleBody } := by
  rw [awaitsChoice] at hAwaits
  cases hFrames : walk.frames with
  | nil =>
      rw [hFrames] at hAwaits
      cases hAwaits
  | cons top rest =>
      simp only [hFrames, Bool.and_eq_true, decide_eq_true_eq] at hAwaits
      obtain ⟨selector, hSelector⟩ := Option.isSome_iff_exists.1 hAwaits.1.1
      refine ⟨{ top with
        condition := if expr.text = "default" then expr.text else selector ++ " == " ++ expr.text
        awaiting := false }, rest, hAwaits.1.1, hAwaits.2, rfl, fun next => ?_⟩
      rw [read, hPlace]
      dsimp only
      rw [readChoice, hHere, hFrames]
      simp only [hSelector]
      rfl

/-- The closing parenthesis of a generate header puts its condition in force. -/
theorem read_header {kind : GenerateKind} {expr : Capture}
    (hPlace : walk.place = .generateHeader kind 1 expr) (hHere : here.symbol = .parenClose)
    (next : Option Lexeme) :
    walk.read here next = (walk.enterGenerate kind expr.text next).goto .moduleBody := by
  rw [read, hPlace]
  dsimp only
  rw [readGenerate, hHere]
  rfl

/-- An `else` that no chain goes on from puts the negated condition in force. -/
theorem read_else (hPlace : walk.place = .moduleBody) (hAwaits : walk.awaitsChoice = false)
    (hHere : here.symbol = .keyword .else) (hNext : isNext next (.keyword .if) = false) :
    walk.read here next = (({ walk with pendingElse := none } : Walk).enterFrame
      (walk.pendingElse.getD "") "" next).goto .moduleBody := by
  rw [read_keyword .else hPlace hHere (.inl hAwaits), readItemKeyword, readElse, hNext,
    if_neg Bool.false_ne_true, goto, ← hPlace]
  rfl

/-- The word in front of a branch leads to its item, and in front of a block to the block. -/
theorem step_opener {word : String} (h : walk.opensBranch word = true)
    (hHere : here.symbol = Symbol.ofText word) (hBare : isNext next (.keyword .begin) = false)
    (hBegin : isNext next' (.keyword .begin) = true)
    (hChain : word = "else" → isNext next (.keyword .if) = false) :
    AtBranch (walk.step (.word here next)) (walk.step (.word here next')).openBlock := by
  simp only [opensBranch, Bool.and_eq_true, decide_eq_true_eq, Option.all_eq_true,
    Bool.not_eq_true'] at h
  obtain ⟨⟨hLabel, hSettled⟩, hOpens⟩ := h
  rw [step_word hLabel, step_word hLabel]
  set noted := walk.note (.visited walk.place.region.name here.text) with hNoted
  have hPlace : noted.place = walk.place := rfl
  cases hCase : walk.place with
  | generateHeader kind depth expr =>
      rw [hCase] at hOpens hPlace
      have hCloses : depth = 1 ∧ word = ")" ∧ (kind = .for → walk.chained = none) ∧
          kind ≠ .case := by
        cases kind <;> simp_all
      obtain ⟨rfl, rfl, hChained, hKind⟩ := hCloses
      rw [read_header hPlace hHere, read_header hPlace hHere]
      cases kind with
      | «if» =>
          exact atBranch_enterFrame { noted with chained := none } _ _ hSettled hLabel rfl
            hBare hBegin
      | «for» => exact atBranch_enterFrame noted _ _ hSettled hLabel (hChained rfl) hBare hBegin
      | case => exact absurd rfl hKind
  | generateChoice depth expr =>
      rw [hCase] at hOpens hPlace
      simp only [Bool.and_eq_true, decide_eq_true_eq, Option.isNone_iff_eq_none] at hOpens
      obtain ⟨⟨⟨hChained, rfl⟩, hAwaits⟩, rfl⟩ := hOpens
      obtain ⟨top, rest, hSelector, hOwner, hAwaiting, hRead⟩ := read_choice hPlace hAwaits hHere
      rw [hRead, hRead]
      exact atBranch_choice noted rest hSelector hOwner hAwaiting hLabel hChained
  | moduleBody =>
      rw [hCase] at hOpens hPlace
      simp only [Bool.and_eq_true, decide_eq_true_eq, Option.isNone_iff_eq_none,
        Bool.not_eq_true'] at hOpens
      obtain ⟨⟨hChained, hAwaits⟩, rfl⟩ := hOpens
      rw [read_else hPlace hAwaits hHere (hChain rfl),
        read_else hPlace hAwaits hHere (isNext_of_ne hBegin (by decide))]
      exact atBranch_enterFrame { noted with pendingElse := none } _ _ hSettled hLabel hChained
        hBare hBegin
  | _ =>
      rw [hCase] at hOpens
      cases hOpens

/-- Walks that are alike are so inside of a context. -/
theorem Alike.inside {own' : Walk} (h : Alike True (fun _ _ => True) own own') :
    Alike True Eq (own.inside context found notes) (own'.inside context found notes') := by
  obtain ⟨hFrames, hTexts⟩ := h.texts trivial
  have hInside : (own'.inside context found notes').frames =
      (own.inside context found notes).frames := by
    rw [Walk.inside, Walk.inside, hFrames]
  exact {
    place := h.place
    bases := rfl
    blocks := congrArg (context.blocks + ·) h.blocks
    label := h.label
    shapes := congrArg _ hInside
    chained := h.chained
    texts := fun _ => ⟨hInside, hTexts⟩
    found := rfl }

/-- With the same conditions and the same findings walks go on alike. -/
theorem isKept_eq : Findings.IsKept True (fun _ => True) Eq where
  apart h _ := congrArg _ h
  declare h _ := congrArg (declare · _) h
  record h hConditions := by rw [h, hConditions trivial]

namespace AtBranch

variable {other : Walk} {events : List Event}

/-- At a branch, the walk with the block and the walk without it flank the same item. -/
theorem flanks (h : AtBranch walk other) :
    ∃ context : Context, context.IsBranch ∧
      Flanks context context.braced beforeItem walk other := by
  obtain @⟨context, own, found, notes, notes', hBranch, hOwn⟩ := h
  have hSelf : Alike True (fun _ _ => True) own own :=
    ⟨rfl, rfl, rfl, rfl, rfl, rfl, fun _ => ⟨rfl, rfl, rfl⟩, trivial⟩
  exact ⟨context, hBranch,
    .amid (.intro [] notes hOwn nofun) (.intro notes notes' hSelf fun _ => rfl)⟩

theorem place (h : AtBranch walk other) : walk.place = .moduleBody ∧ other.place = .moduleBody := by
  cases h with
  | intro notes notes' hBranch hOwn => exact ⟨hOwn.place, hOwn.place⟩

theorem label (h : AtBranch walk other) : other.label = .idle := by
  cases h with
  | intro notes notes' hBranch hOwn => exact hOwn.label

theorem renoted (h : AtBranch walk other) (later : List Note) :
    AtBranch walk { other with notes := later } := by
  cases h with
  | intro notes notes' hBranch hOwn => exact .intro notes later hBranch hOwn

/-- The item of a branch is read in its block as without it, and behind the block the walk is where
the other one is behind the item. -/
theorem run (h : AtBranch walk other) (hReads : beforeItem.readsItem events = true) :
    (other.run events).place = .moduleBody ∧ (other.run events).label = .idle ∧
      (∀ note, Alike True Eq (walk.run events) ((other.run events).note note).closeBlock) ∧
      ∀ symbols, walk.sought events symbols = beforeItem.sought events symbols ∧
        other.sought events symbols = beforeItem.sought events symbols := by
  obtain ⟨context, hBranch, hFlanks⟩ := h.flanks
  obtain ⟨hPast, hIdle, hSought⟩ := hFlanks.run hBranch.toIsForItem hBranch.braced
    (Context.conditionsOf_braced context) hReads
  refine ⟨hPast.place_other, hPast.label.trans hIdle, fun note => ?_, hSought⟩
  generalize walk.run events = bare at hPast
  generalize other.run events = braced at hPast
  obtain @⟨own, own', found, found', notes, notes', hAlike, hFound, hOver, hPlace⟩ := hPast
  obtain rfl := hFound trivial
  have hOver' := hAlike.isOver hOver
  have hNoted : (own'.inside context.braced found' notes').note note =
      own'.inside context.braced found' (note :: notes') := rfl
  have hInside : Alike True Eq (own.inside context found' notes)
      (own'.inside context found' (note :: notes')) := hAlike.inside
  rw [endItem_braced hBranch.toIsForItem hOver', hNoted, closeBlock_braced hBranch hOver']
  exact hInside.endItem

end AtBranch

end Walk

end HdlIndex.Verilog

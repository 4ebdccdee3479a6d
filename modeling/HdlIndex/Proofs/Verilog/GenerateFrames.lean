import HdlIndex.Proofs.Symbols.Distinct
import HdlIndex.Proofs.Token.Spaced
import HdlIndex.Proofs.Verilog.AlwaysExtent
import HdlIndex.Proofs.Verilog.StatementRun

/-! The written form of generate constructs, the conditions that they put always blocks under, and
those that a walk has in force. A condition is put in force with the number of the block that keeps
it, and that block's `end` takes it away again. The end of an item takes nothing away that an open
block keeps. -/
namespace HdlIndex.Verilog

/-- The symbol can be part of a choice outside of brackets. -/
def Symbol.isChosen : Symbol → Bool
  | keyword word => word == .default
  | colon => false
  | _ => true

/-- The words can stand in the parentheses of a header. -/
def isHeader (words : List String) : Bool := isBalanced (fun _ => true) words

/-- The words can stand in front of the colon of a case item. -/
def isChoice (words : List String) : Bool := ! words.isEmpty && isBalanced Symbol.isChosen words

/-- The text of an expression whose words have a space between them. -/
def expressionText (words : List String) : String := " ".intercalate words

/-- The condition does not hold. -/
def negated (condition : List String) : String := "!(" ++ expressionText condition ++ ")"

/-- None of the conditions holds, which is what an `else` behind them stands for. -/
def noneHolds (conditions : List (List String)) : String :=
  " && ".intercalate (conditions.map negated)

/-- The condition of an `else if`: none of the earlier ones holds, and this one does. -/
def onlyHolds (earlier : List (List String)) (condition : List String) : String :=
  noneHolds earlier ++ " && " ++ ("(" ++ expressionText condition ++ ")")

/-- The condition of a loop. -/
def loopCondition (header : List String) : String := "for (" ++ expressionText header ++ ")"

/-- The condition of a case item. -/
def choiceCondition (selector choice : List String) : String :=
  if choice = ["default"] then "default"
  else expressionText selector ++ " == " ++ expressionText choice

/-- An item of a module's body before it is written: an always block that drives one signal, or a
generate construct around further items. Each branch of one is a block, with or without a label. -/
inductive ModuleItem where
  | always (clock : String) (statement : ProceduralStatement) (signal : String)
  | if (condition : List String) (label : Option String) (body : List ModuleItem)
      (alternatives : List (List String × Option String × List ModuleItem))
      (otherwise : Option (Option String × List ModuleItem))
  | for (header : List String) (label : Option String) (body : List ModuleItem)
  | case (selector : List String) (items : List (List String × Option String × List ModuleItem))

/-- All that non-blocking assignments of the statement assign is part of one signal. -/
def ProceduralStatement.drivesOnly (statement : ProceduralStatement) (signal : String) : Bool :=
  statement.isWellFormed && ! statement.driven.isEmpty &&
    statement.driven.all (baseName · == signal)

namespace ModuleItem

/-- The words up to the inside of a block, which begins behind a mark. -/
def opening (mark : String) : Option String → List String
  | none => [mark, "begin"]
  | some label => [mark, "begin", ":", label]

/-- The words of a block. -/
def block (mark : String) (label : Option String) (inside : List String) : List String :=
  opening mark label ++ (inside ++ ["end"])

mutual

/-- The words of an item. -/
def words : ModuleItem → List String
  | always clock statement _ => statement.alwaysWords clock
  | «if» condition label body alternatives otherwise =>
    ["if", "("] ++ (condition ++ (block ")" label (wordsOfList body) ++
      (wordsOfAlternatives alternatives ++ wordsOfElse otherwise)))
  | «for» header label body => ["for", "("] ++ (header ++ block ")" label (wordsOfList body))
  | case selector items =>
      ["case", "("] ++ (selector ++ ([")"] ++ (wordsOfItems items ++ ["endcase"])))

/-- The words of items. -/
def wordsOfList : List ModuleItem → List String
  | [] => []
  | item :: items => words item ++ wordsOfList items

/-- The words of the `else if` branches. -/
def wordsOfAlternatives : List (List String × Option String × List ModuleItem) → List String
  | [] => []
  | (condition, label, body) :: branches =>
    ["else", "if", "("] ++ (condition ++ (block ")" label (wordsOfList body) ++
      wordsOfAlternatives branches))

/-- The words of the `else` branch. -/
def wordsOfElse : Option (Option String × List ModuleItem) → List String
  | none => []
  | some (label, body) => block "else" label (wordsOfList body)

/-- The words of the items of a case. -/
def wordsOfItems : List (List String × Option String × List ModuleItem) → List String
  | [] => []
  | (choice, label, body) :: branches =>
    choice ++ (block ":" label (wordsOfList body) ++ wordsOfItems branches)

end

mutual

/-- The item can be written: labels are identifiers, and headers and choices end where they
should. -/
def isWellFormed : ModuleItem → Bool
  | always clock statement signal => isIdentifier clock && statement.drivesOnly signal
  | «if» condition label body alternatives otherwise =>
    isHeader condition && label.all isIdentifier && areWellFormed body &&
      alternativesAreWellFormed alternatives && elseIsWellFormed otherwise
  | «for» header label body => isHeader header && label.all isIdentifier && areWellFormed body
  | case selector items => isHeader selector && itemsAreWellFormed items

/-- The items can be written. -/
def areWellFormed : List ModuleItem → Bool
  | [] => true
  | item :: items => isWellFormed item && areWellFormed items

/-- The `else if` branches can be written. -/
def alternativesAreWellFormed : List (List String × Option String × List ModuleItem) → Bool
  | [] => true
  | (condition, label, body) :: branches =>
    isHeader condition && label.all isIdentifier && areWellFormed body &&
      alternativesAreWellFormed branches

/-- The `else` branch can be written. -/
def elseIsWellFormed : Option (Option String × List ModuleItem) → Bool
  | none => true
  | some (label, body) => label.all isIdentifier && areWellFormed body

/-- The items of a case can be written. -/
def itemsAreWellFormed : List (List String × Option String × List ModuleItem) → Bool
  | [] => true
  | (choice, label, body) :: branches =>
    isChoice choice && label.all isIdentifier && areWellFormed body && itemsAreWellFormed branches

end

mutual

/-- The signals that the always blocks of an item drive, each with the conditions around it,
outermost first. -/
def signals (outer : List String) : ModuleItem → List (String × List String)
  | always _ _ signal => [(signal, outer)]
  | «if» condition _ body alternatives otherwise =>
    signalsOfList (outer ++ [expressionText condition]) body ++
      (signalsOfAlternatives outer [condition] alternatives ++
        signalsOfElse outer (condition :: alternatives.map (·.1)) otherwise)
  | «for» header _ body => signalsOfList (outer ++ [loopCondition header]) body
  | case selector items => signalsOfItems outer selector items

/-- The signals of items. -/
def signalsOfList (outer : List String) : List ModuleItem → List (String × List String)
  | [] => []
  | item :: items => signals outer item ++ signalsOfList outer items

/-- The signals of the `else if` branches behind conditions that come earlier. -/
def signalsOfAlternatives (outer : List String) (earlier : List (List String)) :
    List (List String × Option String × List ModuleItem) → List (String × List String)
  | [] => []
  | (condition, _, body) :: branches =>
    signalsOfList (outer ++ [onlyHolds earlier condition]) body ++
      signalsOfAlternatives outer (earlier ++ [condition]) branches

/-- The signals of the `else` branch. -/
def signalsOfElse (outer : List String) (conditions : List (List String)) :
    Option (Option String × List ModuleItem) → List (String × List String)
  | none => []
  | some (_, body) => signalsOfList (outer ++ [noneHolds conditions]) body

/-- The signals of the items of a case. -/
def signalsOfItems (outer : List String) (selector : List String) :
    List (List String × Option String × List ModuleItem) → List (String × List String)
  | [] => []
  | (choice, _, body) :: branches =>
    signalsOfList (outer ++ [choiceCondition selector choice]) body ++
      signalsOfItems outer selector branches

end

end ModuleItem

section Frames

variable {word : Token} {words : List Token} {after : Option Token} {walk : Walk} {place : Place}
  {frames : List Frame} {blocks : Nat} {known : List (String × List String)}
  {condition otherwise : String}

/-- A condition for the block that is opened inside of `blocks` others. -/
def Frame.ofBlock (condition otherwise : String) (blocks : Nat) : Frame :=
  { condition, otherwise, owner := blocks + 1, single := false }

/-- The condition of the current item of a case, inside of `blocks` open blocks. -/
def Frame.ofCase (selector condition : String) (awaiting : Bool) (blocks : Nat) : Frame :=
  { condition, otherwise := "", owner := blocks, single := false,
    selector := some selector, awaiting }

/-- The conditions in force, outermost first. -/
def conditionsOf (frames : List Frame) : List String := (frames.map (·.condition)).reverse

theorem conditionsOf_cons (top : Frame) :
    conditionsOf (top :: frames) = conditionsOf frames ++ [top.condition] := by
  simp [conditionsOf]

/-- The conditions that a walk has in force, and the blocks that are open. -/
structure Level where
  frames : List Frame
  blocks : Nat
  /-- The condition of an `else` whose `if` is to come. -/
  chained : Option String := none

/-- The end of an item changes nothing: the innermost condition is kept by an open block, or by a
block inside of the case that it belongs to. -/
def Level.IsSteady (level : Level) : Prop :=
  ∀ top ∈ level.frames.head?, top.single = false ∧
    (top.selector.isSome = true → top.owner ≠ level.blocks) ∧
    (top.selector = none → top.owner ≤ level.blocks)

/-- Behind `begin` the level is steady. -/
theorem Level.IsSteady.ofBlock (chained : Option String) :
    Level.IsSteady ⟨.ofBlock condition otherwise blocks :: frames, blocks + 1, chained⟩ := by
  rintro top hTop
  obtain rfl := Option.some.inj hTop
  exact ⟨rfl, nofun, fun _ => Nat.le_refl _⟩

/-- And so it is inside of the block that the choice of a case opens. -/
theorem Level.IsSteady.ofCase {selector : String} {awaiting : Bool} (chained : Option String) :
    Level.IsSteady ⟨.ofCase selector condition awaiting blocks :: frames, blocks + 1, chained⟩ := by
  rintro top hTop
  obtain rfl := Option.some.inj hTop
  exact ⟨rfl, fun _ => (Nat.succ_ne_self blocks).symm, nofun⟩

namespace Walk

variable {level : Level}

/-- The walk is at a place and awaits no label. It has the conditions in force and the clocked
signals found. -/
structure IsAt (level : Level) (known : List (String × List String)) (place : Place) (walk : Walk) :
    Prop where
  place : walk.place = place
  label : walk.label = .idle
  frames : walk.frames = level.frames
  blocks : walk.blocks = level.blocks
  chained : walk.chained = level.chained
  known : walk.found.clocked.snapshots = known

theorem IsAt.stands (h : walk.IsAt level known place) : walk.Stands place walk :=
  ⟨walk.notes, by rw [← h.place, ← h.label]⟩

theorem IsAt.goto (h : walk.IsAt level known place) (place' : Place) :
    (walk.goto place').IsAt level known place' :=
  ⟨rfl, h.label, h.frames, h.blocks, h.chained, h.known⟩

theorem IsAt.note (h : walk.IsAt level known place) (note : Note) :
    (walk.note note).IsAt level known place :=
  ⟨h.place, h.label, h.frames, h.blocks, h.chained, h.known⟩

theorem IsAt.idle (hPlace : ∀ token, token.isBlank = true → place.absorb token = place) :
    machine.Idle (IsAt level known place) := by
  intro token walk hBlank hWalk
  exact ⟨(congrArg (·.absorb token) hWalk.place).trans (hPlace token hBlank), hWalk.label,
    hWalk.frames, hWalk.blocks, hWalk.chained, hWalk.known⟩

/-- Where no label is awaited, a word is read where the walk stands. -/
theorem step_word (h : walk.label = .idle) (here : Lexeme) (next : Option Lexeme) :
    walk.step (.word here next) =
      (walk.note (.visited walk.place.region.name here.text)).read here next := by
  have hWalk : { walk with label := .idle } = walk := by rw [← h]
  simp only [step, readWord, readLabel?, h]
  rw [hWalk]

/-- A word is read where the walk is. -/
theorem IsAt.leads {Q R : Walk → Prop}
    (hPlace : ∀ token, token.isBlank = true → place.absorb token = place)
    (hRead : ∀ walk : Walk, walk.IsAt level known place →
      Q (walk.read (.ofToken word) ((words.head?.or after).map .ofToken)))
    (hRest : machine.LeadsThrough words after Q R) :
    machine.LeadsThrough (word :: words) after (IsAt level known place) R := by
  apply Machine.LeadsThrough.cons (idle hPlace) _ hRest
  rintro _ walk rfl hWalk
  refine (congrArg Q (step_word hWalk.label _ _)).mpr (hRead _ (hWalk.note _))

/-- What leads on from where some walk stands leads on from where the walk is. -/
theorem IsAt.through {Q : Walk → Prop} (h : ∀ base : Walk, base.IsAt level known place →
      machine.LeadsThrough words after (base.Stands place) Q) :
    machine.LeadsThrough words after (IsAt level known place) Q := by
  intro tokens hTokens events walk hReads hWalk
  exact h walk hWalk tokens hTokens events walk hReads hWalk.stands

/-- If the innermost frame stays open, so do all others. -/
theorem leaveFrames_eq_self {ends : Frame → Bool}
    (h : ∀ top ∈ walk.frames.head?, ends top = false) :
    walk.leaveFrames ends = walk := by
  have ⟨hLeft, hKept⟩ : walk.frames.takeWhile ends = [] ∧
      walk.frames.dropWhile ends = walk.frames := by
    cases hFrames : walk.frames with
    | nil => exact ⟨rfl, rfl⟩
    | cons top rest =>
        have hTop : ends top = false := h top (by rw [hFrames]; rfl)
        exact ⟨List.takeWhile_cons_of_neg (by simp [hTop]),
          List.dropWhile_cons_of_neg (by simp [hTop])⟩
  rw [leaveFrames, hLeft, hKept]
  rfl

/-- Behind an item of a steady level nothing changes. -/
theorem endItem_eq_self (hSteady : level.IsSteady) (hFrames : walk.frames = level.frames)
    (hBlocks : walk.blocks = level.blocks) : walk.endItem = walk := by
  rw [Level.IsSteady, ← hFrames, ← hBlocks] at hSteady
  have hBehind : framesBehind walk.blocks walk.frames = walk.frames := by
    unfold framesBehind
    cases hCase : walk.frames with
    | nil => rfl
    | cons top rest =>
        obtain ⟨hSingle, hOwner, -⟩ := hSteady top (by rw [hCase]; rfl)
        have hAwaits : (top.selector.isSome && decide (top.owner = walk.blocks)) = false := by
          simpa using hOwner
        rw [List.dropWhile_cons_of_neg (by simp [hSingle])]
        simp [hAwaits]
  rw [endItem_eq, leaveFrames_eq_self, hBehind]
  intro top hTop
  simp [(hSteady top hTop).1]

/-- In a steady level no case waits for its next choice. -/
theorem awaitsChoice_eq_false (hSteady : level.IsSteady) (hWalk : walk.IsAt level known place) :
    walk.awaitsChoice = false := by
  rw [Level.IsSteady, ← hWalk.frames, ← hWalk.blocks] at hSteady
  unfold awaitsChoice
  cases hCase : walk.frames with
  | nil => rfl
  | cons top rest =>
      have hOwner := (hSteady top (by rw [hCase]; rfl)).2.1
      simp only [Bool.and_eq_false_iff, decide_eq_false_iff_not]
      by_cases hSelector : top.selector.isSome = true
      · exact .inr (hOwner hSelector)
      · exact .inl (.inl (by simpa using hSelector))

/-- The end of a block ends the condition that it keeps, and an `else` may follow. -/
theorem closeBlock_ofBlock (hSteady : Level.IsSteady { frames, blocks })
    (hFrames : walk.frames = .ofBlock condition otherwise blocks :: frames)
    (hBlocks : walk.blocks = blocks + 1) :
    walk.closeBlock = { walk with frames, blocks, pendingElse := some otherwise } := by
  let ends (frame : Frame) := frame.selector.isNone && ! frame.single && blocks < frame.owner
  have hTop : ends (.ofBlock condition otherwise blocks) = true := by
    simp [ends, Frame.ofBlock]
  have ⟨hLeft, hKept⟩ : frames.takeWhile ends = [] ∧ frames.dropWhile ends = frames := by
    cases frames with
    | nil => exact ⟨rfl, rfl⟩
    | cons top rest =>
        have hOwner := (hSteady top rfl).2.2
        have hTop : ends top = false := by
          cases hSelector : top.selector with
          | none => simpa [ends, hSelector] using fun _ => hOwner hSelector
          | some selector => simp [ends, hSelector]
        exact ⟨List.takeWhile_cons_of_neg (by simp [hTop]),
          List.dropWhile_cons_of_neg (by simp [hTop])⟩
  have hLeave : ({ walk with blocks } : Walk).leaveFrames ends =
      { walk with frames, blocks, pendingElse := some otherwise } := by
    rw [leaveFrames]
    dsimp only
    rw [hFrames, List.takeWhile_cons_of_pos hTop, List.dropWhile_cons_of_pos hTop, hLeft, hKept]
    rfl
  have hClose : walk.closeBlock = (({ walk with blocks } : Walk).leaveFrames ends).endItem := by
    rw [closeBlock, hBlocks]
    rfl
  rw [hClose, hLeave, endItem_eq_self hSteady rfl rfl]

/-- The end of the block of a case item keeps the case, and the next choice is to come. -/
theorem closeBlock_ofCase {selector : String} {awaiting : Bool}
    (hFrames : walk.frames = .ofCase selector condition awaiting blocks :: frames)
    (hBlocks : walk.blocks = blocks + 1) :
    walk.closeBlock =
      { walk with frames := .ofCase selector condition true blocks :: frames, blocks } := by
  have hClose : walk.closeBlock = ({ walk with blocks } : Walk).endItem := by
    rw [closeBlock, hBlocks, leaveFrames_eq_self]
    · rfl
    · intro top hTop
      rw [hFrames] at hTop
      obtain rfl := Option.some.inj hTop
      rfl
  have hBehind : framesBehind blocks (.ofCase selector condition awaiting blocks :: frames) =
      .ofCase selector condition true blocks :: frames := by
    simp [framesBehind, Frame.ofCase]
  rw [hClose, endItem_eq, leaveFrames_eq_self]
  · simp only [hFrames, hBehind]
  · intro top hTop
    obtain rfl := Option.some.inj ((congrArg List.head? hFrames).symm.trans hTop)
    rfl

/-- A condition is put in force for the block that follows. -/
theorem IsAt.enterFrame {chained : Option String} {next : Option Lexeme}
    (h : walk.IsAt { frames, blocks, chained } known place)
    (hNext : isNext next (.keyword .begin) = true) :
    (walk.enterFrame condition otherwise next).IsAt
      { frames := .ofBlock condition otherwise blocks :: frames, blocks, chained } known place := by
  rw [Walk.enterFrame, hNext]
  refine ⟨h.place, h.label, ?_, h.blocks, h.chained, h.known⟩
  show { condition, otherwise, owner := walk.blocks + 1, single := false } :: walk.frames = _
  rw [h.frames, h.blocks]
  rfl

/-- An always block under a clock adds its signal under the conditions in force. -/
theorem leads_clocked {clock signal : String} {statement : ProceduralStatement}
    (hSteady : Level.IsSteady { frames, blocks }) (hClock : isIdentifier clock = true)
    (h : statement.drivesOnly signal = true) :
    machine.LeadsAlong ["else", ":"] (statement.alwaysWords clock)
      (IsAt { frames, blocks } known .moduleBody)
      (IsAt { frames, blocks } (addSnapshot known (signal, conditionsOf frames)) .moduleBody) := by
  simp only [ProceduralStatement.drivesOnly, Bool.and_eq_true, Bool.not_eq_true',
    List.isEmpty_eq_false_iff, List.all_eq_true, beq_iff_eq] at h
  obtain ⟨⟨hStatement, hSome⟩, hBase⟩ := h
  refine .of_through fun words after hWords hAfter => IsAt.through fun base hWalk => ?_
  obtain ⟨first, last, process, harvest, -, -, -, -, hHarvest, -, hLeads⟩ :=
    leads_always hClock hStatement hWords
  refine (hLeads base after (awaitsChoice_eq_false hSteady hWalk) ?_).imp ?_
  · exact fun next hNext hElse => hAfter next hNext (by simp [hElse])
  rintro _ ⟨notes, rfl⟩
  have hDriven : harvest.driven.map (·.text) = statement.driven := hHarvest.driven
  have hEnd : ((base.gains harvest).commitProcess process last.span.stop).endItem =
      (base.gains harvest).commitProcess process last.span.stop :=
    endItem_eq_self hSteady hWalk.frames hWalk.blocks
  rw [hEnd]
  refine ⟨rfl, rfl, hWalk.frames, hWalk.blocks, hWalk.chained, ?_⟩
  have hConditions : base.conditions = conditionsOf frames := congrArg conditionsOf hWalk.frames
  have hClocked : ((base.gains harvest).commitProcess process last.span.stop).found.clocked =
      (harvest.driven.map (·.stem)).foldl
        (fun signals word => signals.record word base.conditions) base.found.clocked := by
    rw [List.foldl_map]
    rfl
  dsimp only
  rw [hClocked, ClockedSignals.snapshots_record_foldl signal, hWalk.known, hConditions]
  · intro hNil
    rw [List.map_eq_nil_iff.1 hNil] at hDriven
    exact hSome hDriven.symm
  · intro word hMem
    obtain ⟨target, hTarget, rfl⟩ := List.mem_map.1 hMem
    exact hBase target.text (hDriven ▸ List.mem_map_of_mem hTarget)

/-- A reserved word begins or ends an item, unless it may be a choice. -/
theorem read_keyword {here : Lexeme} {next : Option Lexeme} (keyword : Keyword)
    (hPlace : walk.place = .moduleBody) (hHere : here.symbol = .keyword keyword)
    (hItem : walk.awaitsChoice = false ∨ isBlockWord (.keyword keyword) = true) :
    walk.read here next = walk.readItemKeyword keyword here next := by
  have hChoice : (walk.awaitsChoice && ! isBlockWord (.keyword keyword)) = false := by
    rcases hItem with hItem | hBlock
    · rw [hItem, Bool.false_and]
    · rw [hBlock, Bool.not_true, Bool.and_false]
  rw [Walk.read, hPlace]
  dsimp only
  rw [readItem, hHere, hChoice, if_neg Bool.false_ne_true]

/-- At a steady level, or for a word of blocks, a keyword opens what it announces: no branch has to
be left first. -/
theorem IsAt.read_keyword (keyword : Keyword) (hWalk : walk.IsAt level known .moduleBody)
    (hItem : level.IsSteady ∨ isBlockWord (.keyword keyword) = true)
    (hWord : word.text = keyword.text) (next : Option Lexeme) :
    walk.read (.ofToken word) next = walk.readItemKeyword keyword (.ofToken word) next :=
  Walk.read_keyword keyword hWalk.place (Lexeme.symbol_keyword keyword hWord)
    (hItem.imp_left fun hSteady => awaitsChoice_eq_false hSteady hWalk)

end Walk

end Frames

end HdlIndex.Verilog

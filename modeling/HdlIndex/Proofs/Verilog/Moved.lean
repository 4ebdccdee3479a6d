import HdlIndex.Proofs.Symbols.Moved
import HdlIndex.Proofs.Verilog.StatementWords

/-! A walk whose words stand at other places. Reading a word before or after such a move comes to
the same: no decision of the walk depends on where a word stands. A type that is made of several
words reaches from the first of them to the last, so the move has to keep the order of places.
Closing a process and naming a clocked signal compute places of their own, so there words have to be
moved as wholes. -/
namespace HdlIndex

section Declarations

/-- A range that reaches from one place to another is moved with both. -/
theorem Span.through_moved {move : Nat → Nat} (hMove : Monotone move) (span last : Span) :
    (span.moved move).through (last.moved move) = (span.through last).moved move := by
  simp [through, moved, hMove.map_max]

namespace Verilog

/-- The lexeme at another place. -/
def Lexeme.moved (move : Nat → Nat) (lexeme : Lexeme) : Lexeme :=
  ⟨lexeme.token.moved move, lexeme.symbol⟩

/-- The item with its words at other places. -/
def Item.moved (move : Nat → Nat) (item : Item) : Item :=
  { item with type := item.type.map (·.moved move), name := item.name.map (·.moved move) }

/-- The move with its item at another place. -/
def Move.moved (move : Nat → Nat) : Move → Move
  | .stay item => .stay (item.moved move)
  | .next => .next
  | .done => .done
  | .close => .close

/-- The statement with its words at other places. -/
def Instantiation.moved (move : Nat → Nat) (statement : Instantiation) : Instantiation :=
  { statement with type := statement.type.moved move, name := statement.name.map (·.moved move) }

/-- The block with its process at another place. -/
def Block.moved (move : Nat → Nat) (block : Block) : Block :=
  { block with process := block.process.map (·.moved move) }

/-- The place with its words at other places. -/
def Place.moved (move : Nat → Nat) : Place → Place
  | .parameterList owner inside item => .parameterList owner (move inside) (item.moved move)
  | .portList owner item => .portList owner (item.moved move)
  | .declaration item => .declaration (item.moved move)
  | .instanceHeader statement depth => .instanceHeader (statement.moved move) depth
  | .instanceMap statement depth => .instanceMap (statement.moved move) depth
  | .alwaysHeader process => .alwaysHeader (process.moved move)
  | .sensitivityList process depth => .sensitivityList (process.moved move) depth
  | .alwaysBlock clocked block => .alwaysBlock clocked (block.moved move)
  | place => place

/-- The instance with its words at other places. -/
def Instance.moved (move : Nat → Nat) (entry : Instance) : Instance :=
  ⟨entry.name.moved move, entry.module.moved move⟩

/-- What was found, at other places. -/
def Findings.moved (move : Nat → Nat) (found : Findings) : Findings where
  modules := found.modules.moved move
  ports := found.ports.moved move
  parameters := found.parameters.moved move
  objects := found.objects.moved move
  genericClause := found.genericClause.map (·.moved move)
  clocked := found.clocked.moved move
  instances := found.instances.map (·.moved move)
  labels := found.labels.moved move
  packages := found.packages.moved move
  processes := found.processes.map (·.moved move)

/-- The event at another place. -/
def Event.moved (move : Nat → Nat) : Event → Event
  | .comment span => .comment (span.moved move)
  | .directive span => .directive (span.moved move)
  | .filler token => .filler (token.moved move)
  | .word here next => .word (here.moved move) (next.map (·.moved move))
  | .ended offset => .ended (move offset)

/-- The walk with everything at other places. -/
def Walk.moved (move : Nat → Nat) (walk : Walk) : Walk :=
  { walk with
    place := walk.place.moved move
    found := walk.found.moved move
    notes := walk.notes.map (·.moved move) }

section

variable {move : Nat → Nat} (here : Lexeme)

@[simp]
theorem Lexeme.symbol_moved : (here.moved move).symbol = here.symbol := rfl

@[simp]
theorem Lexeme.text_moved : (here.moved move).text = here.text := rfl

@[simp]
theorem Lexeme.word_moved : (here.moved move).word = here.word.moved move := rfl

theorem Lexeme.span_moved : (here.moved move).span = here.span.moved move := rfl

@[simp]
theorem isNext_moved (next : Option Lexeme) (symbol : Symbol) :
    Walk.isNext (next.map (·.moved move)) symbol = Walk.isNext next symbol := by
  cases next <;> rfl

@[simp]
theorem Owner.place_moved (owner : Owner) : owner.place.moved move = owner.place := by
  cases owner <;> rfl

end

namespace Item

variable {move : Nat → Nat} {item : Item} {here : Lexeme} {depth : Nat}

/-- Types are taken from words as they stand, and move with them. -/
theorem pushType_moved (hMove : Monotone move) :
    (item.moved move).pushType (here.moved move) = (item.pushType here).moved move := by
  have hKeyword : (item.moved move).keyword = item.keyword := rfl
  have hType : (item.moved move).type = item.type.map (·.moved move) := rfl
  rw [pushType, pushType, hKeyword, hType, Lexeme.span_moved]
  cases item.type with
  | none => rfl
  | some type =>
      dsimp only [Option.map_some, Word.moved]
      rw [Span.through_moved hMove]
      rfl

/-- An earlier name becomes the type, or is joined to it, and the joined span moves as a whole since
the map is monotone. -/
theorem pushName_moved (hMove : Monotone move) :
    (item.moved move).pushName (here.moved move) = (item.pushName here).moved move := by
  have hName : (item.moved move).name = item.name.map (·.moved move) := rfl
  have hType : (item.moved move).type = item.type.map (·.moved move) := rfl
  have hQualifies : (item.moved move).qualifies = item.qualifies := rfl
  rw [pushName, pushName, hName, hType, hQualifies, Lexeme.span_moved]
  cases item.name with
  | none => rfl
  | some earlier =>
      dsimp only [Option.map_some, Word.moved]
      rw [Span.through_moved hMove]
      split
      · rfl
      · cases item.type <;> rfl

/-- The head of an item looks at the texts of words only. -/
theorem readHead_moved (hMove : Monotone move) :
    (item.moved move).readHead (here.moved move) = (item.readHead here).moved move := by
  have hKind : (item.moved move).kind = item.kind := rfl
  rw [readHead, readHead, Lexeme.symbol_moved, Lexeme.text_moved, hKind, pushType_moved hMove,
    pushName_moved hMove]
  split
  case h_1 => split <;> rfl
  case h_12 => split <;> rfl
  case h_13 => split <;> rfl
  all_goals rfl

theorem readRange_moved :
    (item.moved move).readRange depth (here.moved move) =
      (item.readRange depth here).moved move := by
  unfold readRange
  rw [Lexeme.symbol_moved]
  split
  case h_2 =>
    dsimp only
    split <;> rfl
  all_goals rfl

theorem readValue_moved :
    (item.moved move).readValue depth (here.moved move) =
      (item.readValue depth here).moved move := by
  unfold readValue
  have hKind : (item.moved move).kind = item.kind := rfl
  rw [Lexeme.symbol_moved, hKind]
  dsimp only
  split
  case h_4 => split <;> rfl
  case h_7 => split <;> rfl
  case h_8 => split <;> rfl
  all_goals rfl

/-- An item reads the text of a word, and keeps its place. -/
theorem read_moved (hMove : Monotone move) :
    (item.moved move).read (here.moved move) = (item.read here).moved move := by
  have hPart : (item.moved move).part = item.part := rfl
  rw [read, read, hPart]
  split
  · exact readHead_moved hMove
  · exact readRange_moved
  · exact readValue_moved

@[simp]
theorem afterName_moved : (item.moved move).afterName = item.afterName.moved move := rfl

end Item

namespace Walk

variable {move : Nat → Nat} {walk : Walk} {here : Lexeme} {next : Option Lexeme} {home : Home}
  {item : Item} {owner : Owner} {depth inside : Nat}

@[simp]
theorem goto_moved (place : Place) :
    (walk.goto place).moved move = (walk.moved move).goto (place.moved move) := rfl

theorem collect_moved {change change' : Findings → Findings}
    (h : (change walk.found).moved move = change' (walk.found.moved move)) :
    (walk.collect change).moved move = (walk.moved move).collect change' := by
  rw [collect, collect, moved, h]
  rfl

theorem leaveFrames_moved (ends : Frame → Bool) :
    (walk.moved move).leaveFrames ends = (walk.leaveFrames ends).moved move := rfl

theorem endItem_moved (walk : Walk) : (walk.moved move).endItem = walk.endItem.moved move := by
  unfold endItem
  have hEnds : (fun frame : Frame => frame.single && (walk.moved move).blocks ≤ frame.owner) =
      fun frame : Frame => frame.single && walk.blocks ≤ frame.owner := rfl
  rw [hEnds, leaveFrames_moved]
  generalize walk.leaveFrames _ = left
  have hFrames : (left.moved move).frames = left.frames := rfl
  have hBlocks : (left.moved move).blocks = left.blocks := rfl
  dsimp only
  rw [hFrames, hBlocks]
  cases left.frames with
  | nil => rfl
  | cons top rest => dsimp only; split <;> rfl

theorem backToBody_moved (walk : Walk) :
    (walk.moved move).backToBody = walk.backToBody.moved move :=
  endItem_moved (walk.goto .moduleBody)

theorem resume_moved (home : Home) :
    (walk.moved move).resume home = (walk.resume home).moved move := by
  cases home with
  | moduleBody => exact backToBody_moved walk
  | _ => rfl

theorem expectLabel_moved (walk : Walk) (recorded : Bool) :
    (walk.moved move).expectLabel recorded (next.map (·.moved move)) =
      (walk.expectLabel recorded next).moved move := by
  rw [expectLabel, expectLabel, isNext_moved]
  split <;> rfl

theorem enterFrame_moved (walk : Walk) (condition otherwise : String) :
    (walk.moved move).enterFrame condition otherwise (next.map (·.moved move)) =
      (walk.enterFrame condition otherwise next).moved move := by
  unfold enterFrame
  rw [isNext_moved]
  rfl

/-- Declaring a moved item among moved findings finds the same port: ports are looked up by name. -/
theorem declare_moved (found : Findings) (item : Item) :
    declare (found.moved move) (item.moved move) = (declare found item).moved move := by
  have hName : (item.moved move).name = item.name.map (·.moved move) := rfl
  have hKind : (item.moved move).kind = item.kind := rfl
  have hType : (item.moved move).type = item.type.map (·.moved move) := rfl
  have hTexts : (item.moved move).rangeText = item.rangeText ∧
      (item.moved move).valueText = item.valueText ∧
      (item.moved move).direction = item.direction ∧
      (item.moved move).keyword = item.keyword := ⟨rfl, rfl, rfl, rfl⟩
  have hPorts : ∀ text, (found.moved move).ports.find? text = found.ports.find? text :=
    fun text => Declarations.find?_moved found.ports text
  have hText : ∀ name : Word, (name.moved move).text = name.text := fun _ => rfl
  rw [declare, declare, hName, hKind]
  cases item.name with
  | none => rfl
  | some name =>
      dsimp only [Option.map_some]
      cases item.kind with
      | bodyPort =>
          simp only [declarePort, hText, hPorts, hType, hTexts]
          split <;> simp [Findings.moved]
      | bodyNet =>
          simp only [declareNet, hText, hPorts, hType, hTexts]
          split <;> simp [Findings.moved]
      | _ => simp [Findings.moved, hType, hTexts]

theorem flush_moved : (walk.moved move).flush (item.moved move) = (walk.flush item).moved move :=
  (collect_moved (declare_moved _ _).symm).symm

theorem closeParameters_moved (offset : Nat) :
    (walk.moved move).closeParameters owner (move inside) (move offset) =
      (walk.closeParameters owner inside offset).moved move := by
  rw [closeParameters, closeParameters, goto_moved, Owner.place_moved]
  rfl

theorem readParameters_moved (hMove : Monotone move) :
    (walk.moved move).readParameters owner (move inside) (item.moved move) (here.moved move) =
      (walk.readParameters owner inside item here).moved move := by
  rw [readParameters, readParameters, Item.read_moved hMove, flush_moved]
  cases item.read here with
  | close => exact closeParameters_moved _
  | _ => rfl

theorem readPorts_moved (hMove : Monotone move) :
    (walk.moved move).readPorts owner (item.moved move) (here.moved move) =
      (walk.readPorts owner item here).moved move := by
  rw [readPorts, readPorts, Item.read_moved hMove, flush_moved]
  cases item.read here with
  | close =>
      dsimp only [Move.moved]
      rw [goto_moved, Owner.place_moved]
  | _ => rfl

theorem readDeclaration_moved (hMove : Monotone move) (walk : Walk) (item : Item) :
    (walk.moved move).readDeclaration (item.moved move) (here.moved move) =
      (walk.readDeclaration item here).moved move := by
  rw [readDeclaration, readDeclaration, Item.read_moved hMove, flush_moved]
  cases item.read here with
  | stay item => rfl
  | next => rfl
  | done => exact backToBody_moved _
  | close => exact backToBody_moved _

theorem readContext_moved :
    (walk.moved move).readContext (here.moved move) = (walk.readContext here).moved move := by
  rw [readContext, readContext, Lexeme.symbol_moved]
  split <;> rfl

theorem readModuleName_moved :
    (walk.moved move).readModuleName (here.moved move) = (walk.readModuleName here).moved move := by
  rw [readModuleName, readModuleName, Lexeme.symbol_moved]
  split
  · rw [goto_moved, collect_moved]
    · rfl
    · simp [Findings.moved]
  · rfl

theorem readModuleHeader_moved {announced : Bool} :
    (walk.moved move).readModuleHeader announced (here.moved move) =
      (walk.readModuleHeader announced here).moved move := by
  rw [readModuleHeader, readModuleHeader, Lexeme.symbol_moved]
  split
  case h_2 => split <;> rfl
  case h_3 => exact backToBody_moved { walk with blocks := 0 }
  all_goals rfl

/-- What decides about an import is whether `::` comes next, which no move changes. -/
theorem readImport_moved :
    (walk.moved move).readImport home (here.moved move) (next.map (·.moved move)) =
      (walk.readImport home here next).moved move := by
  have hPackage : (if isNext next .scope then
        (walk.moved move).collect fun found =>
          { found with packages := found.packages.push (here.moved move).word }
      else walk.moved move) =
      (if isNext next .scope then
        walk.collect fun found => { found with packages := found.packages.push here.word }
      else walk).moved move := by
    split
    · symm
      exact collect_moved (by simp [Findings.moved])
    · rfl
  rw [readImport, readImport, Lexeme.symbol_moved, isNext_moved]
  split
  · exact resume_moved home
  · exact hPackage
  · exact hPackage
  · rfl

theorem readSkippedBlock_moved {closer : Keyword} :
    (walk.moved move).readSkippedBlock closer home (here.moved move) =
      (walk.readSkippedBlock closer home here).moved move := by
  rw [readSkippedBlock, readSkippedBlock, Lexeme.symbol_moved, resume_moved]
  split <;> rfl

theorem readSkipped_moved :
    (walk.moved move).readSkipped depth (here.moved move) =
      (walk.readSkipped depth here).moved move := by
  rw [readSkipped, readSkipped, Lexeme.symbol_moved, backToBody_moved]
  split
  · rfl
  split
  · rfl
  split <;> rfl

end Walk

end Verilog

end Declarations

namespace Verilog

variable {move : Nat → Nat} {block : Block} {here : Lexeme}

/-- Names that are moved as wholes may be made types of several words. -/
theorem isRigid_located (move : Nat → Nat) : Located (·.IsRigid move) fun _ => True :=
  .ofNames (isRigid_inherited move).rooted

namespace Walk

variable {walk : Walk} {next : Option Lexeme} {process : HdlProcess} {clocked : Bool} {depth : Nat}
  {expr : Capture} {kind : GenerateKind} {statement : Instantiation}

theorem commitProcess_moved (hMove : Monotone move) (process : HdlProcess) (offset : Nat) :
    (walk.moved move).commitProcess (process.moved move) (move offset) =
      (walk.commitProcess process offset).moved move := by
  rw [commitProcess, commitProcess, ← process.close_moved hMove]
  symm
  exact collect_moved (by simp [Findings.moved, note])

theorem beginAlways_moved (word : Keyword) :
    (walk.moved move).beginAlways word (here.moved move) =
      (walk.beginAlways word here).moved move := by
  have hStart : HdlProcess.starting none (here.moved move).span.start =
      (HdlProcess.starting none here.span.start).moved move :=
    (HdlProcess.starting_moved none here.span.start).symm
  unfold beginAlways
  rw [hStart]
  cases word <;> rfl

theorem readSensitivity_moved :
    (walk.moved move).readSensitivity (process.moved move) depth (here.moved move) =
      (walk.readSensitivity process depth here).moved move := by
  have hPush : (process.moved move).pushSensitivity (here.word.moved move) =
      (process.pushSensitivity here.word).moved move := by simp
  unfold readSensitivity
  dsimp only
  rw [Lexeme.symbol_moved, Lexeme.word_moved, hPush]
  split
  case h_2 => split <;> rfl
  case h_3 => split <;> rfl
  case h_6 => split <;> rfl
  all_goals rfl

theorem endStatement_moved (hMove : Monotone move) (block : Block) :
    (walk.moved move).endStatement clocked (block.moved move) (here.moved move)
        (next.map (·.moved move)) =
      (walk.endStatement clocked block here next).moved move := by
  have hProcess : (block.moved move).process = block.process.map (·.moved move) := rfl
  have hStop : (here.moved move).span.stop = move here.span.stop := rfl
  rw [endStatement, endStatement, isNext_moved, hProcess, hStop, backToBody_moved]
  split
  · rfl
  cases block.process with
  | none => rfl
  | some process =>
      dsimp only [Option.map_some]
      rw [commitProcess_moved hMove, backToBody_moved]

/-- The stems of clocked signals are moved with them. -/
theorem recordClocked_foldl_moved (found : Findings) {targets : List Word}
    (hTargets : ∀ target ∈ targets, target.IsRigid move) (conditions : List String) :
    (targets.map (·.moved move)).foldl (recordClocked · · conditions) (found.moved move) =
      (targets.foldl (recordClocked · · conditions) found).moved move := by
  induction targets generalizing found with
  | nil => rfl
  | cons target targets ih =>
      rw [List.forall_mem_cons] at hTargets
      have hRecord : recordClocked (found.moved move) (target.moved move) conditions =
          (recordClocked found target conditions).moved move := by
        rw [recordClocked, recordClocked, hTargets.1.stem_moved]
        simp [Findings.moved]
      rw [List.map_cons, List.foldl_cons, hRecord, ih _ hTargets.2, List.foldl_cons]

theorem mark_foldl_moved (process : HdlProcess) (indices : List Nat) (role : Role) :
    indices.foldl (fun process index => process.mark index role) (process.moved move) =
      (indices.foldl (fun process index => process.mark index role) process).moved move := by
  induction indices generalizing process with
  | nil => rfl
  | cons index indices ih => rw [List.foldl_cons, ← HdlProcess.mark_moved, ih, List.foldl_cons]

/-- The words of a block are indexed, so that the index of the target is the same wherever the block
stands. The block is rigid: its words keep their lengths. -/
theorem readAssignment_moved (hBlock : block.All (·.IsRigid move)) {nonBlocking : Bool} :
    (walk.moved move).readAssignment clocked (block.moved move) nonBlocking =
      (walk.readAssignment clocked block nonBlocking).moved move := by
  have hProcess : (block.moved move).process = block.process.map (·.moved move) := rfl
  have hStatement : (block.moved move).statement = block.statement := rfl
  unfold readAssignment
  dsimp only
  rw [hProcess, hStatement]
  cases hTargets : block.statement.targets with
  | nil => rfl
  | cons target targets =>
      cases hOpen : block.process with
      | none => rfl
      | some process =>
          dsimp only [Option.map_some]
          have hWords : (target :: targets).filterMap (process.moved move).bodyWord? =
              ((target :: targets).filterMap process.bodyWord?).map (·.moved move) := by
            rw [List.map_filterMap]
            exact congrArg (List.filterMap · _) (funext process.bodyWord?_moved)
          have hRigid : ∀ word ∈ (target :: targets).filterMap process.bodyWord?,
              word.IsRigid move := by
            intro word hMem
            obtain ⟨index, -, hWord⟩ := List.mem_filterMap.1 hMem
            exact (hBlock process hOpen).bodyWord? hWord
          rw [hWords, mark_foldl_moved]
          split
          · symm
            exact collect_moved (recordClocked_foldl_moved _ hRigid _).symm
          · rfl

theorem readBodyWord_moved :
    readBodyWord (block.moved move) (here.moved move) = (readBodyWord block here).moved move := by
  have hProcess : (block.moved move).process = block.process.map (·.moved move) := rfl
  have hStatement : (block.moved move).statement = block.statement := rfl
  have hDepth : (block.moved move).depth = block.depth := rfl
  unfold readBodyWord
  dsimp only
  rw [Lexeme.symbol_moved, hProcess, hStatement, hDepth]
  cases here.symbol with
  | name =>
      cases block.process with
      | none => rfl
      | some process =>
          dsimp only [Option.map_some]
          rw [HdlProcess.size_body_moved, Lexeme.word_moved, ← HdlProcess.pushBody_moved]
          rfl
  | _ => rfl

theorem readOpener_moved :
    readOpener (block.moved move) (here.moved move) = (readOpener block here).moved move := by
  have hPending : (block.moved move).headerPending = block.headerPending := rfl
  have hDepth : (block.moved move).depth = block.depth := rfl
  unfold readOpener
  dsimp only
  rw [Lexeme.symbol_moved, hPending, hDepth]
  split <;> rfl

theorem readCloser_moved :
    readCloser (block.moved move) (here.moved move) = (readCloser block here).moved move := by
  have hHeader : (block.moved move).headerDepth = block.headerDepth := rfl
  have hDepth : (block.moved move).depth = block.depth := rfl
  unfold readCloser
  dsimp only
  rw [Lexeme.symbol_moved, hHeader, hDepth]
  split <;> rfl

/-- Keywords of a block count ends and headers. Of all they do, only the end of the block depends on
places. -/
theorem readBlockKeyword_moved (hMove : Monotone move) (word : Keyword) :
    (walk.moved move).readBlockKeyword clocked (block.moved move) word (here.moved move)
        (next.map (·.moved move)) =
      (walk.readBlockKeyword clocked block word here next).moved move := by
  have hStay : ∀ other : Block, (walk.moved move).goto (.alwaysBlock clocked (other.moved move)) =
      (walk.goto (.alwaysBlock clocked other)).moved move := fun _ => rfl
  have hClose : ∀ other : Block, (if other.nest = 0 then
        (walk.moved move).endStatement clocked (other.moved move) (here.moved move)
          (next.map (·.moved move))
      else ((walk.moved move).goto (.alwaysBlock clocked (other.moved move))).expectLabel false
        (next.map (·.moved move))) =
      (if other.nest = 0 then walk.endStatement clocked other here next
      else (walk.goto (.alwaysBlock clocked other)).expectLabel false next).moved move := by
    intro other
    rw [endStatement_moved hMove, hStay, expectLabel_moved]
    split <;> rfl
  have hOpen : ∀ other : Block,
      ((walk.moved move).goto (.alwaysBlock clocked (other.moved move))).expectLabel true
        (next.map (·.moved move)) =
      ((walk.goto (.alwaysBlock clocked other)).expectLabel true next).moved move :=
    fun other => expectLabel_moved (walk.goto (.alwaysBlock clocked other)) true
  unfold readBlockKeyword
  dsimp only
  split
  case h_1 => exact hOpen { block with nest := block.nest + 1, statement := {} }
  case h_2 => exact hOpen { block with nest := block.nest + 1, statement := {} }
  case h_9 =>
    split
    · rfl
    split
    · exact hClose { block with nest := block.nest - 1, statement := {} }
    · rw [readBodyWord_moved, hStay]
  all_goals rfl

/-- Any word of a block is read alike at its moved place. -/
theorem readBlock_moved (hMove : Monotone move) (hBlock : block.All (·.IsRigid move)) :
    (walk.moved move).readBlock clocked (block.moved move) (here.moved move)
        (next.map (·.moved move)) =
      (walk.readBlock clocked block here next).moved move := by
  have hStay : ∀ other : Block, (walk.moved move).goto (.alwaysBlock clocked (other.moved move)) =
      (walk.goto (.alwaysBlock clocked other)).moved move := fun _ => rfl
  have hSame : (block.moved move).depth = block.depth ∧ (block.moved move).nest = block.nest ∧
      (block.moved move).ternary = block.ternary := ⟨rfl, rfl, rfl⟩
  have hEnd : (walk.moved move).endStatement clocked
      { block.moved move with ternary := 0, statement := {} } (here.moved move)
      (next.map (·.moved move)) =
      (walk.endStatement clocked { block with ternary := 0, statement := {} } here next).moved
        move :=
    endStatement_moved hMove { block with ternary := 0, statement := {} }
  unfold readBlock
  dsimp only
  rw [Lexeme.symbol_moved, hSame.1, hSame.2.1, hSame.2.2, readOpener_moved, readCloser_moved,
    readBodyWord_moved, readAssignment_moved hBlock, readAssignment_moved hBlock]
  split
  · rfl
  split
  · rfl
  split
  · rfl
  split
  case h_1 =>
    split
    · exact hEnd
    · rfl
  case h_2 => exact readBlockKeyword_moved hMove _
  case h_4 => split <;> rfl
  all_goals rfl

theorem readAlwaysHeader_moved (hMove : Monotone move) (hProcess : process.All (·.IsRigid move)) :
    (walk.moved move).readAlwaysHeader (process.moved move) (here.moved move)
        (next.map (·.moved move)) =
      (walk.readAlwaysHeader process here next).moved move := by
  rw [readAlwaysHeader, readAlwaysHeader, Lexeme.symbol_moved]
  split
  · rfl
  · have hBlock : Block.All (·.IsRigid move) { process := some process } := by
      rintro _ ⟨⟩
      exact hProcess
    exact readBlock_moved hMove hBlock

theorem readChoice_moved :
    (walk.moved move).readChoice depth expr (here.moved move) =
      (walk.readChoice depth expr here).moved move := by
  have hFrames : (walk.moved move).frames = walk.frames := rfl
  unfold readChoice
  dsimp only
  rw [Lexeme.symbol_moved, hFrames]
  split
  · rfl
  split
  · rfl
  split <;> rfl

theorem closeCase_moved : (walk.moved move).closeCase = walk.closeCase.moved move := by
  have hFrames : (walk.moved move).frames = walk.frames := rfl
  unfold closeCase
  rw [hFrames]
  split
  · exact endItem_moved walk
  · next outer _ => exact endItem_moved { walk with frames := outer }

theorem readElse_moved :
    (walk.moved move).readElse (next.map (·.moved move)) = (walk.readElse next).moved move := by
  have hPending : (walk.moved move).pendingElse = walk.pendingElse := rfl
  have hFrame : ∀ condition, ({ walk.moved move with pendingElse := none } : Walk).enterFrame
      condition "" (next.map (·.moved move)) =
      (({ walk with pendingElse := none } : Walk).enterFrame condition "" next).moved move :=
    fun condition => enterFrame_moved { walk with pendingElse := none } condition ""
  unfold readElse
  dsimp only
  rw [hPending, isNext_moved, hFrame]
  split <;> rfl

/-- So is any keyword between items. -/
theorem readItemKeyword_moved (hMove : Monotone move) (word : Keyword) :
    (walk.moved move).readItemKeyword word (here.moved move) (next.map (·.moved move)) =
      (walk.readItemKeyword word here next).moved move := by
  have hDeclare : ∀ kind, (walk.moved move).beginDeclaration kind (here.moved move) =
      (walk.beginDeclaration kind here).moved move :=
    fun kind => readDeclaration_moved hMove walk { kind }
  have hClose : (walk.moved move).closeBlock = walk.closeBlock.moved move :=
    endItem_moved (({ walk with blocks := walk.blocks - 1 } : Walk).leaveFrames fun frame =>
      frame.selector.isNone && ! frame.single && walk.blocks - 1 < frame.owner)
  have hBegin : ({ walk.moved move with blocks := (walk.moved move).blocks + 1 } : Walk).expectLabel
      true (next.map (·.moved move)) =
      (({ walk with blocks := walk.blocks + 1 } : Walk).expectLabel true next).moved move :=
    expectLabel_moved { walk with blocks := walk.blocks + 1 } true
  unfold readItemKeyword
  rw [hDeclare, hDeclare, hDeclare, hDeclare, hClose, expectLabel_moved, hBegin, closeCase_moved,
    readElse_moved, beginAlways_moved]
  split
  all_goals first
    | rfl
    | (split <;> rfl)

theorem readItem_moved (hMove : Monotone move) :
    (walk.moved move).readItem (here.moved move) (next.map (·.moved move)) =
      (walk.readItem here next).moved move := by
  have hAwaits : (walk.moved move).awaitsChoice = walk.awaitsChoice := rfl
  rw [readItem, readItem, hAwaits, Lexeme.symbol_moved]
  split
  · exact readChoice_moved
  split
  · exact endItem_moved walk
  · exact readItemKeyword_moved hMove _
  · rfl
  · rfl

theorem enterGenerate_moved (header : String) :
    (walk.moved move).enterGenerate kind header (next.map (·.moved move)) =
      (walk.enterGenerate kind header next).moved move := by
  cases kind with
  | «if» => exact enterFrame_moved { walk with chained := none } _ _
  | «for» => exact enterFrame_moved walk _ _
  | case => rfl

theorem readGenerate_moved :
    (walk.moved move).readGenerate kind depth expr (here.moved move) (next.map (·.moved move)) =
      (walk.readGenerate kind depth expr here next).moved move := by
  unfold readGenerate
  dsimp only
  rw [Lexeme.symbol_moved, enterGenerate_moved]
  split
  · rfl
  split
  · rfl
  split
  · rfl
  split
  · rfl
  split <;> rfl

theorem commitInstance_moved (type name : Word) :
    (walk.moved move).commitInstance (type.moved move) (name.moved move) =
      (walk.commitInstance type name).moved move := by
  simp [commitInstance, collect, note, moved, Findings.moved, Instance.moved,
    Note.moved, Word.moved]

theorem readInstanceName_moved (hMove : Monotone move) :
    (walk.moved move).readInstanceName (statement.moved move) (here.moved move) =
      (walk.readInstanceName statement here).moved move := by
  have hQualifies : (statement.moved move).qualifies = statement.qualifies := rfl
  have hName : (statement.moved move).name = statement.name.map (·.moved move) := rfl
  have hType : (statement.moved move).type.span = statement.type.span.moved move := rfl
  unfold readInstanceName
  dsimp only
  rw [hQualifies, hName, hType, Lexeme.span_moved, Span.through_moved hMove]
  split
  · rfl
  · cases statement.name <;> rfl

/-- An instance keeps the words it may still need as a declaration, and these move along. -/
theorem readInstance_moved (hMove : Monotone move) :
    (walk.moved move).readInstance (statement.moved move) depth (here.moved move) =
      (walk.readInstance statement depth here).moved move := by
  have hName : (statement.moved move).name = statement.name.map (·.moved move) := rfl
  have hParameters : (statement.moved move).parameters = statement.parameters := rfl
  have hType : (statement.moved move).type = statement.type.moved move := rfl
  have hDeclare : ∀ name : Word, (walk.moved move).readDeclaration
      { kind := .bodyNet, type := some (statement.type.moved move), name := some (name.moved move) }
        (here.moved move) =
      (walk.readDeclaration { kind := .bodyNet, type := some statement.type, name := some name }
        here).moved move :=
    fun name => readDeclaration_moved hMove walk
      { kind := .bodyNet, type := some statement.type, name := some name }
  have hCommit : ∀ name : Word, ((walk.moved move).commitInstance (statement.type.moved move)
      (name.moved move)).goto (.instanceMap { statement.moved move with name := none } 1) =
      ((walk.commitInstance statement.type name).goto
        (.instanceMap { statement with name := none } 1)).moved move := by
    intro name
    rw [commitInstance_moved]
    rfl
  unfold readInstance
  dsimp only
  rw [hName, hParameters, hType, Lexeme.symbol_moved, readInstanceName_moved hMove,
    backToBody_moved]
  split
  · split <;> rfl
  cases statement.name with
  | none =>
      dsimp only [Option.map_none]
      split <;> first
        | rfl
        | contradiction
        | (split <;> rfl)
  | some name =>
      dsimp only [Option.map_some]
      generalize here.symbol = symbol
      cases symbol <;> first
        | rfl
        | exact hCommit name
        | exact hDeclare name

theorem readMap_moved :
    (walk.moved move).readMap (statement.moved move) depth (here.moved move) =
      (walk.readMap statement depth here).moved move := by
  unfold readMap
  rw [Lexeme.symbol_moved, backToBody_moved]
  split
  · rfl
  split
  · rfl
  split <;> rfl

/-- Reading a word comes to reading it at another place. -/
theorem read_moved (h : walk.All (·.IsRigid move) (fun _ => True)) (hMove : Monotone move) :
    (walk.moved move).read (here.moved move) (next.map (·.moved move)) =
      (walk.read here next).moved move := by
  have hPlace : (walk.moved move).place = walk.place.moved move := rfl
  have hWords := h.place
  rw [read, read, hPlace]
  cases hHome : walk.place with
  | moduleContext => exact readContext_moved
  | moduleName => exact readModuleName_moved
  | moduleHeader announced => exact readModuleHeader_moved
  | parameterList owner inside item => exact readParameters_moved hMove
  | portList owner item => exact readPorts_moved hMove
  | moduleBody => exact readItem_moved hMove
  | declaration item => exact readDeclaration_moved hMove walk item
  | importClause home => exact readImport_moved
  | instanceHeader statement depth => exact readInstance_moved hMove
  | instanceMap statement depth => exact readMap_moved
  | generateHeader kind depth expr => exact readGenerate_moved
  | generateChoice depth expr => exact readChoice_moved
  | alwaysHeader process =>
      rw [hHome] at hWords
      exact readAlwaysHeader_moved hMove hWords
  | sensitivityList process depth => exact readSensitivity_moved
  | alwaysBlock clocked block =>
      rw [hHome] at hWords
      exact readBlock_moved hMove hWords
  | skipStatement depth => exact readSkipped_moved
  | skipBlock closer home => exact readSkippedBlock_moved

/-- Whether a word is part of a label is asked of its text. -/
theorem readLabel?_moved :
    (walk.moved move).readLabel? (here.moved move) =
      (walk.readLabel? here).map (·.moved move) := by
  have hLabel : (walk.moved move).label = walk.label := rfl
  rw [readLabel?, readLabel?, hLabel, Lexeme.symbol_moved]
  cases walk.label with
  | idle => rfl
  | colon recorded => dsimp only; split <;> rfl
  | name recorded =>
      dsimp only
      split
      · split
        · simp [moved, collect, Findings.moved]
        · rfl
      · rfl

theorem region_moved (move : Nat → Nat) (place : Place) :
    (place.moved move).region = place.region := by
  cases place <;> rfl

/-- Reading a moved word in a moved walk is reading the word and moving the result. -/
theorem readWord_moved (h : walk.All (·.IsRigid move) (fun _ => True)) (hMove : Monotone move) :
    (walk.moved move).readWord (here.moved move) (next.map (·.moved move)) =
      (walk.readWord here next).moved move := by
  have hIdle : Walk.All (·.IsRigid move) (fun _ => True)
      ({ walk with label := .idle }.note (.visited walk.place.region.name here.text)) :=
    h.of_eq rfl rfl
  have hRegion : (walk.moved move).place.region = walk.place.region := region_moved move walk.place
  rw [readWord, readWord, readLabel?_moved, hRegion]
  cases walk.readLabel? here with
  | some labelled => rfl
  | none => exact read_moved hIdle hMove

/-- The same at the end of the text, which is moved to where it stands. -/
theorem flushAt_moved (offset : Nat) :
    (walk.moved move).flushAt (move offset) = (walk.flushAt offset).moved move := by
  have hPlace : (walk.moved move).place = walk.place.moved move := rfl
  rw [flushAt, flushAt, hPlace]
  cases walk.place with
  | parameterList owner inside item =>
      dsimp only [Place.moved]
      rw [flush_moved, closeParameters_moved]
  | portList owner item =>
      dsimp only [Place.moved]
      rw [flush_moved, goto_moved, Owner.place_moved]
  | declaration item =>
      dsimp only [Place.moved]
      rw [flush_moved]
      rfl
  | _ => rfl

theorem absorb_moved (move : Nat → Nat) (place : Place) (token : Token) :
    (place.moved move).absorb (token.moved move) = (place.absorb token).moved move := by
  cases place <;> rfl

/-- And the same for any event of the reader. -/
theorem step_moved {event : Event} (h : walk.All (·.IsRigid move) (fun _ => True))
    (hMove : Monotone move) :
    (walk.moved move).step (event.moved move) = (walk.step event).moved move := by
  cases event with
  | comment span => rfl
  | directive span => rfl
  | filler token =>
      have hPlace : (walk.moved move).place.absorb (token.moved move) =
          (walk.place.absorb token).moved move := absorb_moved _ _ _
      rw [Event.moved, step, hPlace]
      rfl
  | word here next => exact readWord_moved h hMove
  | ended offset => exact flushAt_moved offset

/-- Taking the events of a text comes to taking them at other places. -/
theorem run_moved {events : List Event} (h : walk.All (·.IsRigid move) (fun _ => True))
    (hMove : Monotone move) (hEvents : ∀ event ∈ events, event.All (·.IsRigid move)) :
    (walk.moved move).run (events.map (·.moved move)) = (walk.run events).moved move := by
  induction events generalizing walk with
  | nil => rfl
  | cons event events ih =>
      rw [List.forall_mem_cons] at hEvents
      have hRest := ih (h.step (isRigid_located move) hEvents.1) hEvents.2
      rw [← step_moved h hMove] at hRest
      exact hRest

theorem process?_moved (move : Nat → Nat) (place : Place) :
    (place.moved move).process? = place.process?.map (·.moved move) := by
  cases place <;> rfl

/-- The end of a text comes to its end at another place. -/
theorem finish_moved (hMove : Monotone move) (size : Nat) :
    (walk.moved move).finish (move size) = (walk.finish size).moved move := by
  unfold finish
  dsimp only
  rw [flushAt_moved]
  generalize walk.flushAt size = flushed
  have hProcess : (flushed.moved move).place.process? =
      flushed.place.process?.map (·.moved move) := process?_moved _ _
  rw [hProcess]
  cases flushed.place.process? with
  | none => rfl
  | some process => exact commitProcess_moved hMove process size

end Walk

end Verilog

end HdlIndex

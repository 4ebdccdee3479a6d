import HdlIndex.Proofs.Verilog.Turns

/-! A text that holds nothing but a header list. Its list is left for good: behind the closing
parenthesis the walk is between modules, and every list that opens there belongs to a module. So a
walk that stands in the list at its end has never left it. -/
namespace HdlIndex.Verilog

/-- The place is in a list that is the whole text. -/
def Place.isAlone : Place → Bool
  | .parameterList owner _ _ | .portList owner _ => owner = .text
  | _ => false

theorem Owner.isAlone_place (owner : Owner) : owner.place.isAlone = false := by cases owner <;> rfl

namespace Walk

variable {walk base : Walk} {item : Item} {process : HdlProcess} {block : Block} {clocked : Bool}
  {here : Lexeme} {next : Option Lexeme}

theorem Idles.isAlone (h : walk.Idles base) : base.place.isAlone = walk.place.isAlone :=
  congrArg Place.isAlone h.place

theorem isAlone_backToBody (walk : Walk) : walk.backToBody.place.isAlone = false :=
  (Idles.endItem _).isAlone

theorem isAlone_resume (walk : Walk) (home : Home) : (walk.resume home).place.isAlone = false := by
  cases home with
  | moduleContext => rfl
  | moduleHeader announced => rfl
  | moduleBody => exact isAlone_backToBody walk

/-- A parameter list that is not the lone list being scanned can only close into a place of its
owner. -/
theorem isAlone_readParameters {owner : Owner} {inside : Nat}
    (hPlace : walk.place = .parameterList owner inside item) (h : walk.place.isAlone = false) :
    (walk.readParameters owner inside item here).place.isAlone = false := by
  rw [hPlace] at h
  rw [readParameters]
  split
  case h_4 => exact owner.isAlone_place
  all_goals exact h

theorem isAlone_readPorts {owner : Owner} (hPlace : walk.place = .portList owner item)
    (h : walk.place.isAlone = false) : (walk.readPorts owner item here).place.isAlone = false := by
  rw [hPlace] at h
  rw [readPorts]
  split
  case h_4 => exact owner.isAlone_place
  all_goals exact h

theorem isAlone_readDeclaration : (walk.readDeclaration item here).place.isAlone = false := by
  rw [readDeclaration]
  split
  · rfl
  · rfl
  all_goals exact isAlone_backToBody _

theorem isAlone_readContext (h : walk.place.isAlone = false) :
    (walk.readContext here).place.isAlone = false := by
  rw [readContext]
  split
  all_goals first
    | rfl
    | exact h

theorem isAlone_readModuleName (h : walk.place.isAlone = false) :
    (walk.readModuleName here).place.isAlone = false := by
  rw [readModuleName]
  split
  · rfl
  · exact h

/-- Lists opened by the header of a module belong to that module. -/
theorem isAlone_readModuleHeader {announced : Bool} (h : walk.place.isAlone = false) :
    (walk.readModuleHeader announced here).place.isAlone = false := by
  rw [readModuleHeader]
  repeat' split
  all_goals first
    | rfl
    | exact h
    | exact isAlone_backToBody _

theorem isAlone_readImport {home : Home} (h : walk.place.isAlone = false) :
    (walk.readImport home here next).place.isAlone = false := by
  rw [readImport]
  repeat' split
  all_goals first
    | exact isAlone_resume _ _
    | exact h

theorem isAlone_readSkippedBlock {closer : Keyword} {home : Home} (h : walk.place.isAlone = false) :
    (walk.readSkippedBlock closer home here).place.isAlone = false := by
  rw [readSkippedBlock]
  split
  · exact isAlone_resume _ _
  · exact h

theorem isAlone_readSkipped {depth : Nat} (h : walk.place.isAlone = false) :
    (walk.readSkipped depth here).place.isAlone = false := by
  rw [readSkipped]
  repeat' split
  all_goals first
    | rfl
    | exact isAlone_backToBody _
    | exact h

theorem isAlone_readChoice {depth : Nat} {expr : Capture} :
    (walk.readChoice depth expr here).place.isAlone = false := by
  unfold readChoice
  dsimp only
  repeat' split
  all_goals rfl

theorem isAlone_beginAlways {word : Keyword} :
    (walk.beginAlways word here).place.isAlone = false := by
  unfold beginAlways
  dsimp only
  split <;> rfl

/-- Keywords between items open statements, never a list without a module. -/
theorem isAlone_readItemKeyword {word : Keyword} (h : walk.place.isAlone = false) :
    (walk.readItemKeyword word here next).place.isAlone = false := by
  unfold readItemKeyword
  repeat' split
  all_goals first
    | with_reducible exact isAlone_beginAlways
    | rfl
    | exact h
    | exact isAlone_readDeclaration
    | exact (Idles.expectLabel _ _ _).isAlone.trans h
    | exact ((Idles.closeBlock walk).trans (.expectLabel _ _ _)).isAlone.trans h
    | exact (Idles.closeCase walk).isAlone.trans h
    | exact (Idles.readElse walk next).isAlone.trans h

theorem isAlone_readItem (h : walk.place.isAlone = false) :
    (walk.readItem here next).place.isAlone = false := by
  rw [readItem]
  split
  · exact isAlone_readChoice
  · split
    · exact (Idles.endItem walk).isAlone.trans h
    · exact isAlone_readItemKeyword h
    · rfl
    · rfl

theorem isAlone_readGenerate {kind : GenerateKind} {depth : Nat} {expr : Capture}
    (h : walk.place.isAlone = false) :
    (walk.readGenerate kind depth expr here next).place.isAlone = false := by
  unfold readGenerate
  dsimp only
  repeat' split
  all_goals first
    | rfl
    | exact h

/-- An instance header ends in the body it started from. -/
theorem isAlone_readInstance {statement : Instantiation} {depth : Nat}
    (h : walk.place.isAlone = false) :
    (walk.readInstance statement depth here).place.isAlone = false := by
  have hName : (walk.readInstanceName statement here).place.isAlone = false := by
    rw [readInstanceName]
    repeat' split
    all_goals first
      | rfl
      | exact h
  unfold readInstance
  dsimp only
  repeat' split
  all_goals first
    | rfl
    | exact h
    | exact hName
    | exact isAlone_readDeclaration
    | exact isAlone_backToBody _

theorem isAlone_readMap {statement : Instantiation} {depth : Nat} (h : walk.place.isAlone = false) :
    (walk.readMap statement depth here).place.isAlone = false := by
  unfold readMap
  repeat' split
  all_goals first
    | rfl
    | exact isAlone_backToBody _
    | exact h

theorem isAlone_readSensitivity {depth : Nat} (h : walk.place.isAlone = false) :
    (walk.readSensitivity process depth here).place.isAlone = false := by
  unfold readSensitivity
  dsimp only
  repeat' split
  all_goals first
    | rfl
    | exact h

theorem isAlone_endStatement :
    (walk.endStatement clocked block here next).place.isAlone = false := by
  rw [endStatement]
  repeat' split
  all_goals first
    | rfl
    | exact isAlone_backToBody _

theorem isAlone_readAssignment {nonBlocking : Bool} :
    (walk.readAssignment clocked block nonBlocking).place.isAlone = false := by
  unfold readAssignment
  dsimp only
  repeat' split
  all_goals rfl

theorem isAlone_readBlockKeyword {word : Keyword} :
    (walk.readBlockKeyword clocked block word here next).place.isAlone = false := by
  unfold readBlockKeyword
  dsimp only
  repeat' split
  all_goals first
    | rfl
    | exact isAlone_endStatement
    | exact (Idles.expectLabel _ _ _).isAlone

/-- A block stays in its process or returns to the body. -/
theorem isAlone_readBlock : (walk.readBlock clocked block here next).place.isAlone = false := by
  unfold readBlock
  dsimp only
  repeat' split
  all_goals first
    | rfl
    | exact isAlone_endStatement
    | exact isAlone_readBlockKeyword
    | exact isAlone_readAssignment

theorem isAlone_readAlwaysHeader :
    (walk.readAlwaysHeader process here next).place.isAlone = false := by
  rw [readAlwaysHeader]
  split
  · rfl
  · exact isAlone_readBlock

/-- No word leads into a list that is the whole text. -/
theorem isAlone_read (h : walk.place.isAlone = false) :
    (walk.read here next).place.isAlone = false := by
  rw [read]
  cases hPlace : walk.place with
  | moduleContext => exact isAlone_readContext h
  | moduleName => exact isAlone_readModuleName h
  | moduleHeader announced => exact isAlone_readModuleHeader h
  | parameterList owner inside item => exact isAlone_readParameters hPlace h
  | portList owner item => exact isAlone_readPorts hPlace h
  | moduleBody => exact isAlone_readItem h
  | declaration item => exact isAlone_readDeclaration
  | importClause home => exact isAlone_readImport h
  | instanceHeader statement depth => exact isAlone_readInstance h
  | instanceMap statement depth => exact isAlone_readMap h
  | generateHeader kind depth expr => exact isAlone_readGenerate h
  | generateChoice depth expr => exact isAlone_readChoice
  | alwaysHeader process => exact isAlone_readAlwaysHeader
  | sensitivityList process depth => exact isAlone_readSensitivity h
  | alwaysBlock clocked block => exact isAlone_readBlock
  | skipStatement depth => exact isAlone_readSkipped h
  | skipBlock closer home => exact isAlone_readSkippedBlock h

theorem isAlone_readWord (h : walk.place.isAlone = false) :
    (walk.readWord here next).place.isAlone = false := by
  rw [readWord]
  cases hLabel : walk.readLabel? here with
  | none => exact isAlone_read h
  | some labelled =>
      rw [readLabel?] at hLabel
      repeat' split at hLabel
      all_goals cases hLabel
      all_goals exact h

/-- The end of a text leaves every list. -/
theorem isAlone_flushAt (walk : Walk) (offset : Nat) :
    (walk.flushAt offset).place.isAlone = false := by
  rw [flushAt]
  cases hPlace : walk.place with
  | parameterList owner inside item => exact owner.isAlone_place
  | portList owner item => exact owner.isAlone_place
  | declaration item => rfl
  | _ =>
      rw [hPlace]
      rfl

/-- So no event turns a walk with a module into one that reads a lone list. -/
theorem isAlone_step (h : walk.place.isAlone = false) (event : Event) :
    (walk.step event).place.isAlone = false := by
  cases event with
  | comment span => exact h
  | directive span => exact h
  | filler token =>
      rw [step]
      cases hPlace : walk.place <;> rw [hPlace] at h <;> exact h
  | word here next => exact isAlone_readWord h
  | ended offset => exact isAlone_flushAt walk offset

/-- A walk that is outside of such a list stays outside. -/
theorem isAlone_run (h : walk.place.isAlone = false) (events : List Event) :
    (walk.run events).place.isAlone = false := by
  induction events generalizing walk with
  | nil => exact h
  | cons event events ih => exact ih (isAlone_step h event)

end Walk

end HdlIndex.Verilog

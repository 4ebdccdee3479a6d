import HdlIndex.Vhdl.Walk

/-! A text that holds nothing but an interface list. Its list is left for good: wherever the walk
stands behind the closing parenthesis, every list that opens there belongs to a declaration. So a
walk that stands in the list at its end has never left it. -/
namespace HdlIndex.Vhdl

/-- The place is in a list that is the whole text. -/
def Place.isAlone : Place → Bool
  | .interfaceListOpen _ owner => owner = .text
  | .interfaceDeclaration list _ => list.owner = .text
  | _ => false

theorem Home.isAlone_place (home : Home) : home.place.isAlone = false := by cases home <;> rfl

theorem Owner.isAlone_place (owner : Owner) : owner.place.isAlone = false := by cases owner <;> rfl

namespace Walk

variable {walk : Walk} {home : Home} {process : HdlProcess} {here : Lexeme}
  {before next : Option Lexeme}

theorem isAlone_readItem : (walk.readItem home here).place.isAlone = false := by
  rw [readItem]
  split
  case h_16 => exact home.isAlone_place
  all_goals rfl

theorem isAlone_readContext (h : walk.place.isAlone = false) :
    (walk.readContext here next).place.isAlone = false := by
  rw [readContext]
  repeat' split
  all_goals first
    | rfl
    | exact h

theorem isAlone_readLibrary (h : walk.place.isAlone = false) :
    (walk.readLibrary here).place.isAlone = false := by
  rw [readLibrary]
  repeat' split
  all_goals first
    | rfl
    | exact h

theorem isAlone_readUse (h : walk.place.isAlone = false) :
    (walk.readUse home here).place.isAlone = false := by
  rw [readUse]
  repeat' split
  all_goals first
    | exact home.isAlone_place
    | exact h

theorem isAlone_readConfiguration (h : walk.place.isAlone = false) :
    (walk.readConfiguration here next).place.isAlone = false := by
  rw [readConfiguration]
  repeat' split
  all_goals first
    | rfl
    | exact h

theorem isAlone_readEntityName (h : walk.place.isAlone = false) :
    (walk.readEntityName here).place.isAlone = false := by
  rw [readEntityName]
  split
  · rfl
  · exact h

theorem isAlone_readEntityHeader : (walk.readEntityHeader here).place.isAlone = false := by
  rw [readEntityHeader]
  split
  case h_5 => exact isAlone_readItem
  all_goals rfl

theorem isAlone_readEntityStatements (h : walk.place.isAlone = false) :
    (walk.readEntityStatements here).place.isAlone = false := by
  rw [readEntityStatements]
  split
  · rfl
  · exact h

/-- The list that opens has the owner its keyword had. -/
theorem isAlone_readListOpen {kind : ListKind} {owner : Owner}
    (hPlace : walk.place = .interfaceListOpen kind owner) (h : walk.place.isAlone = false) :
    (walk.readListOpen kind owner here).place.isAlone = false := by
  rw [readListOpen]
  split
  · rw [hPlace] at h
    exact h
  · exact owner.isAlone_place
  · exact h

theorem isAlone_closeList (list : InterfaceList) (offset : Nat) :
    (walk.closeList list offset).place.isAlone = false := by
  unfold closeList
  dsimp only
  split <;> exact list.owner.isAlone_place

/-- An interface list of a design unit can only close into a place of its owner. -/
theorem isAlone_readInterface {list : InterfaceList} {element : Element}
    (hPlace : walk.place = .interfaceDeclaration list element) (h : walk.place.isAlone = false) :
    (walk.readInterface list element here).place.isAlone = false := by
  have hOwner : ∀ element, (Place.interfaceDeclaration list element).isAlone = false := by
    rw [hPlace] at h
    exact fun _ => h
  rw [readInterface]
  split
  · exact hOwner _
  · exact h
  · exact hOwner _
  · exact isAlone_closeList list _

theorem isAlone_readObject {kind : ObjectKind} {element : Element}
    (h : walk.place.isAlone = false) :
    (walk.readObject kind home element here).place.isAlone = false := by
  rw [readObject]
  split
  · rfl
  · exact h
  all_goals exact home.isAlone_place

theorem isAlone_readType {type : TypeText} (h : walk.place.isAlone = false) :
    (walk.readType home type here before).place.isAlone = false := by
  unfold readType
  dsimp only
  repeat' split
  all_goals first
    | rfl
    | exact h
    | exact home.isAlone_place

theorem isAlone_readArchitectureName {named : Bool} (h : walk.place.isAlone = false) :
    (walk.readArchitectureName named here).place.isAlone = false := by
  rw [readArchitectureName]
  repeat' split
  all_goals first
    | rfl
    | exact h

theorem isAlone_readArchitectureHeader (h : walk.place.isAlone = false) :
    (walk.readArchitectureHeader here).place.isAlone = false := by
  rw [readArchitectureHeader]
  split
  · rfl
  · exact h

theorem isAlone_readArchitectureDeclarations :
    (walk.readArchitectureDeclarations here).place.isAlone = false := by
  rw [readArchitectureDeclarations]
  split
  · rfl
  · exact isAlone_readItem

theorem isAlone_readEnd : (walk.readEnd next).place.isAlone = false := by
  rw [readEnd]
  repeat' split
  all_goals rfl

theorem isAlone_readFirst : (walk.readFirst here next).place.isAlone = false := by
  rw [readFirst]
  repeat' split
  all_goals first
    | rfl
    | exact isAlone_readItem
    | exact isAlone_readEnd

theorem isAlone_readStatement {statement : Statement} :
    (walk.readStatement statement here next).place.isAlone = false := by
  rw [readStatement]
  split
  case h_6 =>
    split
    · exact isAlone_readFirst
    · rw [readLater]
      repeat' split
      all_goals rfl
  all_goals rfl

theorem isAlone_readComponentName (h : walk.place.isAlone = false) :
    (walk.readComponentName home here).place.isAlone = false := by
  rw [readComponentName]
  split
  · rfl
  · exact h

theorem isAlone_readComponentHeader (h : walk.place.isAlone = false) :
    (walk.readComponentHeader home here).place.isAlone = false := by
  rw [readComponentHeader]
  split
  case h_4 => exact h
  all_goals rfl

theorem isAlone_readSubprogramName (h : walk.place.isAlone = false) :
    (walk.readSubprogramName home here).place.isAlone = false := by
  rw [readSubprogramName]
  split
  · rfl
  · exact h

theorem isAlone_readSubprogramHeader (h : walk.place.isAlone = false) :
    (walk.readSubprogramHeader home here next).place.isAlone = false := by
  rw [readSubprogramHeader]
  repeat' split
  all_goals first
    | rfl
    | exact h
    | exact home.isAlone_place

theorem isAlone_readSubprogramBody {nest : BodyNest} (h : walk.place.isAlone = false) :
    (walk.readSubprogramBody home nest here before next).place.isAlone = false := by
  unfold readSubprogramBody
  dsimp only
  repeat' split
  all_goals first
    | rfl
    | exact h

theorem isAlone_readPackageName (h : walk.place.isAlone = false) :
    (walk.readPackageName here next).place.isAlone = false := by
  rw [readPackageName]
  repeat' split
  all_goals first
    | rfl
    | exact h

theorem isAlone_readPackageBodyName (h : walk.place.isAlone = false) :
    (walk.readPackageBodyName here).place.isAlone = false := by
  rw [readPackageBodyName]
  split
  · rfl
  · exact h

theorem isAlone_readPackage : (walk.readPackage home here).place.isAlone = false := by
  rw [readPackage]
  split
  · rfl
  · exact isAlone_readItem

theorem isAlone_readSensitivity {depth : Option Nat} (h : walk.place.isAlone = false) :
    (walk.readSensitivity process depth here).place.isAlone = false := by
  unfold readSensitivity
  dsimp only
  split
  all_goals first
    | rfl
    | exact h
    | exact isAlone_readItem

theorem isAlone_readProcessDeclarations :
    (walk.readProcessDeclarations process here).place.isAlone = false := by
  rw [readProcessDeclarations]
  split
  · rfl
  · exact isAlone_readItem

/-- Nothing in a process opens a list without an owner. -/
theorem isAlone_readBody {depth : Nat} {statement : Sequential} (h : walk.place.isAlone = false) :
    (walk.readBody process depth statement here before next).place.isAlone = false := by
  have hWord : ∀ ticked,
      (walk.readBodyWord process depth statement here ticked).place.isAlone = false := by
    intro ticked
    unfold readBodyWord
    dsimp only
    split <;> rfl
  have hMark : ∀ role, (walk.markTarget process statement role).place.isAlone = false := by
    intro role
    rw [markTarget]
    split
    · rfl
    · exact h
  unfold readBody
  dsimp only
  repeat' split
  all_goals first
    | rfl
    | exact hWord _
    | exact hMark _

theorem isAlone_readInstance (h : walk.place.isAlone = false) :
    (walk.readInstance here).place.isAlone = false := by
  rw [readInstance]
  split
  · rfl
  · exact h

theorem isAlone_readMap {depth : Nat} (h : walk.place.isAlone = false) :
    (walk.readMap depth here).place.isAlone = false := by
  rw [readMap]
  repeat' split
  all_goals first
    | rfl
    | exact h

theorem isAlone_readGenerate {kind : GenerateKind} {depth : Nat} {expr : Capture} :
    (walk.readGenerate kind depth expr here).place.isAlone = false := by
  unfold readGenerate
  dsimp only
  repeat' split
  all_goals rfl

theorem isAlone_readChoice {expr : Capture} :
    (walk.readChoice expr here).place.isAlone = false := by
  rw [readChoice]
  split <;> rfl

theorem isAlone_readSkipped {depth : Nat} (h : walk.place.isAlone = false) :
    (walk.readSkipped home depth here).place.isAlone = false := by
  rw [readSkipped]
  repeat' split
  all_goals first
    | rfl
    | exact h
    | exact home.isAlone_place

/-- No word leads into a list that is the whole text. -/
theorem isAlone_read (h : walk.place.isAlone = false) :
    (walk.read here before next).place.isAlone = false := by
  rw [read]
  cases hPlace : walk.place with
  | entityContext => exact isAlone_readContext h
  | libraryClause => exact isAlone_readLibrary h
  | useClause home => exact isAlone_readUse h
  | configurationDeclaration => exact isAlone_readConfiguration h
  | entityName => exact isAlone_readEntityName h
  | entityHeader => exact isAlone_readEntityHeader
  | entityStatements => exact isAlone_readEntityStatements h
  | interfaceListOpen kind owner => exact isAlone_readListOpen hPlace h
  | interfaceDeclaration list element => exact isAlone_readInterface hPlace h
  | objectDeclaration kind home element => exact isAlone_readObject h
  | typeDeclaration home type => exact isAlone_readType h
  | architectureName named => exact isAlone_readArchitectureName h
  | architectureHeader => exact isAlone_readArchitectureHeader h
  | architectureDeclarations => exact isAlone_readArchitectureDeclarations
  | architectureBody statement => exact isAlone_readStatement
  | componentName home => exact isAlone_readComponentName h
  | componentHeader home => exact isAlone_readComponentHeader h
  | subprogramName home => exact isAlone_readSubprogramName h
  | subprogramHeader home => exact isAlone_readSubprogramHeader h
  | subprogramBody home nest => exact isAlone_readSubprogramBody h
  | packageName => exact isAlone_readPackageName h
  | packageDeclarations => exact isAlone_readPackage
  | packageBodyName => exact isAlone_readPackageBodyName h
  | packageBody => exact isAlone_readPackage
  | processSensitivity process depth => exact isAlone_readSensitivity h
  | processDeclarations process => exact isAlone_readProcessDeclarations
  | processBody process depth statement => exact isAlone_readBody h
  | instanceHeader => exact isAlone_readInstance h
  | instanceMap depth => exact isAlone_readMap h
  | generateHeader kind depth expr => exact isAlone_readGenerate
  | generateChoice expr => exact isAlone_readChoice
  | skipStatement home depth => exact isAlone_readSkipped h

/-- So no event turns a walk in a design unit into one that reads a lone list. -/
theorem isAlone_step (h : walk.place.isAlone = false) (event : Event) :
    (walk.step event).place.isAlone = false := by
  cases event with
  | comment span => exact h
  | filler token =>
      rw [step]
      cases hPlace : walk.place <;> rw [hPlace] at h <;> exact h
  | word here before next =>
      have hNoted : (walk.note (.visited walk.place.region.name here.text)).place.isAlone = false :=
        h
      exact isAlone_read hNoted

/-- A walk that is outside of such a list stays outside. -/
theorem isAlone_run (h : walk.place.isAlone = false) (events : List Event) :
    (walk.run events).place.isAlone = false := by
  induction events generalizing walk with
  | nil => exact h
  | cons event events ih => exact ih (isAlone_step h event)

end Walk

end HdlIndex.Vhdl

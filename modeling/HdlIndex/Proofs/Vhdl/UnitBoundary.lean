import HdlIndex.Vhdl.Walk

/-! Where design units end. A generate statement is open inside of an architecture only, and a walk
that comes to stand between units did not look at the next word for it. -/
namespace HdlIndex.Vhdl

/-- The home is no part of an architecture. -/
def Home.isOutside : Home → Bool
  | .entityContext | .entityHeader | .packageDeclarations | .packageBody => true
  | .architectureDeclarations | .architectureBody | .processDeclarations _ => false

/-- What the list is part of is no part of an architecture. -/
def Owner.isOutside : Owner → Bool
  | .text | .entity => true
  | .component home | .subprogram home => home.isOutside

/-- The place lies in front of the declarations of every architecture, or behind its end. -/
def Place.isOutside : Place → Bool
  | .entityContext | .libraryClause | .configurationDeclaration | .entityName | .entityHeader
  | .entityStatements | .architectureName _ | .architectureHeader | .packageName
  | .packageDeclarations | .packageBodyName | .packageBody => true
  | .useClause home | .objectDeclaration _ home _ | .typeDeclaration home _ | .componentName home
  | .componentHeader home | .subprogramName home | .subprogramHeader home | .subprogramBody home _
  | .skipStatement home _ => home.isOutside
  | .interfaceListOpen _ owner => owner.isOutside
  | .interfaceDeclaration list _ => list.owner.isOutside
  | _ => false

theorem Home.isOutside_place (home : Home) : home.place.isOutside = home.isOutside := by
  cases home <;> rfl

theorem Owner.isOutside_place (owner : Owner) : owner.place.isOutside = owner.isOutside := by
  cases owner <;> rfl

namespace Walk

variable {walk : Walk} {here : Lexeme} {before next : Option Lexeme} {home : Home} {owner : Owner}
  {place : Place} {process : HdlProcess}

/-- Outside of architectures no generate statement is open. -/
def IsClear (walk : Walk) : Prop := walk.place.isOutside = true → walk.generates = []

namespace IsClear

theorem inside (h : walk.place.isOutside = false) : walk.IsClear := fun hOutside => by
  rw [h] at hOutside
  cases hOutside

theorem none (h : walk.generates = []) : walk.IsClear := fun _ => h

theorem collect (h : walk.IsClear) (change : Findings → Findings) : (walk.collect change).IsClear :=
  h

theorem goto (h : walk.IsClear) (hPlace : place.isOutside = true → walk.place.isOutside = true) :
    (walk.goto place).IsClear := fun hOutside => h (hPlace hOutside)

theorem gotoHome (h : walk.IsClear) (hHome : home.isOutside = true → walk.place.isOutside = true) :
    (walk.goto home.place).IsClear :=
  h.goto fun hOutside => hHome (home.isOutside_place ▸ hOutside)

theorem gotoOwner (h : walk.IsClear)
    (hOwner : owner.isOutside = true → walk.place.isOutside = true) :
    (walk.goto owner.place).IsClear :=
  h.goto fun hOutside => hOwner (owner.isOutside_place ▸ hOutside)

theorem readItem (h : walk.IsClear) (hHome : home.isOutside = true → walk.place.isOutside = true) :
    (walk.readItem home here).IsClear := by
  rw [Walk.readItem]
  split
  case h_16 => exact h.gotoHome hHome
  all_goals exact h.goto hHome

theorem readContext (h : walk.IsClear) (hPlace : walk.place = .entityContext) :
    (walk.readContext here next).IsClear := by
  rw [Walk.readContext]
  split
  case h_8 => exact h
  all_goals exact h.goto fun _ => hPlace ▸ rfl

theorem readLibrary (h : walk.IsClear) (hPlace : walk.place = .libraryClause) :
    (walk.readLibrary here).IsClear := by
  rw [Walk.readLibrary]
  split
  · exact h.goto fun _ => hPlace ▸ rfl
  all_goals exact h

theorem readUse (h : walk.IsClear) (hPlace : walk.place = .useClause home) :
    (walk.readUse home here).IsClear := by
  rw [Walk.readUse]
  split
  · exact h.gotoHome fun hHome => hPlace ▸ hHome
  · split <;> exact h
  · split <;> exact h
  · exact h

theorem readConfiguration (h : walk.IsClear) (hPlace : walk.place = .configurationDeclaration) :
    (walk.readConfiguration here next).IsClear := by
  rw [Walk.readConfiguration]
  split
  · split
    · exact h
    · exact h.goto fun _ => hPlace ▸ rfl
  · exact h

theorem readEntityName (h : walk.IsClear) (hPlace : walk.place = .entityName) :
    (walk.readEntityName here).IsClear := by
  rw [Walk.readEntityName]
  split
  · exact IsClear.goto h fun _ => hPlace ▸ rfl
  · exact h

theorem readEntityHeader (h : walk.IsClear) (hPlace : walk.place = .entityHeader) :
    (walk.readEntityHeader here).IsClear := by
  rw [Walk.readEntityHeader]
  split
  case h_5 => exact h.readItem fun _ => hPlace ▸ rfl
  all_goals exact h.goto fun _ => hPlace ▸ rfl

theorem readEntityStatements (h : walk.IsClear) (hPlace : walk.place = .entityStatements) :
    (walk.readEntityStatements here).IsClear := by
  rw [Walk.readEntityStatements]
  split
  · exact h.goto fun _ => hPlace ▸ rfl
  · exact h

theorem readListOpen {kind : ListKind} (h : walk.IsClear)
    (hPlace : walk.place = .interfaceListOpen kind owner) :
    (walk.readListOpen kind owner here).IsClear := by
  rw [Walk.readListOpen]
  split
  · exact h.goto fun hOwner => hPlace ▸ hOwner
  · exact h.gotoOwner fun hOwner => hPlace ▸ hOwner
  · exact h

/-- A list that ends leads into the unit that owns it. -/
theorem readInterface {list : InterfaceList} {element : Element} (h : walk.IsClear)
    (hPlace : walk.place = .interfaceDeclaration list element) :
    (walk.readInterface list element here).IsClear := by
  have hSame : list.owner.isOutside = true → walk.place.isOutside = true := fun hOwner =>
    hPlace ▸ hOwner
  rw [Walk.readInterface]
  split
  · exact h.goto hSame
  · exact h
  · exact (h.collect _).goto hSame
  · have hClosed := (h.collect (·.modifyList list.kind
      (element.complete list.kind.defaultMode))).gotoOwner hSame
    rw [closeList]
    split <;> exact hClosed

theorem readObject {kind : ObjectKind} {element : Element} (h : walk.IsClear)
    (hPlace : walk.place = .objectDeclaration kind home element) :
    (walk.readObject kind home element here).IsClear := by
  rw [Walk.readObject]
  split
  · exact h.goto fun hHome => hPlace ▸ hHome
  · exact h
  all_goals exact (h.collect _).gotoHome fun hHome => hPlace ▸ hHome

/-- A type declaration ends where it stands. -/
theorem readType {type : TypeText} (h : walk.IsClear)
    (hPlace : walk.place = .typeDeclaration home type) :
    (walk.readType home type here before).IsClear := by
  have hStay : ∀ type', (walk.goto (.typeDeclaration home type')).IsClear := fun _ =>
    h.goto fun hHome => hPlace ▸ hHome
  unfold Walk.readType
  dsimp only
  split
  · split
    · exact hStay _
    · exact h
  · split
    case h_1 => split <;> exact hStay _
    case h_7 =>
      split
      · exact (h.collect _).gotoHome fun hHome => hPlace ▸ hHome
      · exact hStay _
    all_goals exact hStay _

theorem readArchitectureName {named : Bool} (h : walk.IsClear)
    (hPlace : walk.place = .architectureName named) :
    (walk.readArchitectureName named here).IsClear := by
  have hGoto : ∀ place, (walk.goto place).IsClear := fun _ => h.goto fun _ => hPlace ▸ rfl
  rw [Walk.readArchitectureName]
  split
  · exact hGoto _
  · exact hGoto _
  all_goals try exact h
  all_goals
    split
    · exact (h.collect _).goto fun _ => hPlace ▸ rfl
    · exact h

theorem readComponentName (h : walk.IsClear) (hPlace : walk.place = .componentName home) :
    (walk.readComponentName home here).IsClear := by
  rw [Walk.readComponentName]
  split
  · exact (h.collect _).goto fun hHome => hPlace ▸ hHome
  · exact h

theorem readComponentHeader (h : walk.IsClear) (hPlace : walk.place = .componentHeader home) :
    (walk.readComponentHeader home here).IsClear := by
  rw [Walk.readComponentHeader]
  split
  case h_4 => exact h
  all_goals exact h.goto fun hHome => hPlace ▸ hHome

theorem readSubprogramName (h : walk.IsClear) (hPlace : walk.place = .subprogramName home) :
    (walk.readSubprogramName home here).IsClear := by
  rw [Walk.readSubprogramName]
  split
  · exact (h.collect _).goto fun hHome => hPlace ▸ hHome
  · exact h

theorem readSubprogramHeader (h : walk.IsClear) (hPlace : walk.place = .subprogramHeader home) :
    (walk.readSubprogramHeader home here next).IsClear := by
  rw [Walk.readSubprogramHeader]
  split
  · exact h.goto fun hHome => hPlace ▸ hHome
  · exact h.gotoHome fun hHome => hPlace ▸ hHome
  · split <;> exact h.goto fun hHome => hPlace ▸ hHome
  · exact h

/-- A body ends in front of where its heading stood. -/
theorem readSubprogramBody {nest : BodyNest} (h : walk.IsClear)
    (hPlace : walk.place = .subprogramBody home nest) :
    (walk.readSubprogramBody home nest here before next).IsClear := by
  have hStay : ∀ nest', (walk.goto (.subprogramBody home nest')).IsClear := fun _ =>
    h.goto fun hHome => hPlace ▸ hHome
  unfold Walk.readSubprogramBody
  dsimp only
  split
  case h_7 =>
    split
    · split
      · exact h.goto fun hHome => hPlace ▸ hHome
      · exact hStay _
    · exact h
  all_goals try exact hStay _
  all_goals try exact h
  all_goals split <;> first
    | exact hStay _
    | exact h

theorem readPackageName (h : walk.IsClear) (hPlace : walk.place = .packageName) :
    (walk.readPackageName here next).IsClear := by
  rw [Walk.readPackageName]
  split
  · split <;> exact h.goto fun _ => hPlace ▸ rfl
  all_goals try exact h
  all_goals split <;> exact h

theorem readPackageBodyName (h : walk.IsClear) (hPlace : walk.place = .packageBodyName) :
    (walk.readPackageBodyName here).IsClear := by
  rw [Walk.readPackageBodyName]
  split
  · exact h.goto fun _ => hPlace ▸ rfl
  · exact h

theorem readPackage (h : walk.IsClear) (hOutside : walk.place.isOutside = true) :
    (walk.readPackage home here).IsClear := by
  rw [Walk.readPackage]
  split
  · exact h.goto fun _ => hOutside
  · exact h.readItem fun _ => hOutside

theorem readSkipped {depth : Nat} (h : walk.IsClear)
    (hPlace : walk.place = .skipStatement home depth) :
    (walk.readSkipped home depth here).IsClear := by
  rw [Walk.readSkipped]
  split
  · exact h.goto fun hHome => hPlace ▸ hHome
  · exact h.goto fun hHome => hPlace ▸ hHome
  · split
    · exact h.gotoHome fun hHome => hPlace ▸ hHome
    · exact h
  · exact h

/-- No item of an architecture leads out of it. -/
theorem readItem_inside (hHome : home.isOutside = false) : (walk.readItem home here).IsClear := by
  have hPlace := home.isOutside_place.trans hHome
  rw [Walk.readItem]
  split
  case h_16 => exact inside hPlace
  all_goals exact inside hHome

/-- Where an architecture ends, every generate statement ends. -/
theorem readEnd : (walk.readEnd next).IsClear := by
  rw [Walk.readEnd]
  split
  · exact inside rfl
  split
  · exact inside rfl
  split
  · exact inside rfl
  · exact IsClear.none rfl

/-- `end` of an architecture leads outside of it, where no generate statement is open. -/
theorem readFirst : (walk.readFirst here next).IsClear := by
  have hItem : (walk.readItem .architectureBody here).IsClear := readItem_inside rfl
  rw [Walk.readFirst]
  split
  all_goals try exact inside rfl
  all_goals try exact readEnd
  all_goals try exact hItem
  split <;> exact inside rfl

theorem readLater {statement : Statement} : (walk.readLater statement here next).IsClear := by
  rw [Walk.readLater]
  split
  · split <;> exact inside rfl
  · split <;> exact inside rfl
  · exact inside rfl

theorem readStatement {statement : Statement} :
    (walk.readStatement statement here next).IsClear := by
  rw [Walk.readStatement]
  split
  case h_6 =>
    split
    · exact readFirst
    · exact readLater
  all_goals exact inside rfl

theorem readArchitectureHeader (h : walk.IsClear) : (walk.readArchitectureHeader here).IsClear := by
  rw [Walk.readArchitectureHeader]
  split
  · exact inside rfl
  · exact h

theorem readArchitectureDeclarations : (walk.readArchitectureDeclarations here).IsClear := by
  rw [Walk.readArchitectureDeclarations]
  split
  · exact inside rfl
  · exact readItem_inside rfl

theorem readInstance (h : walk.IsClear) : (walk.readInstance here).IsClear := by
  rw [Walk.readInstance]
  split
  · exact inside rfl
  · exact h

theorem readMap {depth : Nat} (h : walk.IsClear) : (walk.readMap depth here).IsClear := by
  rw [Walk.readMap]
  split
  · exact inside rfl
  · exact inside rfl
  · split
    · exact inside rfl
    · exact h
  · exact h

theorem readGenerate {kind : GenerateKind} {depth : Nat} {expr : Capture} :
    (walk.readGenerate kind depth expr here).IsClear := by
  unfold Walk.readGenerate
  dsimp only
  split
  · exact inside rfl
  · exact inside rfl
  · split <;> exact inside rfl
  · exact inside rfl

theorem readChoice {expr : Capture} : (walk.readChoice expr here).IsClear := by
  rw [Walk.readChoice]
  split <;> exact inside rfl

theorem readSensitivity {depth : Option Nat} (h : walk.IsClear) :
    (walk.readSensitivity process depth here).IsClear := by
  have hItem : (walk.readItem (.processDeclarations process) here).IsClear := readItem_inside rfl
  unfold Walk.readSensitivity
  dsimp only
  split
  all_goals first
    | exact inside rfl
    | exact hItem
    | exact h

theorem readProcessDeclarations : (walk.readProcessDeclarations process here).IsClear := by
  rw [Walk.readProcessDeclarations]
  split
  · exact inside rfl
  · exact readItem_inside rfl

/-- A process ends in its architecture. -/
theorem readBody {depth : Nat} {statement : Sequential} (h : walk.IsClear) :
    (walk.readBody process depth statement here before next).IsClear := by
  have hStay : ∀ ticked, (walk.readBodyWord process depth statement here ticked).IsClear := by
    intro ticked
    unfold readBodyWord
    dsimp only
    split <;> exact inside rfl
  have hMark : ∀ role, (walk.markTarget process statement role).IsClear := by
    intro role
    rw [markTarget]
    split
    · exact inside rfl
    · exact h
  unfold Walk.readBody
  dsimp only
  split
  all_goals try exact inside rfl
  all_goals try exact hStay _
  all_goals split
  all_goals first
    | exact inside rfl
    | exact hStay _
    | exact hMark _

end IsClear

/-- Reading a word outside of architectures leaves no generate statement open. -/
theorem isClear_read (h : walk.IsClear) : (walk.read here before next).IsClear := by
  rw [read]
  cases hPlace : walk.place with
  | entityContext => exact h.readContext hPlace
  | libraryClause => exact h.readLibrary hPlace
  | useClause home => exact h.readUse hPlace
  | configurationDeclaration => exact h.readConfiguration hPlace
  | entityName => exact h.readEntityName hPlace
  | entityHeader => exact h.readEntityHeader hPlace
  | entityStatements => exact h.readEntityStatements hPlace
  | interfaceListOpen kind owner => exact h.readListOpen hPlace
  | interfaceDeclaration list element => exact h.readInterface hPlace
  | objectDeclaration kind home element => exact h.readObject hPlace
  | typeDeclaration home type => exact h.readType hPlace
  | architectureName named => exact h.readArchitectureName hPlace
  | componentName home => exact h.readComponentName hPlace
  | componentHeader home => exact h.readComponentHeader hPlace
  | subprogramName home => exact h.readSubprogramName hPlace
  | subprogramHeader home => exact h.readSubprogramHeader hPlace
  | subprogramBody home nest => exact h.readSubprogramBody hPlace
  | packageName => exact h.readPackageName hPlace
  | packageDeclarations => exact h.readPackage (hPlace ▸ rfl)
  | packageBodyName => exact h.readPackageBodyName hPlace
  | packageBody => exact h.readPackage (hPlace ▸ rfl)
  | skipStatement home depth => exact h.readSkipped hPlace
  | architectureHeader => exact h.readArchitectureHeader
  | architectureDeclarations => exact .readArchitectureDeclarations
  | architectureBody statement => exact .readStatement
  | processSensitivity process depth => exact h.readSensitivity
  | processDeclarations process => exact .readProcessDeclarations
  | processBody process depth statement => exact h.readBody
  | instanceHeader => exact h.readInstance
  | instanceMap depth => exact h.readMap
  | generateHeader kind depth expr => exact .readGenerate
  | generateChoice expr => exact .readChoice

/-- So outside of design units no event leaves a generate statement open. -/
theorem isClear_step (h : walk.IsClear) (event : Event) : (walk.step event).IsClear := by
  cases event with
  | comment span => exact h
  | filler token =>
      refine IsClear.goto h fun hOutside => ?_
      cases hPlace : walk.place <;> rw [hPlace] at hOutside <;> exact hOutside
  | word here before next =>
      have hNoted : (walk.note (.visited walk.place.region.name here.text)).IsClear := h
      exact isClear_read hNoted

theorem isClear_run (h : walk.IsClear) (events : List Event) : (walk.run events).IsClear := by
  induction events generalizing walk with
  | nil => exact h
  | cons event events ih => exact ih (isClear_step h event)

section Boundary

/-- The walk does not come to stand between units here. -/
theorem ne_of_readItem (hHome : home ≠ .entityContext) :
    (walk.readItem home here).place ≠ .entityContext := by
  rw [readItem]
  split
  case h_16 => cases home <;> first
    | exact absurd rfl hHome
    | exact Place.noConfusion
  all_goals exact Place.noConfusion

theorem ne_of_readEnd : (walk.readEnd next).place ≠ .entityContext := by
  rw [readEnd]
  split
  · exact Place.noConfusion
  split
  · exact Place.noConfusion
  split <;> exact Place.noConfusion

/-- The first word of a statement never leads outside by itself: `end` leads into what is passed
over. -/
theorem ne_of_readFirst : (walk.readFirst here next).place ≠ .entityContext := by
  have hItem : (walk.readItem .architectureBody here).place ≠ .entityContext :=
    ne_of_readItem Home.noConfusion
  rw [readFirst]
  split
  all_goals try exact Place.noConfusion
  all_goals try exact hItem
  all_goals try exact ne_of_readEnd
  split <;> exact Place.noConfusion

theorem ne_of_readStatement {statement : Statement} :
    (walk.readStatement statement here next).place ≠ .entityContext := by
  rw [readStatement]
  split
  case h_6 =>
    split
    · exact ne_of_readFirst
    · rw [readLater]
      split
      · split <;> exact Place.noConfusion
      · split <;> exact Place.noConfusion
      · exact Place.noConfusion
  all_goals exact Place.noConfusion

theorem readContext_next (h : (walk.readContext here none).place = .entityContext) :
    walk.readContext here next = walk.readContext here none := by
  rw [readContext, readContext]
  split
  case h_5 hSymbol => simp [readContext, hSymbol, goto, isNext] at h
  all_goals rfl

theorem readConfiguration_next (h : (walk.readConfiguration here none).place = .entityContext) :
    walk.readConfiguration here next = walk.readConfiguration here none := by
  rw [readConfiguration, readConfiguration]
  split
  case h_1 hSymbol => simp [readConfiguration, hSymbol, skip, goto, isNext] at h
  rfl

theorem readSubprogramHeader_next
    (h : (walk.readSubprogramHeader home here none).place = .entityContext) :
    walk.readSubprogramHeader home here next = walk.readSubprogramHeader home here none := by
  rw [readSubprogramHeader, readSubprogramHeader]
  split
  case h_3 hSymbol => simp [readSubprogramHeader, hSymbol, goto, isNext] at h
  all_goals rfl

/-- A body that a word leads out of its unit is left in front of any next word: where it looks
ahead, at an `end`, it only goes on to what is passed over. -/
theorem readSubprogramBody_next {nest : BodyNest}
    (h : (walk.readSubprogramBody home nest here before none).place = .entityContext) :
    walk.readSubprogramBody home nest here before next =
      walk.readSubprogramBody home nest here before none := by
  unfold readSubprogramBody
  dsimp only
  split
  all_goals first
    | rfl
    | next hSymbol =>
      simp only [readSubprogramBody, hSymbol, closesUnit, if_true] at h
      split at h <;> cases h

theorem readPackageName_next (h : (walk.readPackageName here none).place = .entityContext) :
    walk.readPackageName here next = walk.readPackageName here none := by
  rw [readPackageName, readPackageName]
  split
  case h_1 hSymbol => simp [readPackageName, hSymbol, goto, isNext] at h
  all_goals rfl

/-- And so does a process. -/
theorem readBody_next {depth : Nat} {statement : Sequential}
    (h : (walk.readBody process depth statement here before none).place = .entityContext) :
    walk.readBody process depth statement here before next =
      walk.readBody process depth statement here before none := by
  unfold readBody
  dsimp only
  split
  case h_11 hSymbol =>
    simp only [readBody, hSymbol] at h
    unfold readBodyWord at h
    dsimp only at h
    split at h <;> cases h
  all_goals rfl

/-- Where a walk comes to stand between units with nothing ahead, it does so whatever is ahead. -/
theorem read_next (h : (walk.read here before none).place = .entityContext) :
    walk.read here before next = walk.read here before none := by
  rw [read] at h ⊢
  rw [read]
  cases hPlace : walk.place <;> rw [hPlace] at h
  case entityContext => exact readContext_next h
  case configurationDeclaration => exact readConfiguration_next h
  case architectureBody statement => exact absurd h ne_of_readStatement
  case subprogramHeader home => exact readSubprogramHeader_next h
  case subprogramBody home nest => exact readSubprogramBody_next h
  case packageName => exact readPackageName_next h
  case processBody process depth statement => exact readBody_next h

end Boundary

end Walk

end HdlIndex.Vhdl

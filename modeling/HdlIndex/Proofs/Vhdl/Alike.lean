import HdlIndex.Proofs.Symbols.Moved
import HdlIndex.Proofs.Vhdl.ReadingWords
import HdlIndex.Proofs.Vhdl.UnitBoundary

/-! Two walks that read the same words behind different texts. What was found before decides nothing
about where they go, and nothing about the generate statements that are open. So they record the
same clocked signals under the same conditions, apart from those that were known before. -/
namespace HdlIndex.Vhdl.Walk

/-- Two walks are at the same place, in the same generate statements. The second one knows the
clocked signals of `base` besides those of the first one. -/
structure Alike (base : ClockedSignals) (walk other : Walk) : Prop where
  place : other.place = walk.place
  generates : other.generates = walk.generates
  label : other.label = walk.label
  clocked : other.found.clocked = base.followedBy walk.found.clocked

variable {base : ClockedSignals} {walk other : Walk} {here : Lexeme} {before next : Option Lexeme}
  {home : Home} {process : HdlProcess} {depth : Nat} {expr : Capture}

namespace Alike

theorem goto (h : Alike base walk other) (place : Place) :
    Alike base (walk.goto place) (other.goto place) :=
  { h with place := rfl }

theorem note (h : Alike base walk other) (note : Note) :
    Alike base (walk.note note) (other.note note) :=
  { h with }

theorem withLabel (h : Alike base walk other) (label : Option Word) :
    Alike base { walk with label } { other with label } :=
  { h with label := rfl }

theorem withGenerates (h : Alike base walk other) (generates : List Generate) :
    Alike base { walk with generates } { other with generates } :=
  { h with generates := rfl }

/-- What is found besides clocked signals makes no difference. -/
theorem collect (h : Alike base walk other) {change change' : Findings → Findings}
    (hChange : (change walk.found).clocked = walk.found.clocked)
    (hChange' : (change' other.found).clocked = other.found.clocked) :
    Alike base (walk.collect change) (other.collect change') :=
  { h with clocked := (hChange'.trans h.clocked).trans (congrArg base.followedBy hChange).symm }

theorem modifyGenerate (h : Alike base walk other) (change : Generate → Generate) :
    Alike base (walk.modifyGenerate change) (other.modifyGenerate change) := by
  rw [Walk.modifyGenerate, Walk.modifyGenerate, h.generates]
  split
  · exact h
  · exact h.withGenerates _

theorem clocked_modifyList (found : Findings) (kind : ListKind)
    (change : Declarations → Declarations) :
    (found.modifyList kind change).clocked = found.clocked := by
  cases kind <;> rfl

theorem modifyList (h : Alike base walk other) (kind : ListKind)
    (change : Declarations → Declarations) :
    Alike base (walk.collect (·.modifyList kind change))
      (other.collect (·.modifyList kind change)) :=
  h.collect (clocked_modifyList _ _ _) (clocked_modifyList _ _ _)

theorem completeElement (h : Alike base walk other) (list : InterfaceList) (element : Element) :
    Alike base (walk.completeElement list element) (other.completeElement list element) :=
  h.modifyList _ _

theorem completeObject (h : Alike base walk other) (kind : ObjectKind) (element : Element) :
    Alike base (walk.completeObject kind element) (other.completeObject kind element) :=
  h.collect rfl rfl

theorem closeList (h : Alike base walk other) (list : InterfaceList) (offset : Nat) :
    Alike base (walk.closeList list offset) (other.closeList list offset) := by
  rw [Walk.closeList, Walk.closeList]
  split
  · exact (h.goto _).collect rfl rfl
  · exact h.goto _

theorem commitInstance (h : Alike base walk other) (unit : Word) (library : String) :
    Alike base (walk.commitInstance unit library) (other.commitInstance unit library) := by
  rw [Walk.commitInstance, Walk.commitInstance, h.label]
  split
  · exact h
  · exact { h with label := rfl }

/-- The signals that a process drives are recorded behind those that are known. -/
theorem commitProcess (h : Alike base walk other) (process : HdlProcess) (offset : Nat) :
    Alike base (walk.commitProcess process offset) (other.commitProcess process offset) := by
  have hConditions : other.conditions = walk.conditions := by
    rw [conditions, conditions, h.generates]
  refine { h with clocked := ?_ }
  show (if _ then _ else _) = base.followedBy (if _ then _ else _)
  split
  · rw [h.clocked, hConditions, ClockedSignals.record_stems_followedBy]
  · exact h.clocked

section Declarative

theorem readItem (h : Alike base walk other) :
    Alike base (walk.readItem home here) (other.readItem home here) := by
  rw [Walk.readItem, Walk.readItem]
  split
  case h_8 => exact Alike.goto (h.collect rfl rfl) _
  case h_9 => exact Alike.goto (h.collect rfl rfl) _
  all_goals exact h.goto _

theorem readContext (h : Alike base walk other) :
    Alike base (walk.readContext here next) (other.readContext here next) := by
  rw [Walk.readContext, Walk.readContext]
  split
  case h_8 => exact h
  all_goals exact h.goto _

theorem readLibrary (h : Alike base walk other) :
    Alike base (walk.readLibrary here) (other.readLibrary here) := by
  rw [Walk.readLibrary, Walk.readLibrary]
  split
  · exact h.goto _
  · exact h.collect rfl rfl
  · exact h.collect rfl rfl
  · exact h

/-- What a use clause adds is found on both sides, at the same places. -/
theorem readUse (h : Alike base walk other) :
    Alike base (walk.readUse home here) (other.readUse home here) := by
  rw [Walk.readUse, Walk.readUse]
  split
  · exact h.goto _
  · split
    · exact h.collect rfl rfl
    · exact h
  · split
    · exact h.collect rfl rfl
    · exact h
  · exact h

theorem readConfiguration (h : Alike base walk other) :
    Alike base (walk.readConfiguration here next) (other.readConfiguration here next) := by
  rw [Walk.readConfiguration, Walk.readConfiguration]
  split
  · split
    · exact h
    · exact h.goto _
  · exact h

theorem readEntityName (h : Alike base walk other) :
    Alike base (walk.readEntityName here) (other.readEntityName here) := by
  rw [Walk.readEntityName, Walk.readEntityName]
  split
  · exact Alike.goto (Alike.note (h.collect rfl rfl) _) _
  · exact h

theorem readEntityHeader (h : Alike base walk other) :
    Alike base (walk.readEntityHeader here) (other.readEntityHeader here) := by
  rw [Walk.readEntityHeader, Walk.readEntityHeader]
  split
  case h_5 => exact h.readItem
  all_goals exact h.goto _

theorem readEntityStatements (h : Alike base walk other) :
    Alike base (walk.readEntityStatements here) (other.readEntityStatements here) := by
  rw [Walk.readEntityStatements, Walk.readEntityStatements]
  split
  · exact h.goto _
  · exact h

theorem readListOpen {kind : ListKind} {owner : Owner} (h : Alike base walk other) :
    Alike base (walk.readListOpen kind owner here) (other.readListOpen kind owner here) := by
  rw [Walk.readListOpen, Walk.readListOpen]
  split
  · exact h.goto _
  · exact h.goto _
  · exact h

theorem readInterface {list : InterfaceList} {element : Element} (h : Alike base walk other) :
    Alike base (walk.readInterface list element here) (other.readInterface list element here) := by
  rw [Walk.readInterface, Walk.readInterface]
  split
  · exact h.goto _
  · exact h.modifyList _ _
  · exact (h.completeElement _ _).goto _
  · exact (h.completeElement _ _).closeList _ _

theorem readObject {kind : ObjectKind} {element : Element} (h : Alike base walk other) :
    Alike base (walk.readObject kind home element here)
      (other.readObject kind home element here) := by
  rw [Walk.readObject, Walk.readObject]
  split
  · exact h.goto _
  · exact h.collect rfl rfl
  all_goals exact (h.completeObject _ _).goto _

/-- The text of a type is collected from the same words. -/
theorem readType {type : TypeText} (h : Alike base walk other) :
    Alike base (walk.readType home type here before) (other.readType home type here before) := by
  unfold Walk.readType
  dsimp only
  split
  · split
    · exact h.goto _
    · exact h
  · split
    case h_1 => split <;> exact h.goto _
    case h_7 =>
      split
      · exact Alike.goto (h.collect rfl rfl) _
      · exact h.goto _
    all_goals exact h.goto _

theorem readArchitectureName {named : Bool} (h : Alike base walk other) :
    Alike base (walk.readArchitectureName named here) (other.readArchitectureName named here) := by
  rw [Walk.readArchitectureName, Walk.readArchitectureName]
  split
  · exact h.goto _
  · exact h.goto _
  case h_5 => exact h
  all_goals
    split
    · exact Alike.goto (h.collect rfl rfl) _
    · exact h.collect rfl rfl

theorem readArchitectureHeader (h : Alike base walk other) :
    Alike base (walk.readArchitectureHeader here) (other.readArchitectureHeader here) := by
  rw [Walk.readArchitectureHeader, Walk.readArchitectureHeader]
  split
  · exact h.goto _
  · exact h

theorem readArchitectureDeclarations (h : Alike base walk other) :
    Alike base (walk.readArchitectureDeclarations here)
      (other.readArchitectureDeclarations here) := by
  rw [Walk.readArchitectureDeclarations, Walk.readArchitectureDeclarations]
  split
  · exact h.goto _
  · exact h.readItem

theorem readComponentName (h : Alike base walk other) :
    Alike base (walk.readComponentName home here) (other.readComponentName home here) := by
  rw [Walk.readComponentName, Walk.readComponentName]
  split
  · exact Alike.goto (h.collect rfl rfl) _
  · exact h

theorem readComponentHeader (h : Alike base walk other) :
    Alike base (walk.readComponentHeader home here) (other.readComponentHeader home here) := by
  rw [Walk.readComponentHeader, Walk.readComponentHeader]
  split
  case h_4 => exact h
  all_goals exact h.goto _

theorem readSubprogramName (h : Alike base walk other) :
    Alike base (walk.readSubprogramName home here) (other.readSubprogramName home here) := by
  rw [Walk.readSubprogramName, Walk.readSubprogramName]
  split
  · exact Alike.goto (h.collect rfl rfl) _
  · exact h

theorem readSubprogramHeader (h : Alike base walk other) :
    Alike base (walk.readSubprogramHeader home here next)
      (other.readSubprogramHeader home here next) := by
  rw [Walk.readSubprogramHeader, Walk.readSubprogramHeader]
  split
  · exact h.goto _
  · exact h.goto _
  · split <;> exact h.goto _
  · exact h

/-- A body is passed over up to the same end. -/
theorem readSubprogramBody {nest : BodyNest} (h : Alike base walk other) :
    Alike base (walk.readSubprogramBody home nest here before next)
      (other.readSubprogramBody home nest here before next) := by
  unfold Walk.readSubprogramBody
  dsimp only
  split
  case h_4 => exact h.goto _
  case h_5 => exact h.goto _
  case h_7 =>
    split
    · split <;> exact h.goto _
    · exact h
  case h_8 => exact h
  all_goals
    split
    all_goals first
      | exact h
      | exact h.goto _

/-- Only the first package is recorded, so one of the walks may leave it out. -/
theorem readPackageName (h : Alike base walk other) :
    Alike base (walk.readPackageName here next) (other.readPackageName here next) := by
  have hNames : ∀ package : Word,
      Alike base (if walk.found.packages.isEmpty then walk.collect fun found =>
          { found with packages := found.packages.push package } else walk)
        (if other.found.packages.isEmpty then other.collect fun found =>
          { found with packages := found.packages.push package } else other) := by
    intro package
    split
    · split <;> exact { h with }
    · split <;> exact { h with }
  rw [Walk.readPackageName, Walk.readPackageName]
  split
  · split <;> exact h.goto _
  · exact hNames _
  · exact hNames _
  · exact h

theorem readPackageBodyName (h : Alike base walk other) :
    Alike base (walk.readPackageBodyName here) (other.readPackageBodyName here) := by
  rw [Walk.readPackageBodyName, Walk.readPackageBodyName]
  split
  · exact h.goto _
  · exact h

theorem readPackage (h : Alike base walk other) :
    Alike base (walk.readPackage home here) (other.readPackage home here) := by
  rw [Walk.readPackage, Walk.readPackage]
  split
  · exact h.goto _
  · exact h.readItem

theorem readSkipped (h : Alike base walk other) :
    Alike base (walk.readSkipped home depth here) (other.readSkipped home depth here) := by
  rw [Walk.readSkipped, Walk.readSkipped]
  split
  · exact h.goto _
  · exact h.goto _
  · split
    · exact h.goto _
    · exact h
  · exact h

end Declarative

section Statements

variable {statement : Statement}

theorem takeLabel (h : Alike base walk other) (word : Option Word) :
    Alike base (walk.takeLabel word) (other.takeLabel word) := by
  cases word with
  | none => exact h
  | some word => exact { h with label := rfl }

theorem beginProcess (h : Alike base walk other) :
    Alike base (walk.beginProcess here) (other.beginProcess here) := by
  rw [Walk.beginProcess, Walk.beginProcess, h.label]
  exact { h with place := rfl, label := rfl }

theorem readOther (h : Alike base walk other) :
    Alike base (walk.readOther statement here next) (other.readOther statement here next) := by
  have hUnit : other.isUnitName here next = walk.isUnitName here next := by
    rw [isUnitName, isUnitName, h.label]
  unfold Walk.readOther
  dsimp only
  rw [hUnit]
  exact h.goto _

theorem readEnd (h : Alike base walk other) :
    Alike base (walk.readEnd next) (other.readEnd next) := by
  rw [Walk.readEnd, Walk.readEnd, h.generates]
  split
  · exact (h.withGenerates _).goto _
  split
  · exact h.goto _
  split
  · exact (h.modifyGenerate _).goto _
  · exact (h.withGenerates _).goto _

/-- What a statement begins with decides where both walks go. -/
theorem readFirst (h : Alike base walk other) :
    Alike base (walk.readFirst here next) (other.readFirst here next) := by
  have hChosen : other.generates.head?.any (·.selector.isSome) =
      walk.generates.head?.any (·.selector.isSome) := by
    rw [h.generates]
  rw [Walk.readFirst, Walk.readFirst, hChosen]
  split
  case h_1 => exact h.beginProcess
  case h_5 => exact (h.withLabel none).goto _
  case h_6 => exact (h.withLabel none).goto _
  case h_7 => exact (h.withLabel none).goto _
  case h_9 => exact ((h.modifyGenerate _).withLabel none).goto _
  case h_10 =>
    split
    · exact (h.modifyGenerate _).goto _
    · exact h.readOther
  case h_25 => exact (h.modifyGenerate _).goto _
  case h_26 => exact h.readEnd
  case h_27 => exact h.readOther
  all_goals first
    | exact h.goto _
    | exact h.readItem

theorem readLater (h : Alike base walk other) :
    Alike base (walk.readLater statement here next) (other.readLater statement here next) := by
  rw [Walk.readLater, Walk.readLater]
  split
  · split
    · exact (h.takeLabel _).goto _
    · exact h.readOther
  · split
    · exact h.beginProcess
    · exact h.readOther
  · exact h.readOther

/-- A component that waits becomes an instance on both sides or on neither. -/
theorem readStatement (h : Alike base walk other) :
    Alike base (walk.readStatement statement here next)
      (other.readStatement statement here next) := by
  rw [Walk.readStatement, Walk.readStatement]
  split
  · exact (h.commitInstance _ _).goto _
  · exact (h.commitInstance _ _).goto _
  · exact (h.commitInstance _ _).goto _
  · exact (h.withLabel none).goto _
  · exact (h.withLabel none).goto _
  · split
    · exact h.readFirst
    · exact h.readLater

theorem readInstance (h : Alike base walk other) :
    Alike base (walk.readInstance here) (other.readInstance here) := by
  rw [Walk.readInstance, Walk.readInstance]
  split
  · exact (h.commitInstance _ _).goto _
  · exact h

theorem readMap (h : Alike base walk other) :
    Alike base (walk.readMap depth here) (other.readMap depth here) := by
  rw [Walk.readMap, Walk.readMap]
  split
  · exact h.goto _
  · exact h.goto _
  · split
    · exact h.goto _
    · exact h
  · exact h

theorem enterGenerate (h : Alike base walk other) (kind : GenerateKind) (condition : String) :
    Alike base (walk.enterGenerate kind condition) (other.enterGenerate kind condition) := by
  unfold Walk.enterGenerate
  rw [h.generates]
  split
  case h_2 => split <;> exact h.withGenerates _
  all_goals exact h.withGenerates _

theorem readGenerate {kind : GenerateKind} (h : Alike base walk other) :
    Alike base (walk.readGenerate kind depth expr here)
      (other.readGenerate kind depth expr here) := by
  unfold Walk.readGenerate
  dsimp only
  split
  · exact h.goto _
  · exact h.goto _
  · split
    · exact { h.enterGenerate kind expr.text with place := rfl }
    · exact h.goto _
  · exact h.goto _

theorem readChoice (h : Alike base walk other) :
    Alike base (walk.readChoice expr here) (other.readChoice expr here) := by
  rw [Walk.readChoice, Walk.readChoice]
  split
  · exact (h.modifyGenerate _).goto _
  · exact h.goto _

end Statements

section Processes

theorem readSensitivity {depth : Option Nat} (h : Alike base walk other) :
    Alike base (walk.readSensitivity process depth here)
      (other.readSensitivity process depth here) := by
  unfold Walk.readSensitivity
  dsimp only
  split
  all_goals first
    | exact h
    | exact h.goto _
    | exact h.readItem

theorem readProcessDeclarations (h : Alike base walk other) :
    Alike base (walk.readProcessDeclarations process here)
      (other.readProcessDeclarations process here) := by
  rw [Walk.readProcessDeclarations, Walk.readProcessDeclarations]
  split
  · exact h.goto _
  · exact h.readItem

theorem readBodyWord {statement : Sequential} {ticked : Bool} (h : Alike base walk other) :
    Alike base (walk.readBodyWord process depth statement here ticked)
      (other.readBodyWord process depth statement here ticked) := by
  unfold Walk.readBodyWord
  dsimp only
  split <;> exact h.goto _

theorem markTarget {statement : Sequential} {role : Role} (h : Alike base walk other) :
    Alike base (walk.markTarget process statement role)
      (other.markTarget process statement role) := by
  rw [Walk.markTarget, Walk.markTarget]
  split
  · exact h.goto _
  · exact h

/-- Both processes end at the same word, and their targets are recorded under the same
conditions. -/
theorem readBody {statement : Sequential} (h : Alike base walk other) :
    Alike base (walk.readBody process depth statement here before next)
      (other.readBody process depth statement here before next) := by
  unfold Walk.readBody
  dsimp only
  split
  case h_8 =>
    split
    · exact h.goto _
    · exact h.readBodyWord
  case h_9 =>
    split
    · exact h.markTarget
    · exact h.readBodyWord
  case h_10 =>
    split
    · exact h.markTarget
    · exact h.readBodyWord
  case h_11 =>
    split
    · exact (h.commitProcess _ _).goto _
    · exact h.readBodyWord
  case h_12 => exact h.readBodyWord
  all_goals exact h.goto _

end Processes

/-- One word keeps walks alike, by the place where they stand. -/
theorem read (h : Alike base walk other) :
    Alike base (walk.read here before next) (other.read here before next) := by
  rw [Walk.read, Walk.read, h.place]
  cases walk.place with
  | entityContext => exact h.readContext
  | libraryClause => exact h.readLibrary
  | useClause home => exact h.readUse
  | configurationDeclaration => exact h.readConfiguration
  | entityName => exact h.readEntityName
  | entityHeader => exact h.readEntityHeader
  | entityStatements => exact h.readEntityStatements
  | interfaceListOpen kind owner => exact h.readListOpen
  | interfaceDeclaration list element => exact h.readInterface
  | objectDeclaration kind home element => exact h.readObject
  | typeDeclaration home type => exact h.readType
  | architectureName named => exact h.readArchitectureName
  | architectureHeader => exact h.readArchitectureHeader
  | architectureDeclarations => exact h.readArchitectureDeclarations
  | architectureBody statement => exact h.readStatement
  | componentName home => exact h.readComponentName
  | componentHeader home => exact h.readComponentHeader
  | subprogramName home => exact h.readSubprogramName
  | subprogramHeader home => exact h.readSubprogramHeader
  | subprogramBody home nest => exact h.readSubprogramBody
  | packageName => exact h.readPackageName
  | packageDeclarations => exact h.readPackage
  | packageBodyName => exact h.readPackageBodyName
  | packageBody => exact h.readPackage
  | processSensitivity process depth => exact h.readSensitivity
  | processDeclarations process => exact h.readProcessDeclarations
  | processBody process depth statement => exact h.readBody
  | instanceHeader => exact h.readInstance
  | instanceMap depth => exact h.readMap
  | generateHeader kind depth expr => exact h.readGenerate
  | generateChoice expr => exact h.readChoice
  | skipStatement home depth => exact h.readSkipped

/-- Taking an event keeps two walks alike. -/
theorem step (h : Alike base walk other) (event : Event) :
    Alike base (walk.step event) (other.step event) := by
  cases event with
  | comment span => exact h
  | filler token => exact { h with place := congrArg (Place.absorb · token) h.place }
  | word here before next =>
      rw [Walk.step, Walk.step, h.place]
      exact (h.note _).read

/-- So does taking every event of a reading. -/
theorem run (h : Alike base walk other) (events : List Event) :
    Alike base (walk.run events) (other.run events) := by
  induction events generalizing walk other with
  | nil => exact h
  | cons event events ih => exact ih (h.step event)

/-- And so does the end of the text. -/
theorem finish (h : Alike base walk other) (size : Nat) :
    Alike base (walk.finish size) (other.finish size) := by
  have hFlushed : Alike base (walk.flushed size) (other.flushed size) := by
    rw [Walk.flushed, Walk.flushed, h.place]
    split
    · exact (h.completeElement _ _).closeList _ _
    · exact h.completeObject _ _
    · exact h
  rw [finish_eq_flushed, finish_eq_flushed, hFlushed.place]
  split
  · exact hFlushed.commitProcess _ _
  · exact hFlushed

end Alike

end HdlIndex.Vhdl.Walk

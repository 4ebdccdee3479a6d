import HdlIndex.Vhdl.Reading
import HdlIndex.Vhdl.Walk.Concurrent
import HdlIndex.Vhdl.Walk.Sequential
/-! The walk through the regions of a VHDL text, one event of its reading at a time. -/
namespace HdlIndex.Vhdl.Walk

def read (walk : Walk) (here : Lexeme) (before next : Option Lexeme) : Walk :=
  match walk.place with
  | .entityContext => walk.readContext here next
  | .libraryClause => walk.readLibrary here
  | .useClause home => walk.readUse home here
  | .configurationDeclaration => walk.readConfiguration here next
  | .entityName => walk.readEntityName here
  | .entityHeader => walk.readEntityHeader here
  | .entityStatements => walk.readEntityStatements here
  | .interfaceListOpen kind owner => walk.readListOpen kind owner here
  | .interfaceDeclaration list element => walk.readInterface list element here
  | .objectDeclaration kind home element => walk.readObject kind home element here
  | .typeDeclaration home type => walk.readType home type here before
  | .architectureName named => walk.readArchitectureName named here
  | .architectureHeader => walk.readArchitectureHeader here
  | .architectureDeclarations => walk.readArchitectureDeclarations here
  | .architectureBody statement => walk.readStatement statement here next
  | .componentName home => walk.readComponentName home here
  | .componentHeader home => walk.readComponentHeader home here
  | .subprogramName home => walk.readSubprogramName home here
  | .subprogramHeader home => walk.readSubprogramHeader home here next
  | .subprogramBody home nest => walk.readSubprogramBody home nest here before next
  | .packageName => walk.readPackageName here next
  | .packageDeclarations => walk.readPackage .packageDeclarations here
  | .packageBodyName => walk.readPackageBodyName here
  | .packageBody => walk.readPackage .packageBody here
  | .processSensitivity process depth => walk.readSensitivity process depth here
  | .processDeclarations process => walk.readProcessDeclarations process here
  | .processBody process depth statement => walk.readBody process depth statement here before next
  | .instanceHeader => walk.readInstance here
  | .instanceMap depth => walk.readMap depth here
  | .generateHeader kind depth expr => walk.readGenerate kind depth expr here
  | .generateChoice expr => walk.readChoice expr here
  | .skipStatement home depth => walk.readSkipped home depth here

/-- Takes one event. Comments change nothing. -/
def step (walk : Walk) : Event → Walk
  | .comment _ => walk
  | .filler token => { walk with place := walk.place.absorb token }
  | .word here before next =>
    (walk.note (.visited walk.place.region.name here.text)).read here before next

def run (walk : Walk) (events : List Event) : Walk := events.foldl step walk

/-- Ends the walk at the end of a text of `size` bytes: an interface list, an object declaration and
a process that are still open end there. -/
def finish (walk : Walk) (size : Nat) : Walk :=
  let walk :=
    match walk.place with
    | .interfaceDeclaration list element => (walk.completeElement list element).closeList list size
    | .objectDeclaration kind _ element => walk.completeObject kind element
    | _ => walk
  match walk.place.process? with
  | some process => walk.commitProcess process size
  | none => walk

section Ends

variable {walk : Walk}

/-- The walk with the declarations ended that are open where the text ends. -/
def flushed (walk : Walk) (size : Nat) : Walk :=
  match walk.place with
  | .interfaceDeclaration list element => (walk.completeElement list element).closeList list size
  | .objectDeclaration kind _ element => walk.completeObject kind element
  | _ => walk

/-- The end of the text ends declarations first and then the process that is open. -/
theorem finish_eq_flushed (walk : Walk) (size : Nat) :
    walk.finish size =
      match (walk.flushed size).place.process? with
      | some process => (walk.flushed size).commitProcess process size
      | none => walk.flushed size := rfl

/-- What holds with the declarations ended, and stays when the process that is open is recorded,
holds at the end of the text. -/
theorem finish_of_flushed {P : Walk → Prop} {size : Nat} (hFlushed : P (walk.flushed size))
    (hCommit : ∀ process, (walk.flushed size).place.process? = some process →
      P ((walk.flushed size).commitProcess process size)) :
    P (walk.finish size) := by
  rw [finish_eq_flushed]
  split
  · next process hOpen => exact hCommit process hOpen
  · exact hFlushed

/-- Declarations are part of the process that they stand in, so it is open after them. -/
theorem process?_flushed (size : Nat) :
    (walk.flushed size).place.process? = walk.place.process? := by
  rw [flushed]
  cases hPlace : walk.place with
  | interfaceDeclaration list element =>
      obtain ⟨kind, owner, inside⟩ := list
      have hOwner : ∀ other : Walk,
          (other.closeList ⟨kind, owner, inside⟩ size).place = owner.place := by
        intro other
        rw [closeList]
        split <;> rfl
      dsimp only
      rw [hOwner]
      cases owner <;> rfl
  | objectDeclaration kind home element => exact congrArg Place.process? hPlace
  | _ => rw [hPlace]

theorem generates_flushed (walk : Walk) (size : Nat) :
    (walk.flushed size).generates = walk.generates := by
  rw [flushed]
  cases walk.place with
  | interfaceDeclaration list element =>
      dsimp only
      rw [closeList]
      split <;> rfl
  | _ => rfl

/-- The end of the text closes no generate statement. -/
theorem generates_finish (walk : Walk) (size : Nat) :
    (walk.finish size).generates = walk.generates := by
  have hFlushed := walk.generates_flushed size
  exact finish_of_flushed (P := (·.generates = walk.generates)) hFlushed fun _ _ => hFlushed

end Ends

end HdlIndex.Vhdl.Walk

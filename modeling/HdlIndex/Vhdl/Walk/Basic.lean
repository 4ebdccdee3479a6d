import HdlIndex.Log
import HdlIndex.Vhdl.Place
import HdlIndex.Vhdl.Table
/-! The state of a walk through a VHDL text, and the changes that several regions make to it. -/
namespace HdlIndex.Vhdl

/-- One level of nested generate statements. -/
structure Generate where
  /-- The condition in force. -/
  condition : String
  /-- The conditions of the alternatives seen so far. -/
  alternatives : List String := []
  /-- The expression of a case. -/
  selector : Option String := none
  /-- The alternative began with `begin` and has an `end` of its own. -/
  begun : Bool := false
deriving DecidableEq, Repr

/-- A walk under way: where it stands, what it is inside of, and what it has collected. -/
structure Walk where
  place : Place
  /-- The open generate statements, innermost first. -/
  generates : List Generate := []
  /-- A statement label that no statement has taken. -/
  label : Option Word := none
  found : Findings := {}
  /-- The notes taken, the latest first. -/
  notes : List Note := []

/-- Applies a change to the declaration list of an interface list. -/
def Findings.modifyList (found : Findings) (kind : ListKind)
    (change : Declarations → Declarations) : Findings :=
  match kind with
  | .ports => { found with ports := change found.ports }
  | .generics => { found with generics := change found.generics }
  | .componentPorts => { found with componentPorts := change found.componentPorts }
  | .componentGenerics => { found with componentGenerics := change found.componentGenerics }
  | .parameters => { found with parameters := change found.parameters }

namespace Walk

/-- The walk stands in front of a text that starts in `region`. A region that is no entry is
replaced by the one of whole files. -/
def start (region : Region) : Walk :=
  match Place.ofEntry? region with
  | some place => { place }
  | none =>
    { place := .entityContext, notes := [.replacedStart region.name Region.start.name] }

def note (walk : Walk) (note : Note) : Walk := { walk with notes := note :: walk.notes }

def goto (walk : Walk) (place : Place) : Walk := { walk with place }

def skip (walk : Walk) (home : Home) : Walk := walk.goto (.skipStatement home 0)

def nextStatement (walk : Walk) : Walk := walk.goto (.architectureBody {})

def collect (walk : Walk) (change : Findings → Findings) : Walk :=
  { walk with found := change walk.found }

def conditions (walk : Walk) : List String := (walk.generates.map (·.condition)).reverse

def modifyGenerate (walk : Walk) (change : Generate → Generate) : Walk :=
  match walk.generates with
  | [] => walk
  | top :: rest => { walk with generates := change top :: rest }

/-- Records the instance that the pending label names. Without a label there is none. -/
def commitInstance (walk : Walk) (unit : Word) (library : String) : Walk :=
  match walk.label with
  | none => walk
  | some label =>
    let walk := walk.note (.instanceFound label.text unit.text)
    { walk with
      label := none
      found.instances := walk.found.instances.push ⟨label, unit, library⟩ }

/-- Closes a process at a byte offset. The signals that a clocked one drives become clocked signals
under the conditions in force. -/
def commitProcess (walk : Walk) (process : HdlProcess) (offset : Nat) : Walk :=
  let process := process.close offset
  let clocked :=
    if process.clocked then
      process.signalTargets.foldl (fun signals target => signals.record target.stem walk.conditions)
        walk.found.clocked
    else walk.found.clocked
  let walk := walk.note (.processClosed process.label process.clocked)
  walk.collect fun found => { found with clocked, processes := found.processes.push process }

def completeElement (walk : Walk) (list : InterfaceList) (element : Element) : Walk :=
  walk.collect (·.modifyList list.kind (element.complete list.kind.defaultMode))

def completeObject (walk : Walk) (kind : ObjectKind) (element : Element) : Walk :=
  walk.collect fun found => { found with objects := element.complete kind.text found.objects }

/-- Leaves an interface list whose inside ends at a byte offset. -/
def closeList (walk : Walk) (list : InterfaceList) (offset : Nat) : Walk :=
  let walk := walk.goto list.owner.place
  if list.kind = .generics then
    walk.collect fun found => { found with genericClause := some ⟨list.inside, offset⟩ }
  else walk

end Walk

end HdlIndex.Vhdl

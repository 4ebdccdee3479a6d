import HdlIndex.Log
import HdlIndex.Verilog.Place
import HdlIndex.Verilog.Table
/-! The state of a walk through a Verilog text, and the changes that several regions make to it. -/
namespace HdlIndex.Verilog

/-- A generate condition in force, with what decides how long it stays so: a block of items, or the
next item alone. -/
structure Frame where
  condition : String
  /-- The condition of an `else` behind it. -/
  otherwise : String
  /-- The depth of blocks that keeps it in force. -/
  owner : Nat
  /-- It holds for the next module item only. -/
  single : Bool
  /-- The selector of a case. -/
  selector : Option String := none
  /-- The choice of the next item of a case is to come. -/
  awaiting : Bool := false
deriving DecidableEq, Repr

/-- The state of a label behind `begin` or `end`. -/
inductive Label where
  | idle
  /-- A colon comes next. The label behind it is recorded or dropped. -/
  | colon (recorded : Bool)
  | name (recorded : Bool)
deriving DecidableEq, Repr

/-- A walk under way: where it stands, what it is inside of, and what it has collected. -/
structure Walk where
  place : Place
  /-- The generate conditions in force, innermost first. -/
  frames : List Frame := []
  /-- The numbers of conditions in force in front of the open generate regions, innermost first. -/
  bases : List Nat := []
  /-- Open blocks of module items. -/
  blocks : Nat := 0
  /-- What an `else` would put in force. -/
  pendingElse : Option String := none
  /-- The condition of an `else` whose `if` is to come. -/
  chained : Option String := none
  label : Label := .idle
  found : Findings := {}
  /-- The notes taken, the latest first. -/
  notes : List Note := []

namespace Walk

/-- The walk stands in front of a text that starts in `region`. A region that is no entry is
replaced by the one of whole files. -/
def start (region : Region) : Walk :=
  match Place.ofEntry? region with
  | some place => { place }
  | none =>
    { place := .moduleContext, notes := [.replacedStart region.name Region.start.name] }

def note (walk : Walk) (note : Note) : Walk := { walk with notes := note :: walk.notes }

def goto (walk : Walk) (place : Place) : Walk := { walk with place }

def collect (walk : Walk) (change : Findings → Findings) : Walk :=
  { walk with found := change walk.found }

def conditions (walk : Walk) : List String := (walk.frames.map (·.condition)).reverse

def isNext (next : Option Lexeme) (symbol : Symbol) : Bool := next.any (·.symbol = symbol)

/-- Prepares for a label, if a colon comes next. -/
def expectLabel (walk : Walk) (recorded : Bool) (next : Option Lexeme) : Walk :=
  if isNext next .colon then { walk with label := .colon recorded } else walk

/-- Puts conditions out of force from the innermost outwards, as long as `ends` holds of them. The
`else` of the last one may follow. -/
def leaveFrames (walk : Walk) (ends : Frame → Bool) : Walk :=
  let left := walk.frames.takeWhile ends
  { walk with
    frames := walk.frames.dropWhile ends
    pendingElse := match left.getLast? with
      | some frame => some frame.otherwise
      | none => walk.pendingElse }

/-- Ends a module item: the conditions that held for it alone end with it, and in a case the choice
of the next item comes next. -/
def endItem (walk : Walk) : Walk :=
  let walk := walk.leaveFrames fun frame => frame.single && walk.blocks ≤ frame.owner
  match walk.frames with
  | [] => walk
  | top :: rest =>
    if top.selector.isSome && top.owner = walk.blocks then
      { walk with frames := { top with awaiting := true } :: rest }
    else walk

/-- Returns to the module's body behind an item. -/
def backToBody (walk : Walk) : Walk := (walk.goto .moduleBody).endItem

def resume (walk : Walk) (home : Home) : Walk :=
  match home with
  | .moduleContext => walk.goto .moduleContext
  | .moduleHeader announced => walk.goto (.moduleHeader announced)
  | .moduleBody => walk.backToBody

/-- Puts a condition in force: for the block that follows, or else for one module item. -/
def enterFrame (walk : Walk) (condition otherwise : String) (next : Option Lexeme) : Walk :=
  let single := ! isNext next (.keyword .begin)
  let owner := if single then walk.blocks else walk.blocks + 1
  let walk := { walk with frames := { condition, otherwise, owner, single } :: walk.frames }
  walk.note (.conditionsNow walk.conditions)

/-- Closes an always block at a byte offset. -/
def commitProcess (walk : Walk) (process : HdlProcess) (offset : Nat) : Walk :=
  let process := process.close offset
  let walk := walk.note (.alwaysClosed process.span.start process.clocked)
  walk.collect fun found => { found with processes := found.processes.push process }

end Walk

end HdlIndex.Verilog

import HdlIndex.Symbols.HdlProcess
import HdlIndex.Verilog.Item
import HdlIndex.Verilog.Region
/-! Where a walk through a Verilog text stands. A place is a region together with what must be known
there and nowhere else: counters of brackets, expressions under way, and the place to return to. An
open always block is part of the places inside of it. -/
namespace HdlIndex.Verilog

inductive Owner where
  /-- The text holds nothing but the list. -/
  | text
  | module
deriving DecidableEq, Repr

/-- Where an import or a skipped block returns to. A header remembers whether a parameter list is
announced. -/
inductive Home where
  | moduleContext
  | moduleHeader (announced : Bool)
  | moduleBody
deriving DecidableEq, Repr

/-- A statement that begins with a name: an instance, or a declaration of a named type. Which of
them it is shows at a later word. -/
structure Instantiation where
  type : Word
  name : Option Word := none
  /-- Parameters are announced. -/
  parameters : Bool := false
  /-- The type read so far qualifies the name that follows. -/
  qualifies : Bool := false
deriving DecidableEq, Repr

inductive GenerateKind where
  | if
  | for
  | case
deriving DecidableEq, Repr

/-- A procedural statement as far as it is read. -/
structure Sequential where
  /-- Words read of it. -/
  count : Nat := 0
  /-- The index of the name it begins with among the words of the block. -/
  first : Option Nat := none
  /-- The bracket depth inside the concatenation that it begins with, while that is open. -/
  concat : Option Nat := none
  /-- The indices of the names directly inside of that concatenation. -/
  concatNames : Array Nat := #[]
deriving DecidableEq, Repr

/-- The names that an assignment assigns: the one that the statement begins with, or those of the
concatenation that it begins with. -/
def Sequential.targets (statement : Sequential) : List Nat :=
  statement.first.toList ++ statement.concatNames.toList

/-- The statements of an always block, or of an initial or final one, which is no process. -/
structure Block where
  process : Option HdlProcess
  /-- Open blocks of statements. -/
  nest : Nat := 0
  /-- Open brackets. -/
  depth : Nat := 0
  /-- Conditional operators that wait for their colon. -/
  ternary : Nat := 0
  /-- The header of a condition or a loop is to come. -/
  headerPending : Bool := false
  /-- The bracket depth around the header under way. -/
  headerDepth : Option Nat := none
  statement : Sequential := {}
deriving DecidableEq, Repr

/-- Where a walk stands. A depth counts the brackets that are open there. -/
inductive Place where
  | moduleContext
  | moduleName
  | moduleHeader (announced : Bool)
  /-- The byte offset behind the opening parenthesis is `inside`. -/
  | parameterList (owner : Owner) (inside : Nat) (item : Item)
  | portList (owner : Owner) (item : Item)
  | moduleBody
  | declaration (item : Item)
  | importClause (home : Home)
  | instanceHeader (statement : Instantiation) (depth : Nat)
  | instanceMap (statement : Instantiation) (depth : Nat)
  | generateHeader (kind : GenerateKind) (depth : Nat) (expr : Capture)
  | generateChoice (depth : Nat) (expr : Capture)
  | alwaysHeader (process : HdlProcess)
  | sensitivityList (process : HdlProcess) (depth : Nat)
  | alwaysBlock (clocked : Bool) (block : Block)
  | skipStatement (depth : Nat)
  | skipBlock (closer : Keyword) (home : Home)
deriving DecidableEq, Repr

def Owner.place : Owner → Place
  | text => .moduleContext
  | module => .moduleHeader false

namespace Place

/-- The region of a place. An always block under a clock has a region of its own. -/
def region : Place → Region
  | moduleContext => .moduleContext
  | moduleName => .moduleName
  | moduleHeader _ => .moduleHeader
  | parameterList .. => .parameterList
  | portList .. => .portList
  | moduleBody => .moduleBody
  | declaration _ => .declaration
  | importClause _ => .importClause
  | instanceHeader .. => .instanceHeader
  | instanceMap .. => .instanceMap
  | generateHeader .. => .generateHeader
  | generateChoice .. => .generateChoice
  | alwaysHeader _ => .alwaysHeader
  | sensitivityList .. => .sensitivityList
  | alwaysBlock clocked _ => if clocked then .clockedAlwaysBlock else .alwaysBlock
  | skipStatement _ => .skipStatement
  | skipBlock .. => .skipBlock

/-- The place that a walk starts at in an entry region. -/
def ofEntry? : Region → Option Place
  | .moduleContext => some .moduleContext
  | .moduleBody => some .moduleBody
  | .parameterList => some (.parameterList .text 0 { kind := .parameterPort })
  | .portList => some (.portList .text { kind := .port })
  | _ => none

/-- The regions that a scan may start in are those with a place for it. -/
theorem isEntry_iff (region : Region) :
    region.isEntry = true ↔ ∃ place, ofEntry? region = some place := by
  cases region <;> simp [Region.isEntry, Region.entries, ofEntry?]

/-- The always block that is open at a place. -/
def process? : Place → Option HdlProcess
  | alwaysHeader process | sensitivityList process _ => some process
  | alwaysBlock _ block => block.process
  | _ => none

/-- Offers blanks and string contents to the expression under way. -/
def absorb (place : Place) (token : Token) : Place :=
  match place with
  | parameterList owner inside item =>
    .parameterList owner inside { item with expr := item.expr.absorb token }
  | portList owner item => .portList owner { item with expr := item.expr.absorb token }
  | declaration item => .declaration { item with expr := item.expr.absorb token }
  | generateHeader kind depth expr => .generateHeader kind depth (expr.absorb token)
  | generateChoice depth expr => .generateChoice depth (expr.absorb token)
  | place => place

end Place

end HdlIndex.Verilog

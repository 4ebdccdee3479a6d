import HdlIndex.Symbols.Word
import HdlIndex.Symbols.Answer
/-! Declaration lists. A name is read before its mode, type, range and initial value, so a list is
its completed rows followed by the names that still wait for their attributes. The columns of the
completed rows have one length by construction. -/
namespace HdlIndex

/-- A declared name with its attributes. An absent attribute is the empty text. -/
structure Row where
  name : Word
  mode : String
  type : Word
  range : String
  init : String
deriving DecidableEq, Repr, Inhabited

/-- Completed rows, then pending names: those that wait for their attributes, in the order of the
text. -/
structure Declarations where
  rows : Array Row := #[]
  pending : Array Word := #[]
deriving DecidableEq, Repr, Inhabited

namespace Declarations

def pushName (list : Declarations) (name : Word) : Declarations :=
  { list with pending := list.pending.push name }

/-- The row of a name. A missing type is the empty text at the end of the name. -/
def completed (mode : String) (type : Option Word) (range init : String) (name : Word) : Row :=
  ⟨name, mode, type.getD ⟨"", .empty name.span.stop⟩, range, init⟩

/-- Gives every pending name the same attributes. -/
def complete (list : Declarations) (mode : String) (type : Option Word) (range init : String) :
    Declarations :=
  ⟨list.rows ++ list.pending.map (completed mode type range init), #[]⟩

/-- The value that replaces `old`: an empty one leaves it untouched. -/
def unlessEmpty (new old : String) : String := if new.isEmpty then old else new

/-- Overwrites attributes of a completed row. An empty attribute leaves the row's own untouched, and
an index past the completed rows changes nothing. -/
def update (list : Declarations) (index : Nat) (mode : String) (type : Option Word)
    (range init : String) : Declarations :=
  { list with
    rows := list.rows.modify index fun row =>
      { row with
        mode := unlessEmpty mode row.mode
        type := type.getD row.type
        range := unlessEmpty range row.range
        init := unlessEmpty init row.init } }

def pushRow (list : Declarations) (name : Word) (mode : String) (type : Option Word)
    (range init : String) : Declarations :=
  (list.pushName name).complete mode type range init

/-- Completes the pending names with empty attributes. This is done when a scan is over, to a list
that the text leaves unfinished. -/
def align (list : Declarations) : Declarations :=
  if list.pending.isEmpty then list else list.complete "" none "" ""

def isAligned (list : Declarations) : Bool := list.pending.isEmpty

def names (list : Declarations) : List Word :=
  list.rows.toList.map (·.name) ++ list.pending.toList

def size (list : Declarations) : Nat := list.rows.size + list.pending.size

/-- The index of the first entry with a name. -/
def find? (list : Declarations) (name : String) : Option Nat :=
  match list.rows.findIdx? (·.name.text == name) with
  | some index => some index
  | none => (list.pending.findIdx? (·.text == name)).map (list.rows.size + ·)

def modes (list : Declarations) : List String := list.rows.toList.map (·.mode)

def types (list : Declarations) : List Word := list.rows.toList.map (·.type)

def ranges (list : Declarations) : List String := list.rows.toList.map (·.range)

def inits (list : Declarations) : List String := list.rows.toList.map (·.init)

/-- A column by the last part of its tag. Interface lists call the mode a direction and object lists
call it a kind. -/
def get (list : Declarations) (column : String) : Answer :=
  match column with
  | "names" => .list (list.names.map (·.text))
  | "direction" | "kind" => .list list.modes
  | "types" => .list (list.types.map (·.text))
  | "ranges" => .list list.ranges
  | "init" => .list list.inits
  | _ => .none

/-- The places of a column. Only names and types have one. -/
def positions (list : Declarations) (column : String) : List Span :=
  match column with
  | "names" => list.names.map (·.span)
  | "types" => list.types.map (·.span)
  | _ => []

end Declarations

end HdlIndex

import HdlIndex.Fault
import HdlIndex.Json
import HdlIndex.Settings.Document
import HdlIndex.Token.Split
/-! The settings of the command line, and how a document gives them. -/
namespace HdlIndex

inductive ColorMode where
  | auto
  | always
  | never
deriving DecidableEq, Repr

namespace ColorMode

def name : ColorMode → String
  | auto => "auto"
  | always => "always"
  | never => "never"

def ofName? (name : String) : Option ColorMode :=
  [auto, always, never].find? (·.name == name)

def read (name : String) : Except Fault ColorMode :=
  match ofName? name with
  | some mode => .ok mode
  | none => .error (.unknownColorMode name)

/-- Colours are shown. What is printed goes to no terminal, so that `auto` shows none. -/
def showsColors (mode : ColorMode) : Bool := mode == always

end ColorMode

structure Settings where
  /-- The size of a file is no matter. -/
  allowLargeFiles : Bool := false
  /-- How many bytes of a file are read, about, if its size is a matter. -/
  sizeLimit : Nat := defaultSizeLimit
  color : ColorMode := .auto
deriving DecidableEq, Repr

namespace Settings

def limit (settings : Settings) : Option Nat :=
  if settings.allowLargeFiles then none else some settings.sizeLimit

/-- Lifts the ceiling. It is never brought back. -/
def allowLarge (settings : Settings) (allow : Bool) : Settings :=
  if allow then { settings with allowLargeFiles := true } else settings

def withColor (settings : Settings) (mode : Option ColorMode) : Settings :=
  { settings with color := mode.getD settings.color }

/-- The fields of a record, in the order of their names: of a table by name, and it has no others;
of an array by position. -/
def record? (names : List String) : Value → Option (List (Option Value))
  | .table _ entries =>
    if entries.all fun entry => names.contains entry.1 then
      some (names.map (List.lookup · entries))
    else none
  | .array items => some (names.mapIdx fun i _ => items[i]?)
  | .tables items => some (names.mapIdx fun i _ => items[i]?.map (.table .header))
  | .scalar _ => none

def optional? {α : Type} (read? : Value → Option α) (fallback : α) : Option Value → Option α
  | some value => read? value
  | none => some fallback

def boolean? : Value → Option Bool
  | .scalar (.boolean value) => some value
  | _ => none

def size? : Value → Option Nat
  | .scalar (.integer (.ofNat value)) => some value
  | _ => none

/-- A color mode: a string with its name, or a table with the name as its only key and nothing in
it. -/
def color? : Value → Option ColorMode
  | .scalar (.text name) => ColorMode.ofName? name
  | .table _ [(name, .table _ [])] => ColorMode.ofName? name
  | _ => none

/-- The group `parse`. A field of another type makes it invalid, and so does a field that is not
known. -/
def parse? (settings : Settings) (value : Value) : Option Settings := do
  match ← record? ["allow-large-files", "size-limit"] value with
  | [allow, size] =>
    let allow ← optional? boolean? settings.allowLargeFiles allow
    let size ← optional? size? settings.sizeLimit size
    return { settings with allowLargeFiles := allow, sizeLimit := size }
  | _ => none

def output? (settings : Settings) (value : Value) : Option Settings := do
  match ← record? ["color"] value with
  | [color] => return { settings with color := ← optional? color? settings.color color }
  | _ => none

/-- The settings that a text gives. What it leaves out keeps its default. -/
def ofText? (text : String) : Option Settings := do
  match ← record? ["parse", "output"] (.table .header (← document? text)) with
  | [parse, output] =>
    let settings ← parse.elim (some {}) (parse? {})
    output.elim (some settings) (output? settings)
  | _ => none

def toJson (settings : Settings) : Json := .object [
  ("parse", .object [
    ("allow-large-files", .bool settings.allowLargeFiles),
    ("size-limit", .number settings.sizeLimit)]),
  ("output", .object [("color", .string settings.color.name)])]

end Settings

end HdlIndex

import HdlIndex.Symbols.Export
/-! The symbol table of a Verilog text and its JSON form. All texts are in the case they are written
in. -/
namespace HdlIndex.Verilog

structure Instance where
  name : Word
  module : Word
deriving DecidableEq, Repr

/-- What the walk through the regions collects. Comments, included files and reserved words are not
part of it, because they do not depend on where the walk stands. -/
structure Findings where
  modules : Words := {}
  ports : Declarations := {}
  parameters : Declarations := {}
  /-- Nets, variables and local parameters of module bodies. -/
  objects : Declarations := {}
  /-- The inside of the parameter list closed last. -/
  genericClause : Option Span := none
  clocked : ClockedSignals := {}
  instances : Array Instance := #[]
  labels : Words := {}
  packages : Words := {}
  processes : Array HdlProcess := #[]
deriving DecidableEq, Repr

namespace Findings

/-- The declaration lists with the category that each one is filed under. -/
def lists (found : Findings) : List (String × Declarations) :=
  [("port_interface", found.ports), ("generics_interface", found.parameters),
   ("signal_constant_variable", found.objects)]

/-- The categories with names that have no attributes, and how many. -/
def ragged (found : Findings) : List (String × Nat) :=
  (found.lists.filter (! ·.2.isAligned)).map fun list => (list.1, list.2.pending.size)

def align (found : Findings) : Findings :=
  { found with
    ports := found.ports.align
    parameters := found.parameters.align
    objects := found.objects.align }

/-- The name is that of a declared object. Local parameters count as well, although they are no
signals. -/
def isSignal (found : Findings) (name : String) : Bool := (found.objects.find? name).isSome

/-- The name is that of a port of any direction but `output`, also of a port that has no direction
yet. -/
def isReadablePort (found : Findings) (name : String) : Bool :=
  match found.ports.find? name with
  | some index => (found.ports.rows[index]?).map (·.mode) ≠ some "output"
  | none => false

end Findings

/-- Everything that one scan of a Verilog text collects. -/
structure Table extends Findings where
  /-- The text inside the parameter list. -/
  genericDefinition : String := ""
  includeFiles : Words := {}
  comments : Words := {}
  keywords : List Span := []
  diagnostics : List Diagnostic := []
deriving DecidableEq, Repr

namespace Table

/-- The declaration list that a tag begins with, and the column that the tag ends with. -/
def column? (table : Table) (tag : String) : Option (Declarations × String) :=
  table.lists.findSome? fun list => (attribute? (list.1 ++ "_") tag).map (list.2, ·)

/-- The value of a category. Of several modules the first one gives its name. -/
def get (table : Table) (tag : String) : Answer :=
  match tag with
  | "entity_name" | "module_name" => .text table.modules.first
  | "generic_definition" => .text table.genericDefinition
  | "clocked_signals" => .list table.clocked.names
  | "clocked_signals_generate_conditions" => .conditions table.clocked.conditions
  | "instance_names" => .list (table.instances.toList.map (·.name.text))
  | "instance_types" => .list (table.instances.toList.map (·.module.text))
  | "label_names" => .list table.labels.texts
  | "package_names" => .list table.packages.texts
  | "include_files" => .list table.includeFiles.texts
  | "comment" => .list table.comments.texts
  | tag =>
    match table.column? tag with
    | some (list, column) => list.get column
    | none => .none

def positions (table : Table) (tag : String) : List Span :=
  match category tag with
  | "entity_name" | "module_name" => table.modules.spans
  | "clocked_signals" => table.clocked.spans
  | "instance_names" => table.instances.toList.map (·.name.span)
  | "instance_types" => table.instances.toList.map (·.module.span)
  | "label_names" => table.labels.spans
  | "package_names" => table.packages.spans
  | "include_files" => table.includeFiles.spans
  | "comment" => table.comments.spans
  | "keyword" => table.keywords
  | tag =>
    match table.column? tag with
    | some (list, column) => list.positions column
    | none => []

end Table

def Table.toJson (table : Table) : Json :=
  .object
    [("module_name", table.modules.toJson),
     ("ports", table.ports.toJson),
     ("parameters", table.parameters.toJson),
     ("objects", table.objects.toJson),
     ("generic_definition", .string table.genericDefinition),
     ("clocked", table.clocked.toJson),
     ("instance_names", .words (table.instances.toList.map (·.name))),
     ("instance_types", .words (table.instances.toList.map (·.module))),
     ("label_names", table.labels.toJson),
     ("package_names", table.packages.toJson),
     ("include_files", table.includeFiles.toJson),
     ("comments", table.comments.toJson),
     ("keywords", .array (table.keywords.map Span.toJson)),
     ("processes", .array (table.processes.toList.map HdlProcess.toJson)),
     ("diagnostics", .array (table.diagnostics.map Diagnostic.toJson))]

end HdlIndex.Verilog

import HdlIndex.Symbols.Export
/-! The symbol table of a VHDL text and its JSON form. Names, types and expressions are in lower
case; comments and the text of the generic clause keep the case of the source. -/
namespace HdlIndex.Vhdl

structure TypeDefinition where
  name : Word
  definition : String
deriving DecidableEq, Repr

/-- An instantiated unit. The library is empty where none is written. -/
structure Instance where
  label : Word
  unit : Word
  library : String
deriving DecidableEq, Repr

/-- What the walk through the regions collects. Comments and reserved words are not part of it,
because they do not depend on where the walk stands. -/
structure Findings where
  entities : Words := {}
  architectures : Words := {}
  /-- The entities that architectures are of. -/
  architectureEntities : Words := {}
  packages : Words := {}
  libraries : Words := {}
  usedPackages : Words := {}
  ports : Declarations := {}
  generics : Declarations := {}
  /-- Signals, constants, variables and files. -/
  objects : Declarations := {}
  /-- The inside of the generic clause closed last. -/
  genericClause : Option Span := none
  components : Words := {}
  componentPorts : Declarations := {}
  componentGenerics : Declarations := {}
  subprograms : Words := {}
  /-- The words `function` and `procedure` in front of subprogram names. -/
  subprogramKinds : Array String := #[]
  parameters : Declarations := {}
  types : Array TypeDefinition := #[]
  clocked : ClockedSignals := {}
  instances : Array Instance := #[]
  labels : Words := {}
  processes : Array HdlProcess := #[]
deriving DecidableEq, Repr

namespace Findings

/-- The declaration lists with the category that each one is filed under. -/
def lists (found : Findings) : List (String × Declarations) :=
  [("port_interface", found.ports), ("generics_interface", found.generics),
   ("signal_constant_variable", found.objects), ("component_port_interface", found.componentPorts),
   ("component_generics_interface", found.componentGenerics),
   ("subprogram_parameter", found.parameters)]

/-- The categories with names that have no attributes, and how many. -/
def ragged (found : Findings) : List (String × Nat) :=
  (found.lists.filter (! ·.2.isAligned)).map fun list => (list.1, list.2.pending.size)

def align (found : Findings) : Findings :=
  { found with
    ports := found.ports.align
    generics := found.generics.align
    objects := found.objects.align
    componentPorts := found.componentPorts.align
    componentGenerics := found.componentGenerics.align
    parameters := found.parameters.align }

/-- The name is that of a declared object. Constants count as well, although they are no signals. -/
def isSignal (found : Findings) (name : String) : Bool := (found.objects.find? name).isSome

/-- The name is that of a port of any mode but `out`, also of a port that has no mode yet. -/
def isReadablePort (found : Findings) (name : String) : Bool :=
  match found.ports.find? name with
  | some index => (found.ports.rows[index]?).map (·.mode) ≠ some "out"
  | none => false

end Findings

/-- Everything that one scan of a VHDL text collects. -/
structure Table extends Findings where
  /-- The text inside the generic clause. -/
  genericDefinition : String := ""
  comments : Words := {}
  keywords : List Span := []
  diagnostics : List Diagnostic := []
deriving DecidableEq, Repr

namespace Table

/-- The declaration list that a tag begins with, and the column that the tag ends with. -/
def column? (table : Table) (tag : String) : Option (Declarations × String) :=
  table.lists.findSome? fun list => (attribute? (list.1 ++ "_") tag).map (list.2, ·)

/-- The value of a category. Of several design units of one kind the first gives its name. -/
def get (table : Table) (tag : String) : Answer :=
  match tag with
  | "entity_name" => .text table.entities.first
  | "architecture_name" => .text table.architectures.first
  | "entity_name_used_in_architecture" => .text table.architectureEntities.first
  | "package_declaration_name" => .text table.packages.first
  | "generic_definition" => .text table.genericDefinition
  | "library_names" => .list table.libraries.texts
  | "package_names" => .list table.usedPackages.texts
  | "component_names" => .list table.components.texts
  | "subprogram_names" => .list table.subprograms.texts
  | "subprogram_kind" => .list table.subprogramKinds.toList
  | "data_type_names" => .list (table.types.toList.map (·.name.text))
  | "data_type_definitions" => .list (table.types.toList.map (·.definition))
  | "clocked_signals" => .list table.clocked.names
  | "clocked_signals_generate_conditions" => .conditions table.clocked.conditions
  | "instance_names" => .list (table.instances.toList.map (·.label.text))
  | "instance_types" => .list (table.instances.toList.map (·.unit.text))
  | "instance_libraries" => .list (table.instances.toList.map (·.library))
  | "label_names" => .list table.labels.texts
  | "comment" => .list table.comments.texts
  | tag =>
    match table.column? tag with
    | some (list, column) => list.get column
    | none => .none

def positions (table : Table) (tag : String) : List Span :=
  match category tag with
  | "entity_name" => table.entities.spans
  | "architecture_name" => table.architectures.spans
  | "entity_name_used_in_architecture" => table.architectureEntities.spans
  | "package_declaration_name" => table.packages.spans
  | "library_names" => table.libraries.spans
  | "package_names" => table.usedPackages.spans
  | "component_names" => table.components.spans
  | "subprogram_names" => table.subprograms.spans
  | "data_type_names" => table.types.toList.map (·.name.span)
  | "clocked_signals" => table.clocked.spans
  | "instance_names" => table.instances.toList.map (·.label.span)
  | "instance_types" => table.instances.toList.map (·.unit.span)
  | "label_names" => table.labels.spans
  | "comment" => table.comments.spans
  | "keyword" => table.keywords
  | tag =>
    match table.column? tag with
    | some (list, column) => list.positions column
    | none => []

end Table

def Table.toJson (table : Table) : Json :=
  .object
    [("entity_name", table.entities.toJson),
     ("architecture_name", table.architectures.toJson),
     ("entity_name_used_in_architecture", table.architectureEntities.toJson),
     ("package_declaration_name", table.packages.toJson),
     ("library_names", table.libraries.toJson),
     ("package_names", table.usedPackages.toJson),
     ("ports", table.ports.toJson),
     ("generics", table.generics.toJson),
     ("objects", table.objects.toJson),
     ("generic_definition", .string table.genericDefinition),
     ("component_names", table.components.toJson),
     ("component_ports", table.componentPorts.toJson),
     ("component_generics", table.componentGenerics.toJson),
     ("subprogram_names", table.subprograms.toJson),
     ("subprogram_kind", .texts table.subprogramKinds.toList),
     ("subprogram_parameters", table.parameters.toJson),
     ("data_type_names", .words (table.types.toList.map (·.name))),
     ("data_type_definitions", .texts (table.types.toList.map (·.definition))),
     ("clocked", table.clocked.toJson),
     ("instance_names", .words (table.instances.toList.map (·.label))),
     ("instance_types", .words (table.instances.toList.map (·.unit))),
     ("instance_libraries", .texts (table.instances.toList.map (·.library))),
     ("label_names", table.labels.toJson),
     ("comments", table.comments.toJson),
     ("keywords", .array (table.keywords.map Span.toJson)),
     ("processes", .array (table.processes.toList.map HdlProcess.toJson)),
     ("diagnostics", .array (table.diagnostics.map Diagnostic.toJson))]

end HdlIndex.Vhdl

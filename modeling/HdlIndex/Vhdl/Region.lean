/-! The regions of a VHDL text: the kinds of place a scan can be in, and which of them a scan may
start in. -/
namespace HdlIndex.Vhdl

/-- A kind of place in a VHDL text. -/
inductive Region where
  /-- Between design units. -/
  | entityContext
  | libraryClause
  | useClause
  | configurationDeclaration
  | entityName
  /-- Generic clause, port clause and declarations of an entity. -/
  | entityHeader
  | entityStatements
  /-- In front of the parenthesis that opens an interface list. -/
  | interfaceListOpen
  /-- Inside a list of ports, generics or parameters. -/
  | interfaceDeclaration
  /-- A signal, constant, variable or file declaration. -/
  | objectDeclaration
  | typeDeclaration
  | architectureName
  | architectureHeader
  | architectureDeclarations
  | architectureBody
  | componentName
  | componentHeader
  | subprogramName
  | subprogramHeader
  | subprogramBody
  | packageName
  | packageDeclarations
  | packageBodyName
  | packageBody
  | processSensitivity
  | processDeclarations
  | processBody
  | instanceHeader
  | instanceMap
  | generateHeader
  | generateChoice
  /-- Up to the next semicolon outside of parentheses. -/
  | skipStatement
  /-- The contents of a generic clause on their own. -/
  | genericList
  /-- The contents of a port clause on their own. -/
  | portList
deriving DecidableEq, Repr

namespace Region

def every : List Region :=
  [.entityContext, .libraryClause, .useClause, .configurationDeclaration, .entityName,
   .entityHeader, .entityStatements, .interfaceListOpen, .interfaceDeclaration, .objectDeclaration,
   .typeDeclaration, .architectureName, .architectureHeader, .architectureDeclarations,
   .architectureBody, .componentName, .componentHeader, .subprogramName, .subprogramHeader,
   .subprogramBody, .packageName, .packageDeclarations, .packageBodyName, .packageBody,
   .processSensitivity, .processDeclarations, .processBody, .instanceHeader, .instanceMap,
   .generateHeader, .generateChoice, .skipStatement, .genericList, .portList]

/-- The name of a region in listings and in the log. -/
def name : Region → String
  | entityContext => "EntityContext"
  | libraryClause => "LibraryClause"
  | useClause => "UseClause"
  | configurationDeclaration => "ConfigurationDeclaration"
  | entityName => "EntityName"
  | entityHeader => "EntityHeader"
  | entityStatements => "EntityStatements"
  | interfaceListOpen => "InterfaceListOpen"
  | interfaceDeclaration => "InterfaceDeclaration"
  | objectDeclaration => "ObjectDeclaration"
  | typeDeclaration => "TypeDeclaration"
  | architectureName => "ArchitectureName"
  | architectureHeader => "ArchitectureHeader"
  | architectureDeclarations => "ArchitectureDeclarations"
  | architectureBody => "ArchitectureBody"
  | componentName => "ComponentName"
  | componentHeader => "ComponentHeader"
  | subprogramName => "SubprogramName"
  | subprogramHeader => "SubprogramHeader"
  | subprogramBody => "SubprogramBody"
  | packageName => "PackageName"
  | packageDeclarations => "PackageDeclarations"
  | packageBodyName => "PackageBodyName"
  | packageBody => "PackageBody"
  | processSensitivity => "ProcessSensitivity"
  | processDeclarations => "ProcessDeclarations"
  | processBody => "ProcessBody"
  | instanceHeader => "InstanceHeader"
  | instanceMap => "InstanceMap"
  | generateHeader => "GenerateHeader"
  | generateChoice => "GenerateChoice"
  | skipStatement => "SkipStatement"
  | genericList => "GenericList"
  | portList => "PortList"

/-- The regions a scan may start in, by the name that a user gives. -/
def entries : List (String × Region) :=
  [("entity_context", .entityContext), ("architecture_declarations", .architectureDeclarations),
   ("architecture_body", .architectureBody), ("package_declarations", .packageDeclarations),
   ("generic_list", .genericList), ("port_list", .portList)]

def isEntry (region : Region) : Bool := entries.any (·.2 = region)

/-- The region that a whole file starts in. -/
def start : Region := .entityContext

def ofEntry? (name : String) : Option Region :=
  (entries.find? (·.1 = name)).map (·.2)

end Region

end HdlIndex.Vhdl

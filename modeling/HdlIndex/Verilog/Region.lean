/-! The regions of a Verilog text: the kinds of place a scan can be in, and which of them a scan
may start in. -/
namespace HdlIndex.Verilog

/-- A kind of place in a Verilog text. -/
inductive Region where
  /-- Outside of modules. -/
  | moduleContext
  | moduleName
  /-- Between the name of a module and the semicolon that ends its header. -/
  | moduleHeader
  | parameterList
  | portList
  | moduleBody
  /-- A declaration of ports, nets, variables or parameters in a module's body. -/
  | declaration
  | importClause
  /-- A statement that begins with a name: an instance, or a declaration of a named type. -/
  | instanceHeader
  | instanceMap
  | generateHeader
  /-- The choice of an item of a generate case. -/
  | generateChoice
  /-- Behind `always`, in front of the event control. -/
  | alwaysHeader
  | sensitivityList
  | alwaysBlock
  | clockedAlwaysBlock
  | skipStatement
  /-- Up to a closing keyword such as `endfunction`. -/
  | skipBlock
deriving DecidableEq, Repr

namespace Region

def every : List Region :=
  [.moduleContext, .moduleName, .moduleHeader, .parameterList, .portList, .moduleBody,
   .declaration, .importClause, .instanceHeader, .instanceMap, .generateHeader, .generateChoice,
   .alwaysHeader, .sensitivityList, .alwaysBlock, .clockedAlwaysBlock, .skipStatement, .skipBlock]

/-- The name of a region in listings and in the log. -/
def name : Region → String
  | moduleContext => "ModuleContext"
  | moduleName => "ModuleName"
  | moduleHeader => "ModuleHeader"
  | parameterList => "ParameterList"
  | portList => "PortList"
  | moduleBody => "ModuleBody"
  | declaration => "Declaration"
  | importClause => "ImportClause"
  | instanceHeader => "InstanceHeader"
  | instanceMap => "InstanceMap"
  | generateHeader => "GenerateHeader"
  | generateChoice => "GenerateChoice"
  | alwaysHeader => "AlwaysHeader"
  | sensitivityList => "SensitivityList"
  | alwaysBlock => "AlwaysBlock"
  | clockedAlwaysBlock => "ClockedAlwaysBlock"
  | skipStatement => "SkipStatement"
  | skipBlock => "SkipBlock"

/-- The regions a scan may start in, by the name that a user gives. -/
def entries : List (String × Region) :=
  [("module_context", .moduleContext), ("module_body", .moduleBody),
   ("parameter_list", .parameterList), ("port_list", .portList)]

def isEntry (region : Region) : Bool := entries.any (·.2 = region)

/-- The region that a whole file starts in. -/
def start : Region := .moduleContext

def ofEntry? (name : String) : Option Region :=
  (entries.find? (·.1 = name)).map (·.2)

end Region

end HdlIndex.Verilog

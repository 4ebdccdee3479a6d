import HdlIndex.Verilog.Walk.Basic
/-! The walk outside of module bodies and through declarations: module headers, imports, and the
items of parameter lists, port lists and bodies. -/
namespace HdlIndex.Verilog.Walk

/-- Records a port, unless it is known from the header: then the declaration adds what the header
leaves out. All ports of the text are looked up, also those of earlier modules. -/
def declarePort (found : Findings) (item : Item) (name : Word) : Findings :=
  match found.ports.find? name.text with
  | some index =>
    { found with
      ports := found.ports.update index item.direction item.type item.rangeText "" }
  | none =>
    { found with
      ports := found.ports.pushRow name item.direction item.type item.rangeText "" }

/-- Records a net or variable, unless it is a port: then the declaration adds to that. All ports of
the text are looked up, also those of earlier modules. -/
def declareNet (found : Findings) (item : Item) (name : Word) : Findings :=
  match found.ports.find? name.text with
  | some index =>
    { found with
      ports := found.ports.update index "" item.type item.rangeText item.valueText }
  | none =>
    { found with
      objects := found.objects.pushRow name item.keyword item.type item.rangeText item.valueText }

/-- Records the name that an item has read, with the attributes it has read so far. -/
def declare (found : Findings) (item : Item) : Findings :=
  match item.name with
  | none => found
  | some name =>
    match item.kind with
    | .parameterPort | .bodyParameter =>
      { found with
        parameters := found.parameters.pushRow name "" item.type item.rangeText item.valueText }
    | .port =>
      { found with
        ports := found.ports.pushRow name item.direction item.type item.rangeText item.valueText }
    | .bodyPort => declarePort found item name
    | .bodyNet => declareNet found item name
    | .bodyLocalparam =>
      { found with
        objects :=
          found.objects.pushRow name "localparam" item.type item.rangeText item.valueText }

def flush (walk : Walk) (item : Item) : Walk := walk.collect (declare · item)

/-- Leaves a parameter list whose inside ends at a byte offset. -/
def closeParameters (walk : Walk) (owner : Owner) (inside offset : Nat) : Walk :=
  (walk.collect fun found => { found with genericClause := some ⟨inside, offset⟩ }).goto owner.place

def readParameters (walk : Walk) (owner : Owner) (inside : Nat) (item : Item) (here : Lexeme) :
    Walk :=
  match item.read here with
  | .stay item => walk.goto (.parameterList owner inside item)
  | .next | .done => (walk.flush item).goto (.parameterList owner inside item.afterName)
  | .close => (walk.flush item).closeParameters owner inside here.span.start

def readPorts (walk : Walk) (owner : Owner) (item : Item) (here : Lexeme) : Walk :=
  match item.read here with
  | .stay item => walk.goto (.portList owner item)
  | .next | .done => (walk.flush item).goto (.portList owner item.afterName)
  | .close => (walk.flush item).goto owner.place

def readDeclaration (walk : Walk) (item : Item) (here : Lexeme) : Walk :=
  match item.read here with
  | .stay item => walk.goto (.declaration item)
  | .next => (walk.flush item).goto (.declaration item.afterName)
  | .done | .close => (walk.flush item).backToBody

/-- Reads a word outside of modules. A package is passed over as a whole. -/
def readContext (walk : Walk) (here : Lexeme) : Walk :=
  match here.symbol with
  | .keyword .module | .keyword .macromodule => walk.goto .moduleName
  | .keyword .import => walk.goto (.importClause .moduleContext)
  | .keyword .package => walk.goto (.skipBlock .endpackage .moduleContext)
  | _ => walk

def readModuleName (walk : Walk) (here : Lexeme) : Walk :=
  match here.symbol with
  | .name =>
    ((walk.note (.moduleFound here.text)).collect fun found =>
      { found with modules := found.modules.push here.word }).goto (.moduleHeader false)
  | _ => walk

/-- Reads a word of a module's header. A hash announces the parameter list. -/
def readModuleHeader (walk : Walk) (announced : Bool) (here : Lexeme) : Walk :=
  match here.symbol with
  | .hash => walk.goto (.moduleHeader true)
  | .parenOpen =>
    if announced then
      walk.goto (.parameterList .module here.span.stop { kind := .parameterPort })
    else walk.goto (.portList .module { kind := .port })
  | .semicolon => { walk with blocks := 0 }.backToBody
  | .keyword .import => walk.goto (.importClause (.moduleHeader announced))
  | _ => walk

/-- Reads a word of an import. The name in front of `::` is that of a package. -/
def readImport (walk : Walk) (home : Home) (here : Lexeme) (next : Option Lexeme) : Walk :=
  match here.symbol with
  | .semicolon => walk.resume home
  | .keyword _ | .name =>
    if isNext next .scope then
      walk.collect fun found => { found with packages := found.packages.push here.word }
    else walk
  | _ => walk

def readSkippedBlock (walk : Walk) (closer : Keyword) (home : Home) (here : Lexeme) : Walk :=
  if here.symbol = .keyword closer then walk.resume home else walk

def readSkipped (walk : Walk) (depth : Nat) (here : Lexeme) : Walk :=
  if here.symbol.isOpener then walk.goto (.skipStatement (depth + 1))
  else if here.symbol.isCloser then walk.goto (.skipStatement (depth - 1))
  else if here.symbol = .semicolon && depth = 0 then walk.backToBody
  else walk

end HdlIndex.Verilog.Walk

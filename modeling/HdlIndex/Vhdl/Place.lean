import HdlIndex.Vhdl.Element
import HdlIndex.Vhdl.Region
import HdlIndex.Symbols.HdlProcess
/-! Where a walk through a VHDL text stands. A place is a region together with what must be known
there and nowhere else: counters of brackets, expressions under way, and the place to return to. An
open process is part of the places inside of it, so that no second one can be open beside it. -/
namespace HdlIndex.Vhdl

/-- A place that declarations and skipped statements return to. -/
inductive Home where
  | entityContext
  | entityHeader
  | architectureDeclarations
  | architectureBody
  | packageDeclarations
  | packageBody
  | processDeclarations (process : HdlProcess)
deriving DecidableEq, Repr

/-- The declaration list that an interface list is filed under. -/
inductive ListKind where
  | ports
  | generics
  | componentPorts
  | componentGenerics
  | parameters
deriving DecidableEq, Repr

/-- The mode of the elements that do not give one. -/
def ListKind.defaultMode : ListKind → String
  | ports | componentPorts | parameters => "in"
  | generics | componentGenerics => ""

/-- What an interface list is part of. -/
inductive Owner where
  /-- The text holds nothing but the list. -/
  | text
  | entity
  | component (home : Home)
  | subprogram (home : Home)
deriving DecidableEq, Repr

structure InterfaceList where
  kind : ListKind
  owner : Owner
  /-- The byte offset behind the opening parenthesis. -/
  inside : Nat
deriving DecidableEq, Repr

inductive ObjectKind where
  | signal
  | constant
  | variable
  | file
deriving DecidableEq, Repr

/-- The word that declares an object. It is recorded as the object's mode. -/
def ObjectKind.text : ObjectKind → String
  | .signal => "signal"
  | .constant => "constant"
  | .variable => "variable"
  | .file => "file"

/-- A type declaration as far as it is read. -/
structure TypeText where
  name : Option Word := none
  /-- Open records, unit lists and protected types. -/
  nest : Nat := 0
  depth : Nat := 0
  expr : Capture := .idle
deriving DecidableEq, Repr

/-- A subprogram body under way. The bodies inside of it are counted and nothing in them is
recorded. -/
structure BodyNest where
  /-- Bodies that are open. -/
  units : Nat := 1
  depth : Nat := 0
  /-- The heading of a nested subprogram is under way. -/
  pending : Bool := false
deriving DecidableEq, Repr

/-- A concurrent statement as far as it is read. -/
structure Statement where
  /-- Words read of it. -/
  count : Nat := 0
  /-- The word it begins with. -/
  first : Option Word := none
  /-- The component that it instantiates, if the next word agrees. -/
  unit : Option Word := none
deriving DecidableEq, Repr

/-- A sequential statement as far as it is read. -/
structure Sequential where
  /-- Words read of it. -/
  count : Nat := 0
  /-- The index of the word it begins with among the words of the process body. -/
  first : Option Nat := none
deriving DecidableEq, Repr

inductive GenerateKind where
  | if
  | elsif
  | for
  | case
deriving DecidableEq, Repr

/-- Where a walk stands. A depth counts the parentheses that are open there. -/
inductive Place where
  | entityContext
  | libraryClause
  | useClause (home : Home)
  | configurationDeclaration
  | entityName
  | entityHeader
  | entityStatements
  | interfaceListOpen (kind : ListKind) (owner : Owner)
  | interfaceDeclaration (list : InterfaceList) (element : Element)
  | objectDeclaration (kind : ObjectKind) (home : Home) (element : Element)
  | typeDeclaration (home : Home) (type : TypeText)
  /-- The flag `named` is set once the word `of` is passed. -/
  | architectureName (named : Bool)
  | architectureHeader
  | architectureDeclarations
  | architectureBody (statement : Statement)
  | componentName (home : Home)
  | componentHeader (home : Home)
  | subprogramName (home : Home)
  | subprogramHeader (home : Home)
  | subprogramBody (home : Home) (nest : BodyNest)
  | packageName
  | packageDeclarations
  | packageBodyName
  | packageBody
  /-- Once the list is open, `depth` counts the parentheses inside of it. -/
  | processSensitivity (process : HdlProcess) (depth : Option Nat)
  | processDeclarations (process : HdlProcess)
  | processBody (process : HdlProcess) (depth : Nat) (statement : Sequential)
  | instanceHeader
  | instanceMap (depth : Nat)
  | generateHeader (kind : GenerateKind) (depth : Nat) (expr : Capture)
  | generateChoice (expr : Capture)
  | skipStatement (home : Home) (depth : Nat)
deriving DecidableEq, Repr

def Home.place : Home → Place
  | entityContext => .entityContext
  | entityHeader => .entityHeader
  | architectureDeclarations => .architectureDeclarations
  | architectureBody => .architectureBody {}
  | packageDeclarations => .packageDeclarations
  | packageBody => .packageBody
  | processDeclarations process => .processDeclarations process

/-- The process that is open at a home. -/
def Home.process? : Home → Option HdlProcess
  | processDeclarations process => some process
  | _ => none

def Owner.place : Owner → Place
  | text => .entityContext
  | entity => .entityHeader
  | component home => .componentHeader home
  | subprogram home => .subprogramHeader home

namespace Place

def region : Place → Region
  | entityContext => .entityContext
  | libraryClause => .libraryClause
  | useClause _ => .useClause
  | configurationDeclaration => .configurationDeclaration
  | entityName => .entityName
  | entityHeader => .entityHeader
  | entityStatements => .entityStatements
  | interfaceListOpen .. => .interfaceListOpen
  | interfaceDeclaration .. => .interfaceDeclaration
  | objectDeclaration .. => .objectDeclaration
  | typeDeclaration .. => .typeDeclaration
  | architectureName _ => .architectureName
  | architectureHeader => .architectureHeader
  | architectureDeclarations => .architectureDeclarations
  | architectureBody _ => .architectureBody
  | componentName _ => .componentName
  | componentHeader _ => .componentHeader
  | subprogramName _ => .subprogramName
  | subprogramHeader _ => .subprogramHeader
  | subprogramBody .. => .subprogramBody
  | packageName => .packageName
  | packageDeclarations => .packageDeclarations
  | packageBodyName => .packageBodyName
  | packageBody => .packageBody
  | processSensitivity .. => .processSensitivity
  | processDeclarations _ => .processDeclarations
  | processBody .. => .processBody
  | instanceHeader => .instanceHeader
  | instanceMap _ => .instanceMap
  | generateHeader .. => .generateHeader
  | generateChoice _ => .generateChoice
  | skipStatement .. => .skipStatement

/-- The place that a walk starts at in an entry region. -/
def ofEntry? : Region → Option Place
  | .entityContext => some .entityContext
  | .architectureDeclarations => some .architectureDeclarations
  | .architectureBody => some (.architectureBody {})
  | .packageDeclarations => some .packageDeclarations
  | .genericList => some (.interfaceDeclaration ⟨.generics, .text, 0⟩ {})
  | .portList => some (.interfaceDeclaration ⟨.ports, .text, 0⟩ {})
  | _ => none

/-- The regions that a scan may start in are those with a place for it. -/
theorem isEntry_iff (region : Region) :
    region.isEntry = true ↔ ∃ place, ofEntry? region = some place := by
  cases region <;> simp [Region.isEntry, Region.entries, ofEntry?]

def process? : Place → Option HdlProcess
  | processSensitivity process _ | processDeclarations process | processBody process .. =>
    some process
  | useClause home | interfaceListOpen _ (.component home) | interfaceListOpen _ (.subprogram home)
  | interfaceDeclaration ⟨_, .component home, _⟩ _ | interfaceDeclaration ⟨_, .subprogram home, _⟩ _
  | objectDeclaration _ home _ | typeDeclaration home _ | componentName home | componentHeader home
  | subprogramName home | subprogramHeader home | subprogramBody home _ | skipStatement home _ =>
    home.process?
  | _ => none

/-- Offers blanks and string contents to the expression under way. -/
def absorb (place : Place) (token : Token) : Place :=
  match place with
  | interfaceDeclaration list element =>
    .interfaceDeclaration list { element with expr := element.expr.absorb token }
  | objectDeclaration kind home element =>
    .objectDeclaration kind home { element with expr := element.expr.absorb token }
  | typeDeclaration home type => .typeDeclaration home { type with expr := type.expr.absorb token }
  | generateHeader kind depth expr => .generateHeader kind depth (expr.absorb token)
  | generateChoice expr => .generateChoice (expr.absorb token)
  | place => place

end Place

end HdlIndex.Vhdl

import HdlIndex.Vhdl.Walk.Basic
/-! The walk outside of statements: context clauses, unit headers, and the declarations of every
declarative part. -/
namespace HdlIndex.Vhdl.Walk

def isNext (next : Option Lexeme) (word : Keyword) : Bool :=
  next.any (·.symbol = .keyword word)

/-- Reads the first word of an item of a declarative part. Words that begin no declaration, and the
qualifiers `shared`, `pure` and `impure`, are passed over. -/
def readItem (walk : Walk) (home : Home) (here : Lexeme) : Walk :=
  match here.symbol with
  | .keyword .signal => walk.goto (.objectDeclaration .signal home {})
  | .keyword .constant => walk.goto (.objectDeclaration .constant home {})
  | .keyword .variable => walk.goto (.objectDeclaration .variable home {})
  | .keyword .file => walk.goto (.objectDeclaration .file home {})
  | .keyword .type | .keyword .subtype => walk.goto (.typeDeclaration home {})
  | .keyword .component => walk.goto (.componentName home)
  | .keyword .function | .keyword .procedure =>
    (walk.collect fun found =>
      { found with subprogramKinds := found.subprogramKinds.push here.text }).goto
      (.subprogramName home)
  | .keyword .use => walk.goto (.useClause home)
  | .keyword .attribute | .keyword .alias | .keyword .disconnect | .keyword .group
  | .keyword .for => walk.skip home
  | _ => walk.goto home.place

def readContext (walk : Walk) (here : Lexeme) (next : Option Lexeme) : Walk :=
  match here.symbol with
  | .keyword .library => walk.goto .libraryClause
  | .keyword .use => walk.goto (.useClause .entityContext)
  | .keyword .entity => walk.goto .entityName
  | .keyword .architecture => walk.goto (.architectureName false)
  | .keyword .package => walk.goto (if isNext next .body then .packageBodyName else .packageName)
  | .keyword .configuration => walk.goto .configurationDeclaration
  | .keyword .context => walk.skip .entityContext
  | _ => walk

def readLibrary (walk : Walk) (here : Lexeme) : Walk :=
  match here.symbol with
  | .semicolon => walk.goto .entityContext
  | .keyword _ | .name =>
    walk.collect fun found => { found with libraries := found.libraries.push here.word }
  | _ => walk

/-- The package of a selected name such as `lib.pkg.all`: its second part, unless that is `all`. -/
def selectedPackage? (selected : Word) : Option Word :=
  match selected.text.toList.dropWhile (· != '.') with
  | [] => none
  | _ :: rest =>
    let package := baseName (String.ofList rest)
    let offset := selected.span.start + selected.base.utf8ByteSize + 1
    if package = "all" then none else some ⟨package, ⟨offset, offset + package.utf8ByteSize⟩⟩

def readUse (walk : Walk) (home : Home) (here : Lexeme) : Walk :=
  match here.symbol with
  | .semicolon => walk.goto home.place
  | .keyword _ | .name =>
    match selectedPackage? here.word with
    | some package =>
      walk.collect fun found => { found with usedPackages := found.usedPackages.push package }
    | none => walk
  | _ => walk

/-- Reads a word of a configuration. Its blocks close with `end for`. -/
def readConfiguration (walk : Walk) (here : Lexeme) (next : Option Lexeme) : Walk :=
  match here.symbol with
  | .keyword .end => if isNext next .for then walk else walk.skip .entityContext
  | _ => walk

def readEntityName (walk : Walk) (here : Lexeme) : Walk :=
  if here.symbol.isWord then
    ((walk.collect fun found => { found with entities := found.entities.push here.word }).note
      (.entityFound here.text)).goto .entityHeader
  else walk

def readEntityHeader (walk : Walk) (here : Lexeme) : Walk :=
  match here.symbol with
  | .keyword .generic => walk.goto (.interfaceListOpen .generics .entity)
  | .keyword .port => walk.goto (.interfaceListOpen .ports .entity)
  | .keyword .begin => walk.goto .entityStatements
  | .keyword .end => walk.skip .entityContext
  | _ => walk.readItem .entityHeader here

def readEntityStatements (walk : Walk) (here : Lexeme) : Walk :=
  match here.symbol with
  | .keyword .end => walk.skip .entityContext
  | _ => walk

def readListOpen (walk : Walk) (kind : ListKind) (owner : Owner) (here : Lexeme) : Walk :=
  match here.symbol with
  | .parenOpen => walk.goto (.interfaceDeclaration ⟨kind, owner, here.span.stop⟩ {})
  | .semicolon => walk.goto owner.place
  | _ => walk

def readInterface (walk : Walk) (list : InterfaceList) (element : Element) (here : Lexeme) : Walk :=
  match element.read true here with
  | .stay element => walk.goto (.interfaceDeclaration list element)
  | .name word => walk.collect (·.modifyList list.kind (·.pushName word))
  | .done => (walk.completeElement list element).goto (.interfaceDeclaration list {})
  | .close => (walk.completeElement list element).closeList list here.span.start

def readObject (walk : Walk) (kind : ObjectKind) (home : Home) (element : Element)
    (here : Lexeme) : Walk :=
  match element.read false here with
  | .stay element => walk.goto (.objectDeclaration kind home element)
  | .name word => walk.collect fun found => { found with objects := found.objects.pushName word }
  | .done | .close => (walk.completeObject kind element).goto home.place

/-- Reads a word of a type declaration. The definition is everything from `is` to the semicolon
outside of parentheses and of records, unit lists and protected types. -/
def readType (walk : Walk) (home : Home) (type : TypeText) (here : Lexeme)
    (before : Option Lexeme) : Walk :=
  let stay (type : TypeText) := walk.goto (.typeDeclaration home type)
  let pushed := { type with expr := type.expr.push here.token }
  match type.name with
  | none => if here.symbol.isWord then stay { type with name := some here.word } else walk
  | some name =>
    match here.symbol with
    | .keyword .is =>
      if type.expr.active then stay pushed else stay { type with expr := .fresh }
    | .parenOpen => stay { pushed with depth := type.depth + 1 }
    | .parenClose => stay { pushed with depth := type.depth - 1 }
    | .keyword .record | .keyword .units | .keyword .protected =>
      stay { pushed with nest := if isNext before .end then type.nest - 1 else type.nest + 1 }
    | .semicolon =>
      if type.depth = 0 && type.nest = 0 then
        (walk.collect fun found =>
          { found with types := found.types.push ⟨name, type.expr.text⟩ }).goto home.place
      else stay pushed
    | _ => stay pushed

/-- Reads the name of an architecture, and then that of its entity. -/
def readArchitectureName (walk : Walk) (named : Bool) (here : Lexeme) : Walk :=
  match here.symbol with
  | .keyword .of => walk.goto (.architectureName true)
  | .keyword .is => walk.goto .architectureDeclarations
  | .keyword _ | .name =>
    if named then
      (walk.collect fun found =>
        { found with architectureEntities := found.architectureEntities.push here.word }).goto
        .architectureHeader
    else
      walk.collect fun found => { found with architectures := found.architectures.push here.word }
  | _ => walk

def readArchitectureHeader (walk : Walk) (here : Lexeme) : Walk :=
  match here.symbol with
  | .keyword .is => walk.goto .architectureDeclarations
  | _ => walk

def readArchitectureDeclarations (walk : Walk) (here : Lexeme) : Walk :=
  match here.symbol with
  | .keyword .begin => walk.nextStatement
  | _ => walk.readItem .architectureDeclarations here

def readComponentName (walk : Walk) (home : Home) (here : Lexeme) : Walk :=
  if here.symbol.isWord then
    (walk.collect fun found => { found with components := found.components.push here.word }).goto
      (.componentHeader home)
  else walk

def readComponentHeader (walk : Walk) (home : Home) (here : Lexeme) : Walk :=
  match here.symbol with
  | .keyword .generic => walk.goto (.interfaceListOpen .componentGenerics (.component home))
  | .keyword .port => walk.goto (.interfaceListOpen .componentPorts (.component home))
  | .keyword .end => walk.skip home
  | _ => walk

/-- Reads the name of a subprogram. An operator in quotes is no word, so that the first word behind
it is taken for the name. -/
def readSubprogramName (walk : Walk) (home : Home) (here : Lexeme) : Walk :=
  if here.symbol.isWord then
    (walk.collect fun found => { found with subprograms := found.subprograms.push here.word }).goto
      (.subprogramHeader home)
  else walk

/-- Reads a word of a subprogram's heading. An instantiation has no body of its own. -/
def readSubprogramHeader (walk : Walk) (home : Home) (here : Lexeme) (next : Option Lexeme) :
    Walk :=
  match here.symbol with
  | .parenOpen =>
    walk.goto (.interfaceDeclaration ⟨.parameters, .subprogram home, here.span.stop⟩ {})
  | .semicolon => walk.goto home.place
  | .keyword .is => if isNext next .new then walk.skip home else walk.goto (.subprogramBody home {})
  | _ => walk

/-- The word after an `end` lets it close a design unit or a subprogram. -/
def closesUnit (next : Option Lexeme) : Bool :=
  match next with
  | some ⟨_, .keyword word⟩ => ! isCompoundEnd word
  | _ => true

/-- Passes over a subprogram body, counting the bodies inside of it. -/
def readSubprogramBody (walk : Walk) (home : Home) (nest : BodyNest) (here : Lexeme)
    (before next : Option Lexeme) : Walk :=
  let stay (nest : BodyNest) := walk.goto (.subprogramBody home nest)
  match here.symbol with
  | .keyword .function | .keyword .procedure =>
    if isNext before .end then walk else stay { nest with pending := true }
  | .keyword .is =>
    if nest.pending then stay { nest with pending := false, units := nest.units + 1 } else walk
  | .parenOpen => stay { nest with depth := nest.depth + 1 }
  | .parenClose => stay { nest with depth := nest.depth - 1 }
  | .semicolon => if nest.depth = 0 then stay { nest with pending := false } else walk
  | .keyword .end =>
    if closesUnit next then
      if nest.units ≤ 1 then walk.skip home else stay { nest with units := nest.units - 1 }
    else walk
  | _ => walk

/-- Reads the name of a package. Of several packages the first names the text. -/
def readPackageName (walk : Walk) (here : Lexeme) (next : Option Lexeme) : Walk :=
  match here.symbol with
  | .keyword .is =>
    if isNext next .new then walk.skip .entityContext else walk.goto .packageDeclarations
  | .keyword _ | .name =>
    if walk.found.packages.isEmpty then
      walk.collect fun found => { found with packages := found.packages.push here.word }
    else walk
  | _ => walk

/-- Reads the name of a package body, which is not recorded. -/
def readPackageBodyName (walk : Walk) (here : Lexeme) : Walk :=
  match here.symbol with
  | .keyword .is => walk.goto .packageBody
  | _ => walk

def readPackage (walk : Walk) (home : Home) (here : Lexeme) : Walk :=
  match here.symbol with
  | .keyword .end => walk.skip .entityContext
  | _ => walk.readItem home here

def readSkipped (walk : Walk) (home : Home) (depth : Nat) (here : Lexeme) : Walk :=
  match here.symbol with
  | .parenOpen => walk.goto (.skipStatement home (depth + 1))
  | .parenClose => walk.goto (.skipStatement home (depth - 1))
  | .semicolon => if depth = 0 then walk.goto home.place else walk
  | _ => walk

end HdlIndex.Vhdl.Walk

import HdlIndex.Verilog.Walk.Header
import HdlIndex.Verilog.Walk.Always
/-! The walk through a module's body: its items, instances, and generate constructs with the
conditions they put their contents under. -/
namespace HdlIndex.Verilog.Walk

/-- The innermost condition is that of a case whose next item begins here. -/
def awaitsChoice (walk : Walk) : Bool :=
  match walk.frames with
  | [] => false
  | top :: _ => top.selector.isSome && top.awaiting && top.owner = walk.blocks

/-- The word closes or opens a block, so that no choice begins with it. -/
def isBlockWord (symbol : Symbol) : Bool :=
  match symbol with
  | .keyword .end | .keyword .endcase | .keyword .endgenerate | .keyword .endmodule
  | .keyword .begin => true
  | _ => false

/-- Reads a word of the choice of a case item. The colon outside of brackets ends it. -/
def readChoice (walk : Walk) (depth : Nat) (expr : Capture) (here : Lexeme) : Walk :=
  let stay (depth : Nat) := walk.goto (.generateChoice depth (expr.push here.token))
  if here.symbol = .colon && depth = 0 then
    let choice := expr.text
    let frames :=
      match walk.frames with
      | [] => []
      | top :: rest =>
        let condition :=
          match top.selector with
          | some selector => if choice = "default" then choice else selector ++ " == " ++ choice
          | none => choice
        { top with condition, awaiting := false } :: rest
    { walk with frames, place := .moduleBody }
  else if here.symbol.isOpener then stay (depth + 1)
  else if here.symbol.isCloser then stay (depth - 1)
  else stay depth

/-- Closes a block of module items. The conditions that it kept in force end with it. -/
def closeBlock (walk : Walk) : Walk :=
  let walk := { walk with blocks := walk.blocks - 1 }
  (walk.leaveFrames fun frame =>
    frame.selector.isNone && ! frame.single && walk.blocks < frame.owner).endItem

/-- Closes the innermost case, with everything inside of it. Without a case there is nothing to
close. -/
def closeCase (walk : Walk) : Walk :=
  match walk.frames.dropWhile (·.selector.isNone) with
  | [] => walk.endItem
  | _ :: outer => { walk with frames := outer }.endItem

/-- Closes a generate region, with every condition inside of it. -/
def closeGenerate (walk : Walk) : Walk :=
  let base := walk.bases.headD 0
  { walk with
    bases := walk.bases.tail
    frames := walk.frames.drop (walk.frames.length - base) }

def beginDeclaration (walk : Walk) (kind : ItemKind) (here : Lexeme) : Walk :=
  walk.readDeclaration { kind } here

def beginGenerate (walk : Walk) (kind : GenerateKind) : Walk :=
  walk.goto (.generateHeader kind 0 .idle)

/-- Reads an `else`. Its condition is that of the `if` before it turned round; an `if` that follows
adds its own. An `if` that ended in an earlier module is not told apart. -/
def readElse (walk : Walk) (next : Option Lexeme) : Walk :=
  let condition := walk.pendingElse.getD ""
  let walk := { walk with pendingElse := none }
  if isNext next (.keyword .if) then { walk with chained := some condition }
  else walk.enterFrame condition "" next

/-- Reads a reserved word that begins or ends a module item. Any other one begins a statement that
is passed over. -/
def readItemKeyword (walk : Walk) (word : Keyword) (here : Lexeme) (next : Option Lexeme) : Walk :=
  match word with
  | .begin => { walk with blocks := walk.blocks + 1 }.expectLabel true next
  | .end => walk.closeBlock.expectLabel false next
  | .endcase => walk.closeCase
  | .generate => { walk with bases := walk.frames.length :: walk.bases }
  | .endgenerate => walk.closeGenerate
  | .endmodule => { walk with frames := [], bases := [], blocks := 0 }.goto .moduleContext
  | .input | .output | .inout => walk.beginDeclaration .bodyPort here
  | .parameter => walk.beginDeclaration .bodyParameter here
  | .localparam => walk.beginDeclaration .bodyLocalparam here
  | .import => walk.goto (.importClause .moduleBody)
  | .always | .alwaysFf | .alwaysLatch | .alwaysComb | .initial | .final =>
    walk.beginAlways word here
  | .function => walk.goto (.skipBlock .endfunction .moduleBody)
  | .task => walk.goto (.skipBlock .endtask .moduleBody)
  | .if => walk.beginGenerate .if
  | .for => walk.beginGenerate .for
  | .case => walk.beginGenerate .case
  | .else => walk.readElse next
  | word =>
    if isDataType word then walk.beginDeclaration .bodyNet here else walk.goto (.skipStatement 0)

/-- Reads a word between the items of a module's body. Continuous assignments, type definitions and
whatever else is not recorded are passed over. -/
def readItem (walk : Walk) (here : Lexeme) (next : Option Lexeme) : Walk :=
  if walk.awaitsChoice && ! isBlockWord here.symbol then walk.readChoice 0 .fresh here
  else match here.symbol with
    | .semicolon => walk.endItem
    | .keyword word => walk.readItemKeyword word here next
    | .name => walk.goto (.instanceHeader { type := here.word } 0)
    | _ => walk.goto (.skipStatement 0)

/-- Puts the condition of a finished header in force. -/
def enterGenerate (walk : Walk) (kind : GenerateKind) (header : String) (next : Option Lexeme) :
    Walk :=
  match kind with
  | .if =>
    let lead := match walk.chained with
      | some earlier => earlier ++ " && "
      | none => ""
    let condition := if walk.chained.isSome then lead ++ "(" ++ header ++ ")" else header
    { walk with chained := none }.enterFrame condition (lead ++ "!(" ++ header ++ ")") next
  | .for => walk.enterFrame ("for (" ++ header ++ ")") "" next
  | .case =>
    let frame : Frame :=
      { condition := "", otherwise := "", owner := walk.blocks, single := false
        selector := some header, awaiting := true }
    { walk with frames := frame :: walk.frames }

/-- Reads a word of a generate header. What stands in front of its parenthesis is passed over. -/
def readGenerate (walk : Walk) (kind : GenerateKind) (depth : Nat) (expr : Capture) (here : Lexeme)
    (next : Option Lexeme) : Walk :=
  let stay (depth : Nat) := walk.goto (.generateHeader kind depth (expr.push here.token))
  if here.symbol = .parenOpen && ! expr.active then walk.goto (.generateHeader kind 1 .fresh)
  else if here.symbol.isOpener then stay (depth + 1)
  else if here.symbol = .parenClose && depth = 1 then
    (walk.enterGenerate kind expr.text next).goto .moduleBody
  else if here.symbol.isCloser then stay (depth - 1)
  else if expr.active then stay depth
  else walk

def commitInstance (walk : Walk) (type name : Word) : Walk :=
  let walk := walk.note (.instanceFound name.text type.text)
  walk.collect fun found => { found with instances := found.instances.push ⟨name, type⟩ }

/-- Reads a name of a statement that begins with one. A name behind `::` belongs to the type. -/
def readInstanceName (walk : Walk) (statement : Instantiation) (here : Lexeme) : Walk :=
  if statement.qualifies then
    let type : Word :=
      ⟨statement.type.text ++ "::" ++ here.text, statement.type.span.through here.span⟩
    walk.goto (.instanceHeader { statement with type, qualifies := false } 0)
  else match statement.name with
    | none => walk.goto (.instanceHeader { statement with name := some here.word } 0)
    | some _ => walk

/-- Reads a word of a statement that begins with a name. Behind two names an opening parenthesis
makes it an instance, and punctuation a declaration of a named type. -/
def readInstance (walk : Walk) (statement : Instantiation) (depth : Nat) (here : Lexeme) : Walk :=
  let stay (statement : Instantiation) (depth : Nat) := walk.goto (.instanceHeader statement depth)
  if 0 < depth then
    match here.symbol with
    | .parenOpen => stay statement (depth + 1)
    | .parenClose => stay statement (depth - 1)
    | _ => walk
  else match here.symbol, statement.name with
    | .hash, _ => stay { statement with parameters := true } 0
    | .parenOpen, some name =>
      (walk.commitInstance statement.type name).goto
        (.instanceMap { statement with name := none } 1)
    | .parenOpen, none =>
      if statement.parameters then stay { statement with parameters := false } 1
      else walk.goto (.skipStatement 1)
    | .scope, _ => stay { statement with qualifies := true } 0
    | .semicolon, some name | .comma, some name | .equals, some name | .bracketOpen, some name =>
      walk.readDeclaration { kind := .bodyNet, type := some statement.type, name := some name } here
    | .semicolon, none => walk.backToBody
    | .name, _ => walk.readInstanceName statement here
    | _, _ => walk.goto (.skipStatement 0)

/-- Reads a word of an instance's connections. Behind a comma another instance of the same module
follows. -/
def readMap (walk : Walk) (statement : Instantiation) (depth : Nat) (here : Lexeme) : Walk :=
  if here.symbol.isOpener then walk.goto (.instanceMap statement (depth + 1))
  else if here.symbol.isCloser then walk.goto (.instanceMap statement (depth - 1))
  else match here.symbol, depth with
    | .comma, 0 => walk.goto (.instanceHeader statement 0)
    | .semicolon, 0 => walk.backToBody
    | _, _ => walk

end HdlIndex.Verilog.Walk

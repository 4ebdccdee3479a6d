import HdlIndex.Vhdl.Walk.Declarative
/-! The walk through the statements of an architecture: labels, instances, and generate statements
with the conditions they put their contents under. -/
namespace HdlIndex.Vhdl.Walk

/-- Records a word as the label of the statement that follows. -/
def takeLabel (walk : Walk) (word : Option Word) : Walk :=
  match word with
  | none => walk
  | some word =>
    { walk with label := some word, found.labels := walk.found.labels.push word }

/-- Begins a process at its label, or at its first word. -/
def beginProcess (walk : Walk) (here : Lexeme) : Walk :=
  let offset := (walk.label.map (·.span.start)).getD here.span.start
  let process := HdlProcess.starting (walk.label.map (·.text)) offset
  { walk with label := none, place := .processSensitivity process none }

def beginGenerate (walk : Walk) (kind : GenerateKind) : Walk :=
  walk.goto (.generateHeader kind 0 .fresh)

/-- Puts the last alternative in force, which holds where no other one does. -/
def beginElse (walk : Walk) : Walk :=
  { walk.modifyGenerate fun top =>
      { top with
        condition := "not (" ++ " or ".intercalate top.alternatives ++ ")"
        begun := false } with
    label := none }

/-- Reads the `end` that a statement begins with. It closes a generate statement or a block that it
names, otherwise an alternative that has an `end` of its own, otherwise the architecture, and with
that every generate statement that is still open. -/
def readEnd (walk : Walk) (next : Option Lexeme) : Walk :=
  if isNext next .generate then
    { walk with generates := walk.generates.tail }.skip .architectureBody
  else if isNext next .block then walk.skip .architectureBody
  else if walk.generates.head?.any (·.begun) then
    (walk.modifyGenerate ({ · with begun := false })).skip .architectureBody
  else { walk with generates := [] }.skip .entityContext

/-- The word may name a component that a labelled statement instantiates: a map follows it, or the
end of the statement. -/
def isUnitName (walk : Walk) (here : Lexeme) (next : Option Lexeme) : Bool :=
  walk.label.isSome && here.symbol = .name &&
    (isNext next .generic || isNext next .port || next.any (·.symbol = .semicolon))

/-- Counts a word that decides nothing. -/
def readOther (walk : Walk) (statement : Statement) (here : Lexeme) (next : Option Lexeme) :
    Walk :=
  let atStart := statement.count = 0
  let unit := if atStart && walk.isUnitName here next then some here.word else none
  let first := if atStart && here.symbol.isWord then some here.word else statement.first
  walk.goto (.architectureBody { count := statement.count + 1, first, unit })

/-- Reads the first word of a statement. Declarations are read here, too, because blocks and
generate statements may begin with them. -/
def readFirst (walk : Walk) (here : Lexeme) (next : Option Lexeme) : Walk :=
  match here.symbol with
  | .keyword .process => walk.beginProcess here
  | .keyword .entity | .keyword .component | .keyword .configuration => walk.goto .instanceHeader
  | .keyword .if => { walk with label := none }.beginGenerate .if
  | .keyword .for => { walk with label := none }.beginGenerate .for
  | .keyword .case => { walk with label := none }.beginGenerate .case
  | .keyword .elsif => walk.beginGenerate .elsif
  | .keyword .else => walk.beginElse.nextStatement
  | .keyword .when =>
    if walk.generates.head?.any (·.selector.isSome) then
      (walk.modifyGenerate ({ · with begun := false })).goto (.generateChoice .fresh)
    else walk.readOther {} here next
  | .keyword .generate => walk.nextStatement
  | .keyword .signal | .keyword .constant | .keyword .shared | .keyword .variable
  | .keyword .file | .keyword .type | .keyword .subtype | .keyword .function
  | .keyword .procedure | .keyword .pure | .keyword .impure | .keyword .attribute
  | .keyword .alias => walk.readItem .architectureBody here
  | .keyword .begin => (walk.modifyGenerate ({ · with begun := true })).nextStatement
  | .keyword .end => walk.readEnd next
  | _ => walk.readOther {} here next

/-- Reads a later word of a statement. A process may be postponed. -/
def readLater (walk : Walk) (statement : Statement) (here : Lexeme) (next : Option Lexeme) :
    Walk :=
  match here.symbol with
  | .colon =>
    if statement.count = 1 then (walk.takeLabel statement.first).nextStatement
    else walk.readOther statement here next
  | .keyword .process =>
    if statement.count = 1 && statement.first.any (·.text = "postponed") then
      walk.beginProcess here
    else walk.readOther statement here next
  | _ => walk.readOther statement here next

/-- Reads a word of an architecture's statements. A component name that was read last is settled
first: a map or the end of the statement makes it an instance. -/
def readStatement (walk : Walk) (statement : Statement) (here : Lexeme) (next : Option Lexeme) :
    Walk :=
  match here.symbol, statement.unit with
  | .keyword .generic, some unit | .keyword .port, some unit =>
    (walk.commitInstance unit "").goto (.instanceMap 0)
  | .semicolon, some unit => (walk.commitInstance unit "").nextStatement
  | .semicolon, none => { walk with label := none }.nextStatement
  | .keyword .block, _ => { walk with label := none }.goto .architectureDeclarations
  | _, _ =>
    if statement.count = 0 then walk.readFirst here next
    else walk.readLater statement here next

/-- Reads the name of an instantiated unit. The library is what stands before its last point. -/
def readInstance (walk : Walk) (here : Lexeme) : Walk :=
  if here.symbol.isWord then
    let chars := here.text.toList.reverse
    let unit := String.ofList (chars.takeWhile (· != '.')).reverse
    let library := String.ofList ((chars.dropWhile (· != '.')).drop 1).reverse
    let start := here.span.stop - unit.utf8ByteSize
    (walk.commitInstance ⟨unit, ⟨start, here.span.stop⟩⟩ library).goto (.instanceMap 0)
  else walk

def readMap (walk : Walk) (depth : Nat) (here : Lexeme) : Walk :=
  match here.symbol with
  | .parenOpen => walk.goto (.instanceMap (depth + 1))
  | .parenClose => walk.goto (.instanceMap (depth - 1))
  | .semicolon => if depth = 0 then walk.nextStatement else walk
  | _ => walk

/-- Puts the condition of a finished header in force. -/
def enterGenerate (walk : Walk) (kind : GenerateKind) (condition : String) : Walk :=
  match kind with
  | .if =>
    { walk with
      generates := { condition, alternatives := [condition] } :: walk.generates }
  | .elsif =>
    match walk.generates with
    | [] => { walk with generates := [{ condition }] }
    | top :: rest =>
      let top :=
        { top with condition, alternatives := top.alternatives ++ [condition], begun := false }
      { walk with generates := top :: rest }
  | .for => { walk with generates := { condition := "for " ++ condition } :: walk.generates }
  | .case =>
    { walk with generates := { condition := "", selector := some condition } :: walk.generates }

/-- Reads a word of a generate header, up to `generate` outside of parentheses. -/
def readGenerate (walk : Walk) (kind : GenerateKind) (depth : Nat) (expr : Capture)
    (here : Lexeme) : Walk :=
  let stay (depth : Nat) := walk.goto (.generateHeader kind depth (expr.push here.token))
  match here.symbol with
  | .parenOpen => stay (depth + 1)
  | .parenClose => stay (depth - 1)
  | .keyword .generate =>
    if depth = 0 then
      let walk := walk.enterGenerate kind expr.text
      (walk.note (.conditionsNow walk.conditions)).nextStatement
    else stay depth
  | _ => stay depth

/-- Reads a word of the choice of a generate alternative. -/
def readChoice (walk : Walk) (expr : Capture) (here : Lexeme) : Walk :=
  match here.symbol with
  | .arrow =>
    (walk.modifyGenerate fun top =>
      { top with
        condition := match top.selector with
          | some selector => selector ++ " = " ++ expr.text
          | none => expr.text }).nextStatement
  | _ => walk.goto (.generateChoice (expr.push here.token))

end HdlIndex.Vhdl.Walk

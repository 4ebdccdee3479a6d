import HdlIndex.Verilog.Walk.Basic
/-! The walk through always blocks: the event control, and the names of the statements. Initial and
final blocks are walked alike without being recorded. -/
namespace HdlIndex.Verilog.Walk

def enterBlock (walk : Walk) (clocked : Bool) (process : Option HdlProcess) : Walk :=
  walk.goto (.alwaysBlock clocked { process })

/-- Begins an always, initial or final block. The blocks of combinational logic and of latches are
sensitive to everything that they read. -/
def beginAlways (walk : Walk) (word : Keyword) (here : Lexeme) : Walk :=
  let process := HdlProcess.starting none here.span.start
  match word with
  | .initial | .final => walk.enterBlock false none
  | .alwaysComb => walk.enterBlock false (some { process with all := true })
  | .alwaysLatch => walk.goto (.alwaysHeader { process with all := true })
  | _ => walk.goto (.alwaysHeader process)

/-- Reads a word of an event control. An event without parentheses ends it. A single edge makes the
whole block clocked. -/
def readSensitivity (walk : Walk) (process : HdlProcess) (depth : Nat) (here : Lexeme) : Walk :=
  let listed (process : HdlProcess) :=
    if depth = 0 then walk.enterBlock false (some process)
    else walk.goto (.sensitivityList process depth)
  match here.symbol with
  | .parenOpen => walk.goto (.sensitivityList process (depth + 1))
  | .parenClose =>
    if depth ≤ 1 then walk.enterBlock process.clocked (some process)
    else walk.goto (.sensitivityList process (depth - 1))
  | .star => listed { process with all := true }
  | .keyword .posedge | .keyword .negedge =>
    walk.goto (.sensitivityList { process with clocked := true } depth)
  | .name => listed (process.pushSensitivity here.word)
  | _ => walk

/-- Ends a statement that no block is open around. It ends the always block, unless an `else` comes
next. Any `else` is taken to continue the statement, also one that belongs to a generate construct
around the block. -/
def endStatement (walk : Walk) (clocked : Bool) (block : Block) (here : Lexeme)
    (next : Option Lexeme) : Walk :=
  if isNext next (.keyword .else) then walk.goto (.alwaysBlock clocked block)
  else match block.process with
    | some process => (walk.commitProcess process here.span.stop).backToBody
    | none => walk.backToBody

def recordClocked (found : Findings) (target : Word) (conditions : List String) : Findings :=
  { found with clocked := found.clocked.record target.stem conditions }

/-- Reads an assignment operator. The names in front of it become targets, and under a clock those
of a non-blocking assignment become clocked signals. -/
def readAssignment (walk : Walk) (clocked : Bool) (block : Block) (nonBlocking : Bool) : Walk :=
  let targets := block.statement.targets
  let counted :=
    { block with statement := { block.statement with count := block.statement.count + 1 } }
  match targets, block.process with
  | [], _ => walk.goto (.alwaysBlock clocked block)
  | _, none => walk.goto (.alwaysBlock clocked counted)
  | targets, some process =>
    let marked := targets.foldl (fun process index => process.mark index .target) process
    let walk := walk.goto (.alwaysBlock clocked { counted with process := some marked })
    if clocked && nonBlocking then
      let words := targets.filterMap process.bodyWord?
      walk.collect (words.foldl (recordClocked · · walk.conditions) ·)
    else walk

/-- Reads a word that is no punctuation of statements. A name is a read until an assignment makes it
a target. -/
def readBodyWord (block : Block) (here : Lexeme) : Block :=
  let statement := block.statement
  let counted := { statement with count := statement.count + 1 }
  match here.symbol, block.process with
  | .name, some process =>
    let index := process.body.size
    let statement :=
      if statement.count = 0 then { counted with first := some index }
      else if statement.concat = some block.depth then
        { counted with concatNames := statement.concatNames.push index }
      else counted
    { block with process := some (process.pushBody here.word .read), statement }
  | _, _ => { block with statement := counted }

/-- Reads an opening bracket. A parenthesis may open the header of a condition or a loop, and a
brace the concatenation that a statement begins with. -/
def readOpener (block : Block) (here : Lexeme) : Block :=
  let block :=
    if here.symbol = .parenOpen && block.headerPending && block.depth = 0 then
      { block with headerPending := false, headerDepth := some 0 }
    else block
  let depth := block.depth + 1
  let statement := block.statement
  let concat :=
    if here.symbol = .braceOpen && statement.count = 0 then some depth else statement.concat
  { block with depth, statement := { statement with count := statement.count + 1, concat } }

/-- Reads a closing bracket. Behind a header the next statement begins. -/
def readCloser (block : Block) (here : Lexeme) : Block :=
  let statement := block.statement
  let concat :=
    if here.symbol = .braceClose && statement.concat = some block.depth then none
    else statement.concat
  let depth := block.depth - 1
  if block.headerDepth = some depth then
    { block with depth, headerDepth := none, statement := {} }
  else { block with depth, statement := { statement with concat } }

def announceHeader (block : Block) : Block :=
  { block with
    headerPending := true
    statement := { block.statement with count := block.statement.count + 1 } }

/-- Reads a reserved word outside of brackets. A `case` opens a block and announces a header; the
word that closes the outermost block ends the statement. -/
def readBlockKeyword (walk : Walk) (clocked : Bool) (block : Block) (word : Keyword) (here : Lexeme)
    (next : Option Lexeme) : Walk :=
  let stay (block : Block) := walk.goto (.alwaysBlock clocked block)
  match word with
  | .begin | .fork =>
    (stay { block with nest := block.nest + 1, statement := {} }).expectLabel true next
  | .if | .for | .while | .repeat | .foreach => stay (announceHeader block)
  | .else => stay { block with statement := {} }
  | word =>
    if isBlockOpen word then stay (announceHeader { block with nest := block.nest + 1 })
    else if isBlockClose word then
      let block := { block with nest := block.nest - 1, statement := {} }
      if block.nest = 0 then walk.endStatement clocked block here next
      else (stay block).expectLabel false next
    else stay (readBodyWord block here)

/-- Reads a word of a block's statements. Inside of brackets no operator assigns and no word opens
or closes a block. -/
def readBlock (walk : Walk) (clocked : Bool) (block : Block) (here : Lexeme)
    (next : Option Lexeme) : Walk :=
  let stay (block : Block) := walk.goto (.alwaysBlock clocked block)
  if here.symbol.isOpener then stay (readOpener block here)
  else if here.symbol.isCloser then stay (readCloser block here)
  else if 0 < block.depth then stay (readBodyWord block here)
  else match here.symbol with
    | .semicolon =>
      let block := { block with ternary := 0, statement := {} }
      if block.nest = 0 then walk.endStatement clocked block here next else stay block
    | .keyword word => walk.readBlockKeyword clocked block word here next
    | .question => stay { block with ternary := block.ternary + 1 }
    | .colon =>
      match block.ternary with
      | 0 => stay { block with statement := {} }
      | ternary + 1 => stay { block with ternary }
    | .drives => walk.readAssignment clocked block true
    | .equals => walk.readAssignment clocked block false
    | .event | .hash => stay block
    | _ => stay (readBodyWord block here)

/-- Reads a word in front of an event control. Without one the statements begin at once. -/
def readAlwaysHeader (walk : Walk) (process : HdlProcess) (here : Lexeme) (next : Option Lexeme) :
    Walk :=
  match here.symbol with
  | .event => walk.goto (.sensitivityList process 0)
  | _ => walk.readBlock false { process := some process } here next

end HdlIndex.Verilog.Walk

import HdlIndex.Vhdl.Walk.Declarative
/-! The walk through processes: the sensitivity list, and the names of the body. -/
namespace HdlIndex.Vhdl.Walk

/-- Reads a word between `process` and the declarations. Indices and slices of a listed signal are
passed over. -/
def readSensitivity (walk : Walk) (process : HdlProcess) (depth : Option Nat) (here : Lexeme) :
    Walk :=
  let stay (depth : Nat) := walk.goto (.processSensitivity process (some depth))
  match depth, here.symbol with
  | none, .parenOpen => stay 0
  | none, .keyword .is => walk.goto (.processDeclarations process)
  | none, .keyword .begin => walk.goto (.processBody process 0 {})
  | none, _ => walk.readItem (.processDeclarations process) here
  | some depth, .parenOpen => stay (depth + 1)
  | some (depth + 1), .parenClose => stay depth
  | some 0, .parenClose => walk.goto (.processDeclarations process)
  | some (_ + 1), _ => walk
  | some 0, .keyword .all => walk.goto (.processSensitivity { process with all := true } (some 0))
  | some 0, .keyword _ | some 0, .name =>
    walk.goto (.processSensitivity (process.pushSensitivity here.word) (some 0))
  | some 0, _ => walk

def readProcessDeclarations (walk : Walk) (process : HdlProcess) (here : Lexeme) : Walk :=
  match here.symbol with
  | .keyword .begin => walk.goto (.processBody process 0 {})
  | _ => walk.readItem (.processDeclarations process) here

def depthAfter (depth : Nat) (symbol : Symbol) : Nat :=
  match symbol with
  | .parenOpen => depth + 1
  | .parenClose => depth - 1
  | _ => depth

/-- The word detects a clock edge: by the attribute `event`, or as a function. -/
def detectsEdge (here : Lexeme) (ticked : Bool) : Bool :=
  (here.text = "event" && ticked) || isEdgeFunction here.text

/-- Reads a word inside of a statement. A name that is no attribute is a read until an assignment
makes it a target. -/
def readBodyWord (walk : Walk) (process : HdlProcess) (depth : Nat) (statement : Sequential)
    (here : Lexeme) (ticked : Bool) : Walk :=
  let depth := depthAfter depth here.symbol
  let process := if detectsEdge here ticked then { process with clocked := true } else process
  let count := statement.count + 1
  if here.symbol = .name && ! ticked then
    let first := if statement.count = 0 then some process.body.size else statement.first
    walk.goto (.processBody (process.pushBody here.word .read) depth { count, first })
  else walk.goto (.processBody process depth { statement with count })

/-- Gives the word that a statement begins with the role of a target. A second operator in one
statement does so again. -/
def markTarget (walk : Walk) (process : HdlProcess) (statement : Sequential) (role : Role) : Walk :=
  match statement.first with
  | some index => walk.goto (.processBody (process.mark index role) 0 statement)
  | none => walk

/-- Reads a word of a process's statements. The process ends at an `end` with `process` behind it,
whatever is open then. -/
def readBody (walk : Walk) (process : HdlProcess) (depth : Nat) (statement : Sequential)
    (here : Lexeme) (before next : Option Lexeme) : Walk :=
  let ticked := before.any (·.symbol = .tick)
  let nextStatement := walk.goto (.processBody process depth {})
  let stay := walk.readBodyWord process depth statement here ticked
  match here.symbol with
  | .semicolon | .arrow | .keyword .then | .keyword .else | .keyword .begin | .keyword .loop
  | .keyword .is => nextStatement
  | .colon => if statement.count = 1 then nextStatement else stay
  | .drives => if depth = 0 then walk.markTarget process statement .target else stay
  | .becomes => if depth = 0 then walk.markTarget process statement .variableTarget else stay
  | .keyword .end =>
    match next with
    | some ⟨token, .keyword .process⟩ =>
      (walk.commitProcess process token.span.stop).skip .architectureBody
    | _ => stay
  | _ => stay

end HdlIndex.Vhdl.Walk

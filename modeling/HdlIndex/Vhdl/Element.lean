import HdlIndex.Capture
import HdlIndex.Symbols.Declarations
import HdlIndex.Vhdl.Symbol
/-! One element of an interface list or one object declaration:
`names : mode type constraint := value`. Lists and declarations read their elements alike, except
that a list has modes and ends with its closing parenthesis. -/
namespace HdlIndex.Vhdl

/-- The part of an element that is read next. -/
inductive Part where
  | names
  | mode
  | type
  /-- The type is read; a constraint or a value may follow. -/
  | settled
  /-- Inside a constraint. One that begins with `range` ends with the element only; one in
  parentheses ends with them. -/
  | range (keyword : Bool) (depth : Nat)
  | value (depth : Nat)
deriving DecidableEq, Repr

/-- An element as far as it is read. -/
structure Element where
  part : Part := .names
  mode : String := ""
  type : Option Word := none
  range : String := ""
  /-- The constraint or value under way. -/
  expr : Capture := .idle
deriving DecidableEq, Repr

/-- What a word does to an element. -/
inductive Move where
  /-- It belongs to the element. -/
  | stay (element : Element)
  /-- It is one of the declared names. -/
  | name (word : Word)
  /-- It ends the element. -/
  | done
  /-- It ends the list. -/
  | close

namespace Element

/-- The constraint that the element has when its present part ends. -/
def rangeText (element : Element) : String :=
  match element.part with
  | .range .. => element.expr.text
  | .settled => if element.expr.active then element.expr.text else element.range
  | _ => element.range

/-- The initial value that the element has when it ends in its present part. -/
def valueText (element : Element) : String :=
  match element.part with
  | .value _ => element.expr.text
  | _ => ""

def push (element : Element) (here : Lexeme) : Element :=
  { element with expr := element.expr.push here.token }

def beginValue (element : Element) : Element :=
  { element with part := .value 0, range := element.rangeText, expr := .fresh }

/-- Reads a declared name. The words that may stand in front of the names, such as `signal`, are
passed over. -/
def readName (element : Element) (inList : Bool) (here : Lexeme) : Move :=
  match here.symbol with
  | .colon => .stay { element with part := if inList then .mode else .type }
  | .semicolon => .done
  | .parenClose => if inList then .close else .stay element
  | .keyword .signal | .keyword .constant | .keyword .variable | .keyword .file | .keyword .type
  | .keyword .shared => .stay element
  | .keyword _ | .name => .name here.word
  | _ => .stay element

/-- Reads what follows the type. A second constraint in parentheses continues the first one. -/
def readSettled (element : Element) (inList : Bool) (here : Lexeme) : Move :=
  match here.symbol with
  | .parenOpen =>
    let expr := if element.expr.active then element.expr else .fresh
    .stay { element with part := .range false 1, expr := expr.push here.token }
  | .keyword .range =>
    .stay { element with part := .range true 0, expr := Capture.fresh.push here.token }
  | .becomes => .stay element.beginValue
  | .semicolon => .done
  | .parenClose => if inList then .close else .stay element
  | _ => .stay element

/-- Reads the type. An element without one continues with what follows it. -/
def readType (element : Element) (inList : Bool) (here : Lexeme) : Move :=
  match here.symbol with
  | .semicolon | .parenClose | .becomes => { element with part := .settled }.readSettled inList here
  | .name => .stay { element with part := .settled, type := some here.word }
  | _ => .stay element

/-- Reads the mode, which may be left out. -/
def readMode (element : Element) (inList : Bool) (here : Lexeme) : Move :=
  match here.symbol with
  | .keyword word =>
    if isMode word then .stay { element with part := .type, mode := here.text }
    else { element with part := .type }.readType inList here
  | _ => { element with part := .type }.readType inList here

/-- Reads a constraint. Inside of parentheses nothing ends it. -/
def readRange (element : Element) (inList keyword : Bool) (depth : Nat) (here : Lexeme) : Move :=
  match here.symbol, depth with
  | .parenOpen, depth => .stay { element.push here with part := .range keyword (depth + 1) }
  | .parenClose, 0 => if inList then .close else .stay element
  | .parenClose, depth + 1 =>
    let part := if depth = 0 && ! keyword then .settled else .range keyword depth
    .stay { element.push here with part }
  | .becomes, 0 => .stay element.beginValue
  | .semicolon, 0 => .done
  | _, _ => .stay (element.push here)

def readValue (element : Element) (inList : Bool) (depth : Nat) (here : Lexeme) : Move :=
  match here.symbol, depth with
  | .parenOpen, depth => .stay { element.push here with part := .value (depth + 1) }
  | .parenClose, 0 => if inList then .close else .stay element
  | .parenClose, depth + 1 => .stay { element.push here with part := .value depth }
  | .semicolon, 0 => .done
  | _, _ => .stay (element.push here)

/-- Reads a word of a list's element (`inList`) or of an object declaration. -/
def read (element : Element) (inList : Bool) (here : Lexeme) : Move :=
  match element.part with
  | .names => element.readName inList here
  | .mode => element.readMode inList here
  | .type => element.readType inList here
  | .settled => element.readSettled inList here
  | .range keyword depth => element.readRange inList keyword depth here
  | .value depth => element.readValue inList depth here

/-- Gives the element's attributes to the names that wait for them. -/
def complete (element : Element) (defaultMode : String) (list : Declarations) : Declarations :=
  list.complete (if element.mode.isEmpty then defaultMode else element.mode) element.type
    element.rangeText element.valueText

end Element

end HdlIndex.Vhdl

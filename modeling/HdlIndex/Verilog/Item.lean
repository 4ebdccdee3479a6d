import HdlIndex.Capture
import HdlIndex.Symbols.Declarations
import HdlIndex.Verilog.Symbol
/-! Comma-separated declarations: the parameters and ports of a header, and the declarations of a
module's body. Direction, type and range carry over from one name to the next. -/
namespace HdlIndex.Verilog

/-- What the names of an item are recorded as. -/
inductive ItemKind where
  /-- A parameter of a module's header. -/
  | parameterPort
  /-- A port of a module's header. -/
  | port
  /-- A port declared in the body. -/
  | bodyPort
  /-- A net or variable of the body. -/
  | bodyNet
  | bodyParameter
  | bodyLocalparam
deriving DecidableEq, Repr

/-- The item is part of a header list, which its closing parenthesis ends. -/
def ItemKind.isList : ItemKind → Bool
  | parameterPort | port => true
  | _ => false

/-- The part of an item that is read next. -/
inductive ItemPart where
  /-- Direction, types and names. -/
  | head
  | range (depth : Nat)
  | value (depth : Nat)
deriving DecidableEq, Repr

/-- An item as far as it is read. -/
structure Item where
  kind : ItemKind
  part : ItemPart := .head
  direction : String := ""
  /-- The first type word, which objects are filed under. -/
  keyword : String := ""
  type : Option Word := none
  range : String := ""
  name : Option Word := none
  /-- The name read last qualifies the one that follows. -/
  qualifies : Bool := false
  /-- The range or value under way. -/
  expr : Capture := .idle
deriving DecidableEq, Repr

/-- What a word does to an item. -/
inductive Move where
  /-- It belongs to the item. -/
  | stay (item : Item)
  /-- It ends a name, and the item goes on. -/
  | next
  /-- It ends the item with a semicolon. -/
  | done
  /-- It ends the list. -/
  | close

namespace Item

/-- Forgets the attributes that carry over to the next name, but for the direction. -/
def restart (item : Item) : Item := { item with keyword := "", type := none, range := "" }

def push (item : Item) (here : Lexeme) : Item :=
  { item with expr := item.expr.push here.token }

/-- Adds a type word. Several of them make one type. -/
def pushType (item : Item) (here : Lexeme) : Item :=
  { item with
    keyword := if item.keyword.isEmpty then here.text else item.keyword
    type := match item.type with
      | some type => some ⟨type.text ++ " " ++ here.text, type.span.through here.span⟩
      | none => some here.word }

/-- Adds a name. One in front of it was a type, or the package of a type. -/
def pushName (item : Item) (here : Lexeme) : Item :=
  match item.name with
  | none => { item with name := some here.word }
  | some earlier =>
    if item.qualifies then
      { item with
        name := none
        qualifies := false
        type := some ⟨earlier.text ++ "::" ++ here.text, earlier.span.through here.span⟩ }
    else
      { item with
        name := some here.word
        type := match item.type with
          | some type => some type
          | none => some earlier }

/-- Reads a word of the head. A direction begins the attributes anew, and a name makes the name in
front of it a type. -/
def readHead (item : Item) (here : Lexeme) : Move :=
  match here.symbol with
  | .parenClose => if item.kind.isList then .close else .stay item
  | .semicolon => .done
  | .comma => .next
  | .bracketOpen => .stay { item with part := .range 1, expr := Capture.fresh.push here.token }
  | .equals => .stay { item with part := .value 0, expr := .fresh }
  | .scope => .stay { item with qualifies := true }
  | .keyword .parameter | .keyword .localparam => .stay item.restart
  | .keyword .input | .keyword .output | .keyword .inout =>
    .stay { item.restart with direction := here.text }
  | .keyword word => .stay (if isDataType word then item.pushType here else item)
  | .name =>
    .stay (if isDirection here.text then { item.restart with direction := here.text }
      else item.pushName here)
  | _ => .stay item

/-- Reads a word of a range. The outermost bracket closes it, and a further range is joined to
it. -/
def readRange (item : Item) (depth : Nat) (here : Lexeme) : Move :=
  let pushed := item.push here
  match here.symbol with
  | .bracketOpen => .stay { pushed with part := .range (depth + 1) }
  | .bracketClose =>
    if depth ≤ 1 then
      .stay { item with part := .head, range := item.range ++ pushed.expr.text, expr := .idle }
    else .stay { pushed with part := .range (depth - 1) }
  | _ => .stay pushed

/-- Reads a word of a value. A comma or a semicolon ends it, unless it is inside of brackets. -/
def readValue (item : Item) (depth : Nat) (here : Lexeme) : Move :=
  let pushed := item.push here
  let inner := .stay { pushed with part := .value (depth - 1) }
  match here.symbol with
  | .parenOpen | .bracketOpen | .braceOpen => .stay { pushed with part := .value (depth + 1) }
  | .parenClose => if depth = 0 && item.kind.isList then .close else inner
  | .bracketClose | .braceClose => inner
  | .comma => if depth = 0 then .next else .stay pushed
  | .semicolon => if depth = 0 then .done else .stay pushed
  | _ => .stay pushed

def read (item : Item) (here : Lexeme) : Move :=
  match item.part with
  | .head => item.readHead here
  | .range depth => item.readRange depth here
  | .value depth => item.readValue depth here

def valueText (item : Item) : String :=
  match item.part with
  | .value _ => item.expr.text
  | _ => ""

/-- The range so far. One that is not closed counts. -/
def rangeText (item : Item) : String :=
  match item.part with
  | .range _ => item.range ++ item.expr.text
  | _ => item.range

/-- The item behind a name: ready for the next name. -/
def afterName (item : Item) : Item :=
  { item with part := .head, range := item.rangeText, name := none, expr := .idle }

end Item

end HdlIndex.Verilog

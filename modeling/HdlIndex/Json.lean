/-! JSON values whose objects keep the order of their fields, and their layout over several
lines. -/
namespace HdlIndex

/-- A value. Its numbers are the natural ones. -/
inductive Json where
  | null
  | bool (value : Bool)
  | number (value : Nat)
  | string (value : String)
  | array (items : List Json)
  | object (fields : List (String × Json))
deriving Inhabited

namespace Json

/-- One character inside of a string. Control characters are escaped, by one letter where JSON has
one; everything beyond ASCII stands for itself. -/
def escapeChar (c : Char) : List Char :=
  if c == '"' then ['\\', '"']
  else if c == '\\' then ['\\', '\\']
  else if c == '\x08' then ['\\', 'b']
  else if c == '\x0c' then ['\\', 'f']
  else if c == '\n' then ['\\', 'n']
  else if c == '\r' then ['\\', 'r']
  else if c == '\t' then ['\\', 't']
  else if c.toNat < 0x10 then ['\\', 'u', '0', '0', '0'] ++ Nat.toDigits 16 c.toNat
  else if c.toNat < 0x20 then ['\\', 'u', '0', '0'] ++ Nat.toDigits 16 c.toNat
  else [c]

def quote (text : String) : String :=
  String.ofList ('"' :: text.toList.flatMap escapeChar ++ ['"'])

/-- A new line that begins `indent` levels deep, at two spaces a level. -/
def newLine (indent : Nat) : String := "\n" ++ "".pushn ' ' (2 * indent)

mutual

/-- Writes a value behind `out`. The lines it begins are indented by at least `indent` levels. -/
def write (indent : Nat) (value : Json) (out : String) : String :=
  match value with
  | .null => out ++ "null"
  | .bool value => out ++ (if value then "true" else "false")
  | .number value => out ++ toString value
  | .string value => out ++ quote value
  | .array [] => out ++ "[]"
  | .array (first :: rest) =>
    let out := write (indent + 1) first (out ++ "[" ++ newLine (indent + 1))
    writeItems (indent + 1) rest out ++ newLine indent ++ "]"
  | .object [] => out ++ "\x7b\x7d"
  | .object ((name, first) :: rest) =>
    let opened := out ++ "\x7b" ++ newLine (indent + 1) ++ quote name ++ ": "
    let out := write (indent + 1) first opened
    writeFields (indent + 1) rest out ++ newLine indent ++ "\x7d"

def writeItems (indent : Nat) (items : List Json) (out : String) : String :=
  match items with
  | [] => out
  | item :: rest => writeItems indent rest (write indent item (out ++ "," ++ newLine indent))

def writeFields (indent : Nat) (fields : List (String × Json)) (out : String) : String :=
  match fields with
  | [] => out
  | (name, field) :: rest =>
    writeFields indent rest
      (write indent field (out ++ "," ++ newLine indent ++ quote name ++ ": "))

end

/-- The layout of a value over several lines. Empty arrays and objects stay on one. -/
def render (value : Json) : String := value.write 0 ""

end Json

end HdlIndex

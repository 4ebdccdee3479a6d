import HdlIndex.Settings.Scalar
/-! TOML documents: their statements, and the tree of values that these add up to. A table in braces
is closed when its brace is, and one with a header is closed to keys with dots; one that only came
up on the way to another may still be extended. -/
namespace HdlIndex.Settings

/-- How a table came up. That decides which headers and keys may still add to it. -/
inductive Origin where
  /-- A header of its own, or the whole document. -/
  | header
  /-- The header of a table further inside. -/
  | implied
  /-- A key with dots. -/
  | dotted
  /-- A pair of braces. -/
  | braces
deriving DecidableEq, Repr

/-- A value. Tables remember how they came up. -/
inductive Value where
  | scalar (value : Scalar)
  | array (items : List Value)
  | table (origin : Origin) (entries : List (String × Value))
  /-- Tables under one header that was repeated for each. -/
  | tables (items : List (List (String × Value)))
deriving Repr

/-- The fields of a table, in the order of their first mention. -/
abbrev Entries := List (String × Value)

/-- Replaces the value of a key, or adds the key at the end. -/
def Entries.put (entries : Entries) (key : String) (value : Value) : Entries :=
  if (entries.lookup key).isSome then
    entries.map fun entry => if entry.1 == key then (key, value) else entry
  else entries ++ [(key, value)]

/-- Which tables a path may lead through, which of them may get a value at the end of a path, and
how those that are made for a path come up. -/
structure Route where
  enters : Origin → Bool
  fills : Origin → Bool
  makes : Origin

namespace Route

/-- The path of a header, which gives no value. Only tables in braces are closed to it. -/
def ofHeader : Route := ⟨(· != .braces), fun _ => false, .implied⟩

/-- A key with dots on a line of its own. It does not lead into tables that have a header, and gives
its value to a table that only such keys brought up. -/
def ofLine : Route :=
  ⟨fun origin => origin == .implied || origin == .dotted, (· == .dotted), .dotted⟩

/-- A key with dots between braces. It leads into tables in braces, too, and adds to them. -/
def ofBraces : Route := ⟨fun _ => true, fun _ => true, .dotted⟩

end Route

/-- Changes the table at the end of a path. Of tables under a repeated header the path leads through
the latest one. -/
def changeAt? (route : Route) (change : Origin → Entries → Option Entries) (path : List String)
    (origin : Origin) (entries : Entries) : Option Entries :=
  match path with
  | [] => change origin entries
  | key :: path =>
    match (entries.lookup key).getD (.table route.makes []) with
    | .table inner fields =>
      if route.enters inner then
        (changeAt? route change path inner fields).map fun fields =>
          Entries.put entries key (.table inner fields)
      else none
    | .tables items =>
      match items.getLast? with
      | some fields => (changeAt? route change path .header fields).map fun fields =>
          Entries.put entries key (.tables (items.dropLast ++ [fields]))
      | none => none
    | _ => none

/-- Gives a value to a key that has none yet. Tables that are missing on the way to the key are
made. -/
def assign? (route : Route) (path : List String) (value : Value) (origin : Origin)
    (entries : Entries) : Option Entries :=
  match path.getLast? with
  | none => none
  | some key =>
    let parents := path.dropLast
    changeAt? route (fun inner fields =>
      if (parents.isEmpty || route.fills inner) && (fields.lookup key).isNone then
        some (fields ++ [(key, value)])
      else none) parents origin entries

/-- Opens the table of a header. It may be there already only as a table further out than others. -/
def openTable? (path : List String) (root : Entries) : Option Entries :=
  match path.getLast? with
  | none => none
  | some key => changeAt? .ofHeader (fun _ fields =>
      match fields.lookup key with
      | none => some (fields ++ [(key, .table .header [])])
      | some (.table .implied inner) => some (Entries.put fields key (.table .header inner))
      | some _ => none) path.dropLast .header root

/-- Opens one more table under a repeated header. -/
def openElement? (path : List String) (root : Entries) : Option Entries :=
  match path.getLast? with
  | none => none
  | some key => changeAt? .ofHeader (fun _ fields =>
      match fields.lookup key with
      | none => some (fields ++ [(key, .tables [[]])])
      | some (.tables items) => some (Entries.put fields key (.tables (items ++ [[]])))
      | some _ => none) path.dropLast .header root

/-- A statement takes a line, or several when its value does. -/
inductive Statement where
  /-- The header of a table: `[path]`. -/
  | table (path : List String)
  /-- The repeated header of a table: `[[path]]`. -/
  | element (path : List String)
  /-- A value for a key: `path = value`. -/
  | assignment (path : List String) (value : Value)
deriving Repr

namespace Document

def dropBlanks (chars : List Char) : List Char := chars.dropWhile fun c => c == ' ' || c == '\t'

/-- Passes over blanks, new-lines and comments, which `comment` is about to end. A comment that is
not ended by a new-line stops it. -/
def dropLines : (comment : Bool) → List Char → List Char
  | _, '\n' :: rest | _, '\r' :: '\n' :: rest => dropLines false rest
  | false, ' ' :: rest | false, '\t' :: rest => dropLines false rest
  | false, '#' :: rest => dropLines true rest
  | true, c :: rest => if Scalar.isPlain c then dropLines true rest else c :: rest
  | _, chars => chars

/-- Passes over the end of a line: blanks, a comment if there is one, and the new-line. -/
def endLine? (chars : List Char) : Option (List Char) :=
  let rest := match dropBlanks chars with
    | '#' :: comment => comment.dropWhile Scalar.isPlain
    | rest => rest
  match rest with
  | [] => some []
  | '\n' :: rest | '\r' :: '\n' :: rest => some rest
  | _ => none

def isKeyChar (c : Char) : Bool := c.isAlphanum || c == '-' || c == '_'

/-- Reads one key, which is a bare word or a string of one line. -/
def key? : List Char → Option (String × List Char)
  | '"' :: rest => Scalar.basic? rest []
  | '\'' :: rest => Scalar.literal? rest []
  | chars =>
    let word := chars.takeWhile isKeyChar
    if word.isEmpty then none else some (String.ofList word, chars.drop word.length)

/-- How deep arrays and tables in braces may be nested, and how many keys a path may have. -/
def maxDepth : Nat := 127

/-- Reads keys with dots between them, and the blanks around each. -/
def keys? (fuel : Nat) (chars : List Char) : Option (List String × List Char) :=
  match fuel with
  | 0 => none
  | fuel + 1 => do
    let (key, rest) ← key? (dropBlanks chars)
    match dropBlanks rest with
    | '.' :: rest => (keys? fuel rest).map fun (keys, rest) => (key :: keys, rest)
    | rest => some ([key], rest)

/-- Reads a path. One of more than `maxDepth` keys is refused. -/
def path? (fuel : Nat) (chars : List Char) : Option (List String × List Char) :=
  (keys? fuel chars).filter fun (keys, _) => keys.length ≤ maxDepth

mutual

/-- Reads a value that stands in `depth` arrays and tables in braces. -/
def value? (fuel depth : Nat) (chars : List Char) : Option (Value × List Char) :=
  match fuel with
  | 0 => none
  | fuel + 1 =>
    match chars with
    | '[' :: rest => if depth < maxDepth then items? fuel (depth + 1) rest [] else none
    | '\x7b' :: rest =>
      if depth < maxDepth then
        match dropBlanks rest with
        | '\x7d' :: rest => some (.table .braces [], rest)
        | rest => fields? fuel (depth + 1) rest []
      else none
    | chars => (Scalar.read? chars).map fun (scalar, rest) => (.scalar scalar, rest)

/-- Reads the items of an array from `chars` on, up to its closing bracket. They may be spread over
lines, and a comma may follow the last one. `done` holds the items read so far, the latest first. -/
def items? (fuel depth : Nat) (chars : List Char) (done : List Value) :
    Option (Value × List Char) :=
  match fuel with
  | 0 => none
  | fuel + 1 =>
    match dropLines false chars with
    | ']' :: rest => some (.array done.reverse, rest)
    | chars => do
      let (value, rest) ← value? fuel depth chars
      match dropLines false rest with
      | ',' :: rest => items? fuel depth rest (value :: done)
      | ']' :: rest => some (.array (value :: done).reverse, rest)
      | _ => none

/-- Reads the fields of a table in braces, of which there is at least one more, up to its closing
brace. -/
def fields? (fuel depth : Nat) (chars : List Char) (done : Entries) : Option (Value × List Char) :=
  match fuel with
  | 0 => none
  | fuel + 1 => do
    let (path, rest) ← path? (fuel + 1) chars
    let .cons '=' rest := rest | none
    let (value, rest) ← value? fuel depth (dropBlanks rest)
    let done ← assign? .ofBraces path value .braces done
    match dropBlanks rest with
    | ',' :: rest => fields? fuel depth rest done
    | '\x7d' :: rest => some (.table .braces done, rest)
    | _ => none

end

def statement? (fuel : Nat) (chars : List Char) : Option (Statement × List Char) :=
  match dropBlanks chars with
  | '[' :: '[' :: rest => do
    let (path, rest) ← path? fuel rest
    match rest with
    | ']' :: ']' :: rest => some (.element path, rest)
    | _ => none
  | '[' :: rest => do
    let (path, rest) ← path? fuel rest
    match rest with
    | ']' :: rest => some (.table path, rest)
    | _ => none
  | chars => do
    let (path, rest) ← path? fuel chars
    match rest with
    | '=' :: rest =>
      (value? fuel 0 (dropBlanks rest)).map fun (value, rest) => (.assignment path value, rest)
    | _ => none

/-- Reads statements up to the end of the text. `done` holds those read so far, the latest first. -/
def statements? (fuel : Nat) (chars : List Char) (done : List Statement) :
    Option (List Statement) :=
  match fuel, chars with
  | _, [] => some done.reverse
  | 0, _ => none
  | fuel + 1, chars =>
    match endLine? chars with
    | some rest => statements? fuel rest done
    | none => do
      let (statement, rest) ← statement? (fuel + 1) chars
      statements? fuel (← endLine? rest) (statement :: done)

/-- Adds a statement to the tree. Assignments go to the table of the latest header, whose path is
`header`. -/
def add? (root : Entries) (header : List String) : Statement → Option (Entries × List String)
  | .table path => (openTable? path root).map (·, path)
  | .element path => (openElement? path root).map (·, path)
  | .assignment path value =>
    (changeAt? .ofHeader (assign? .ofLine path value) header .header root).map (·, header)

end Document

/-- Reads a document. There is no tree when the text breaks a rule of the format. -/
def document? (text : String) : Option Entries := do
  let chars := match text.toList with
    | '\ufeff' :: rest => rest
    | chars => chars
  let statements ← Document.statements? (2 * chars.length + 2) chars []
  let (root, _) ← statements.foldlM (fun (root, header) => Document.add? root header)
    (([] : Entries), ([] : List String))
  return root

end HdlIndex.Settings

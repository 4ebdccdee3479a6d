import HdlIndex.Text.Basic
/-! The two languages, by the names users give them and by the endings of file names. -/
namespace HdlIndex

/-- A hardware description language. -/
inductive Language where
  | vhdl
  | verilog
deriving DecidableEq, Repr

namespace Language

def name : Language → String
  | vhdl => "vhdl"
  | verilog => "verilog"

/-- Reads a name of a language, in any case. SystemVerilog counts as Verilog. -/
def ofName? (name : String) : Option Language :=
  match Text.foldCase name with
  | "vhdl" | "vhd" => some .vhdl
  | "verilog" | "v" | "systemverilog" | "sv" => some .verilog
  | _ => none

/-- The last component of a path that names something: separators and single points at the end do
not count. -/
def lastComponent? (path : String) : Option (List Char) :=
  ((path.toList.splitOn '/').filter fun part => part ≠ [] && part ≠ ['.']).getLast?

/-- The extension of a path: what follows the last point of its last component. A name that begins
with its only point has none, and neither has the parent directory. -/
def extension? (path : String) : Option String :=
  match lastComponent? path with
  | none => none
  | some component =>
    let ending := component.reverse.takeWhile (· != '.')
    match component.reverse.drop ending.length with
    | [] | ['.'] => none
    | _ => if component = ['.', '.'] then none else some (String.ofList ending.reverse)

/-- The language of a file, by the extension of its path in any case. -/
def ofPath? (path : String) : Option Language :=
  match (extension? path).map Text.foldCase with
  | some "vhd" | some "vhdl" => some .vhdl
  | some "v" | some "vh" | some "sv" | some "svh" => some .verilog
  | _ => none

end Language

end HdlIndex

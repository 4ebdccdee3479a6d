import HdlIndex.Proofs.Lexical
import HdlIndex.Proofs.Verilog.RelaidTable
import HdlIndex.Proofs.Vhdl.RelaidTable

/-! Layout decides nothing. White space outside of comments, strings and directive lines can be
exchanged for other white space, with or without comments in it, and what is collected stays the
same at other places. Only the comments themselves, and what is quoted of a generic clause or of a
parameter list, show the difference. -/
namespace HdlIndex

namespace Language

/-- A reader stands outside of comments, strings and directive lines behind a text. -/
def IsCodeBehind (language : Language) (text : String) : Prop :=
  match language with
  | vhdl => (Vhdl.readerAt none text).mode = .code
  | verilog => (Verilog.Reader.readAll {} (Verilog.tokens none text).proper).mode = .code

/-- A text is nothing but white space with comments in it: it begins and ends with white space, and
its comments are closed in front of its end. -/
def IsLayout (language : Language) (text : String) : Prop :=
  match language with
  | vhdl => Vhdl.IsLayoutText text
  | verilog => Verilog.IsLayoutText text

instance (language : Language) (text : String) : Decidable (language.IsCodeBehind text) :=
  match language with
  | vhdl => inferInstanceAs (Decidable ((Vhdl.readerAt none text).mode = .code))
  | verilog =>
    inferInstanceAs (Decidable
      ((Verilog.Reader.readAll {} (Verilog.tokens none text).proper).mode = .code))

instance (language : Language) (text : String) : Decidable (language.IsLayout text) :=
  match language with
  | vhdl => inferInstanceAs (Decidable (Vhdl.IsLayoutText text))
  | verilog => inferInstanceAs (Decidable (Verilog.IsLayoutText text))

end Language

namespace Design

/-- The table of a design at another place. -/
def moved (move : Nat → Nat) : Design → Design
  | vhdl table => .vhdl (table.moved move)
  | verilog table => .verilog (table.moved move)

/-- A design without its comments and without the quoted text of its generic clause or parameter
list. -/
def unquoted : Design → Design
  | vhdl table => .vhdl table.unquoted
  | verilog table => .verilog table.unquoted

end Design

variable {pre run gap post : String}

/-- Layout in place of layout leaves everything as it is, but for the places of words, the comments
and the quoted text of the generic clause or parameter list. -/
theorem scan_layout (start : Start) (hRun : start.language.IsLayout run)
    (hGap : start.language.IsLayout gap) (hPre : '\x0b' ∉ pre.toList) (hPost : '\x0b' ∉ post.toList)
    (hCode : start.language.IsCodeBehind pre) :
    ∃ move, Monotone move ∧ (scan start none (pre ++ gap ++ post)).design.unquoted =
      ((scan start none (pre ++ run ++ post)).design.moved move).unquoted := by
  cases start with
  | vhdl region =>
      obtain ⟨move, hMove, hTable⟩ := Vhdl.scan_relaid region hRun hGap hPre hPost hCode
      exact ⟨move, hMove, congrArg Design.vhdl hTable⟩
  | verilog region =>
      obtain ⟨move, hMove, hTable⟩ := Verilog.scan_relaid region hRun hGap hPre hPost hCode
      exact ⟨move, hMove, congrArg Design.verilog hTable⟩

/-- A comment between the name of a port and its colon, and one in front of an instance. -/
theorem scan_layout_comments :
    (let pre := "entity E is port (a"
      let gap := "\n-- the port\n\t"
      let post := ": in bit); end;"
      ∃ move, Monotone move ∧ (scan (.vhdl .start) none (pre ++ gap ++ post)).design.unquoted =
        ((scan (.vhdl .start) none (pre ++ " " ++ post)).design.moved move).unquoted) ∧
    (let pre := "wire w;"
      let gap := " /* an instance */ "
      let post := "m u (w);"
      ∃ move, Monotone move ∧
        (scan (.verilog .moduleBody) none (pre ++ gap ++ post)).design.unquoted =
        ((scan (.verilog .moduleBody) none (pre ++ "\n" ++ post)).design.moved move).unquoted) := by
  constructor
  · exact scan_layout (.vhdl .start) (by decide +kernel) (by decide +kernel) (by decide) (by decide)
      (by decide +kernel)
  · exact scan_layout (.verilog .moduleBody) (by decide +kernel) (by decide +kernel) (by decide)
      (by decide) (by decide +kernel)

end HdlIndex

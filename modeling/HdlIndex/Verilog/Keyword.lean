/-! The reserved words of Verilog 2005 and the common ones of SystemVerilog. -/
namespace HdlIndex.Verilog

/-- A reserved word. -/
inductive Keyword where
  | always | alwaysComb | alwaysFf | alwaysLatch | and | assign | automatic | «begin» | bit | buf
  | byte | case | casex | casez | cell | config | deassign | «default» | defparam | disable
  | «else» | «end» | endcase | endconfig | endfunction | endgenerate | endmodule | endpackage
  | endprimitive | endspecify | endtable | endtask | «enum» | event | «export» | final | «for»
  | force | foreach | forever | fork | function | generate | genvar | «if» | «import» | initial
  | inout | input | int | integer | join | joinAny | joinNone | localparam | logic | longint
  | macromodule | module | nand | negedge | nor | not | or | output | package | packed
  | parameter | posedge | primitive | real | realtime | reg | release | repeat | «return»
  | shortint | shortreal | signed | specify | string | struct | supply0 | supply1 | table | task
  | time | tri | tri0 | tri1 | typedef | union | unique | unsigned | uwire | var | void | wait
  | wand | «while» | wire | wor | xnor | xor
deriving DecidableEq, Repr

namespace Keyword

def text : Keyword → String
  | .always => "always"
  | .alwaysComb => "always_comb"
  | .alwaysFf => "always_ff"
  | .alwaysLatch => "always_latch"
  | .and => "and"
  | .assign => "assign"
  | .automatic => "automatic"
  | .begin => "begin"
  | .bit => "bit"
  | .buf => "buf"
  | .byte => "byte"
  | .case => "case"
  | .casex => "casex"
  | .casez => "casez"
  | .cell => "cell"
  | .config => "config"
  | .deassign => "deassign"
  | .default => "default"
  | .defparam => "defparam"
  | .disable => "disable"
  | .else => "else"
  | .end => "end"
  | .endcase => "endcase"
  | .endconfig => "endconfig"
  | .endfunction => "endfunction"
  | .endgenerate => "endgenerate"
  | .endmodule => "endmodule"
  | .endpackage => "endpackage"
  | .endprimitive => "endprimitive"
  | .endspecify => "endspecify"
  | .endtable => "endtable"
  | .endtask => "endtask"
  | .enum => "enum"
  | .event => "event"
  | .export => "export"
  | .final => "final"
  | .for => "for"
  | .force => "force"
  | .foreach => "foreach"
  | .forever => "forever"
  | .fork => "fork"
  | .function => "function"
  | .generate => "generate"
  | .genvar => "genvar"
  | .if => "if"
  | .import => "import"
  | .initial => "initial"
  | .inout => "inout"
  | .input => "input"
  | .int => "int"
  | .integer => "integer"
  | .join => "join"
  | .joinAny => "join_any"
  | .joinNone => "join_none"
  | .localparam => "localparam"
  | .logic => "logic"
  | .longint => "longint"
  | .macromodule => "macromodule"
  | .module => "module"
  | .nand => "nand"
  | .negedge => "negedge"
  | .nor => "nor"
  | .not => "not"
  | .or => "or"
  | .output => "output"
  | .package => "package"
  | .packed => "packed"
  | .parameter => "parameter"
  | .posedge => "posedge"
  | .primitive => "primitive"
  | .real => "real"
  | .realtime => "realtime"
  | .reg => "reg"
  | .release => "release"
  | .repeat => "repeat"
  | .return => "return"
  | .shortint => "shortint"
  | .shortreal => "shortreal"
  | .signed => "signed"
  | .specify => "specify"
  | .string => "string"
  | .struct => "struct"
  | .supply0 => "supply0"
  | .supply1 => "supply1"
  | .table => "table"
  | .task => "task"
  | .time => "time"
  | .tri => "tri"
  | .tri0 => "tri0"
  | .tri1 => "tri1"
  | .typedef => "typedef"
  | .union => "union"
  | .unique => "unique"
  | .unsigned => "unsigned"
  | .uwire => "uwire"
  | .var => "var"
  | .void => "void"
  | .wait => "wait"
  | .wand => "wand"
  | .while => "while"
  | .wire => "wire"
  | .wor => "wor"
  | .xnor => "xnor"
  | .xor => "xor"

def every : List Keyword :=
  [.always, .alwaysComb, .alwaysFf, .alwaysLatch, .and, .assign, .automatic, .begin, .bit, .buf,
   .byte, .case, .casex, .casez, .cell, .config, .deassign, .default, .defparam, .disable, .else,
   .end, .endcase, .endconfig, .endfunction, .endgenerate, .endmodule, .endpackage,
   .endprimitive, .endspecify, .endtable, .endtask, .enum, .event, .export, .final, .for, .force,
   .foreach, .forever, .fork, .function, .generate, .genvar, .if, .import, .initial, .inout,
   .input, .int, .integer, .join, .joinAny, .joinNone, .localparam, .logic, .longint,
   .macromodule, .module, .nand, .negedge, .nor, .not, .or, .output, .package, .packed,
   .parameter, .posedge, .primitive, .real, .realtime, .reg, .release, .repeat, .return,
   .shortint, .shortreal, .signed, .specify, .string, .struct, .supply0, .supply1, .table, .task,
   .time, .tri, .tri0, .tri1, .typedef, .union, .unique, .unsigned, .uwire, .var, .void, .wait,
   .wand, .while, .wire, .wor, .xnor, .xor]

def ofText? (text : String) : Option Keyword :=
  every.find? fun keyword => keyword.text == text

/-- Every reserved word is read back from its spelling. -/
theorem ofText?_text (keyword : Keyword) : ofText? keyword.text = some keyword := by
  have h : ∀ k ∈ every, ofText? k.text = some k := by decide +kernel
  exact h keyword (by cases keyword <;> decide)

/-- Only the spelling of a reserved word is read as one. -/
theorem text_of_ofText? {text : String} {keyword : Keyword} (h : ofText? text = some keyword) :
    keyword.text = text := by
  simpa using List.find?_some h

end Keyword

end HdlIndex.Verilog

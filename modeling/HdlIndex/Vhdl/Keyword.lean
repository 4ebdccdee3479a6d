/-! The reserved words of the 2008 and 2019 language, in lower case. -/
namespace HdlIndex.Vhdl

/-- A reserved word. -/
inductive Keyword where
  | abs | access | after | «alias» | all | and | architecture | array | «assert» | assume
  | «attribute» | «begin» | block | body | buffer | bus | case | component | configuration
  | «constant» | context | cover | «default» | disconnect | downto | «else» | elsif | «end»
  | entity | exit | fairness | file | «for» | force | function | generate | generic | group
  | guarded | «if» | impure | «in» | inertial | inout | is | label | library | linkage | literal
  | loop | map | mod | nand | new | next | nor | not | null | of | on | «open» | or | others
  | out | package | parameter | port | postponed | «private» | procedure | process | property
  | «protected» | pure | range | record | register | reject | release | rem | report | restrict
  | «return» | rol | ror | select | sequence | severity | shared | signal | sla | sll | sra | srl
  | strong | subtype | «then» | to | transport | «type» | unaffected | units | until | use
  | «variable» | view | vmode | vprop | vunit | wait | when | «while» | «with» | xnor | xor
deriving DecidableEq, Repr

namespace Keyword

def text : Keyword → String
  | .abs => "abs"
  | .access => "access"
  | .after => "after"
  | .alias => "alias"
  | .all => "all"
  | .and => "and"
  | .architecture => "architecture"
  | .array => "array"
  | .assert => "assert"
  | .assume => "assume"
  | .attribute => "attribute"
  | .begin => "begin"
  | .block => "block"
  | .body => "body"
  | .buffer => "buffer"
  | .bus => "bus"
  | .case => "case"
  | .component => "component"
  | .configuration => "configuration"
  | .constant => "constant"
  | .context => "context"
  | .cover => "cover"
  | .default => "default"
  | .disconnect => "disconnect"
  | .downto => "downto"
  | .else => "else"
  | .elsif => "elsif"
  | .end => "end"
  | .entity => "entity"
  | .exit => "exit"
  | .fairness => "fairness"
  | .file => "file"
  | .for => "for"
  | .force => "force"
  | .function => "function"
  | .generate => "generate"
  | .generic => "generic"
  | .group => "group"
  | .guarded => "guarded"
  | .if => "if"
  | .impure => "impure"
  | .in => "in"
  | .inertial => "inertial"
  | .inout => "inout"
  | .is => "is"
  | .label => "label"
  | .library => "library"
  | .linkage => "linkage"
  | .literal => "literal"
  | .loop => "loop"
  | .map => "map"
  | .mod => "mod"
  | .nand => "nand"
  | .new => "new"
  | .next => "next"
  | .nor => "nor"
  | .not => "not"
  | .null => "null"
  | .of => "of"
  | .on => "on"
  | .open => "open"
  | .or => "or"
  | .others => "others"
  | .out => "out"
  | .package => "package"
  | .parameter => "parameter"
  | .port => "port"
  | .postponed => "postponed"
  | .private => "private"
  | .procedure => "procedure"
  | .process => "process"
  | .property => "property"
  | .protected => "protected"
  | .pure => "pure"
  | .range => "range"
  | .record => "record"
  | .register => "register"
  | .reject => "reject"
  | .release => "release"
  | .rem => "rem"
  | .report => "report"
  | .restrict => "restrict"
  | .return => "return"
  | .rol => "rol"
  | .ror => "ror"
  | .select => "select"
  | .sequence => "sequence"
  | .severity => "severity"
  | .shared => "shared"
  | .signal => "signal"
  | .sla => "sla"
  | .sll => "sll"
  | .sra => "sra"
  | .srl => "srl"
  | .strong => "strong"
  | .subtype => "subtype"
  | .then => "then"
  | .to => "to"
  | .transport => "transport"
  | .type => "type"
  | .unaffected => "unaffected"
  | .units => "units"
  | .until => "until"
  | .use => "use"
  | .variable => "variable"
  | .view => "view"
  | .vmode => "vmode"
  | .vprop => "vprop"
  | .vunit => "vunit"
  | .wait => "wait"
  | .when => "when"
  | .while => "while"
  | .with => "with"
  | .xnor => "xnor"
  | .xor => "xor"

def every : List Keyword :=
  [.abs, .access, .after, .alias, .all, .and, .architecture, .array, .assert, .assume,
   .attribute, .begin, .block, .body, .buffer, .bus, .case, .component, .configuration,
   .constant, .context, .cover, .default, .disconnect, .downto, .else, .elsif, .end, .entity,
   .exit, .fairness, .file, .for, .force, .function, .generate, .generic, .group, .guarded, .if,
   .impure, .in, .inertial, .inout, .is, .label, .library, .linkage, .literal, .loop, .map, .mod,
   .nand, .new, .next, .nor, .not, .null, .of, .on, .open, .or, .others, .out, .package,
   .parameter, .port, .postponed, .private, .procedure, .process, .property, .protected, .pure,
   .range, .record, .register, .reject, .release, .rem, .report, .restrict, .return, .rol, .ror,
   .select, .sequence, .severity, .shared, .signal, .sla, .sll, .sra, .srl, .strong, .subtype,
   .then, .to, .transport, .type, .unaffected, .units, .until, .use, .variable, .view, .vmode,
   .vprop, .vunit, .wait, .when, .while, .with, .xnor, .xor]

def ofText? (text : String) : Option Keyword :=
  every.find? fun keyword => keyword.text == text

/-- Every reserved word is read back from its spelling. -/
theorem ofText?_text (keyword : Keyword) : ofText? keyword.text = some keyword := by
  have h : ∀ k ∈ every, ofText? k.text = some k := by decide +kernel
  exact h keyword (by cases keyword <;> decide)

/-- Only the spelling of a reserved word is read as one. -/
theorem text_of_ofText? {text : String} {keyword : Keyword} (h : ofText? text = some keyword) :
    keyword.text = text := by
  simpa using List.find?_some h

end Keyword

end HdlIndex.Vhdl

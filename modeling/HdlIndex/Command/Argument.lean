/-! The arguments of a command line: the help that lists them, and how they are taken apart and
looked up. What was looked up is crossed out, so that anything left over at the end shows as not
understood. -/
namespace HdlIndex.Command

def version : String := "hdlscan 0.1.0"

def help : String := "\n".intercalate [
  "Scan an hdl source file and report what it declares.",
  "",
  "Usage:",
  "    hdlscan [options] <file>",
  "",
  "Args:",
  "    <file>                  vhdl or verilog source file to scan",
  "",
  "Options:",
  "    --lang <lang>           language of the file: vhdl, verilog",
  "    --region <name>         region to start scanning in (default: whole file)",
  "    --json                  print the symbol table as json",
  "    --highlight             print the source with recognized words colored",
  "    --check                 report incomplete or superfluous sensitivity lists",
  "    --large                 scan files larger than the size limit",
  "    --config <path>         read settings from a toml file",
  "    --color <when>          coloring: auto, always, never",
  "    --version               print version information and exit",
  "    --help, -h              print help information",
  "",
  "Set RUST_LOG=debug to trace how the file is scanned."]

/-- A part of a command line. -/
inductive Argument where
  /-- A name behind two dashes. -/
  | flag (name : String)
  /-- A letter behind one dash. -/
  | switch (letter : Char)
  /-- One dash and nothing else. -/
  | emptySwitch
  /-- The text behind the first equals sign of a flag or of switches. -/
  | attached (value : String)
  | plain (value : String)
  /-- Two dashes and nothing else. -/
  | terminator
  /-- Any text behind a terminator. -/
  | ignored (text : String)
  /-- Crossed out. -/
  | used
deriving DecidableEq, Repr

namespace Argument

def attachment (chars : List Char) : List Argument :=
  match chars.dropWhile (· != '=') with
  | [] => []
  | _ :: value => [.attached (String.ofList value)]

/-- The parts of one word of a command line, in front of any terminator. -/
def ofWord (word : String) : List Argument :=
  let name := word.toList.takeWhile (· != '=')
  let attachment := attachment word.toList
  match name with
  | ['-'] => .emptySwitch :: attachment
  | ['-', '-'] => .terminator :: attachment
  | '-' :: '-' :: name => .flag (String.ofList name) :: attachment
  | '-' :: letters => letters.map .switch ++ attachment
  | _ => [.plain word]

/-- Takes a command line apart. Words behind a terminator are never looked up, so they are left over
at the end. -/
def ofWords : List String → List Argument
  | [] => []
  | word :: words =>
    let parts := ofWord word
    parts ++ (if parts.contains .terminator then words.map .ignored else ofWords words)

/-- Crosses out every flag of a kind, together with the value it has, and lists the values. A value
is attached to the flag or, if the flag `takesNext`, the plain argument right behind it. -/
def takeAll (isFlag : Argument → Bool) (takesNext : Bool) :
    List Argument → List (Option String) × List Argument
  | [] => ([], [])
  | argument :: rest =>
    if isFlag argument then
      match rest with
      | .attached value :: rest =>
        let (values, rest) := takeAll isFlag takesNext rest
        (some value :: values, .used :: .used :: rest)
      | .plain value :: rest =>
        let (values, rest) := takeAll isFlag takesNext rest
        if takesNext then (some value :: values, .used :: .used :: rest)
        else (none :: values, .used :: .plain value :: rest)
      | rest =>
        let (values, rest) := takeAll isFlag takesNext rest
        (none :: values, .used :: rest)
    else
      let (values, rest) := takeAll isFlag takesNext rest
      (values, argument :: rest)

/-- Crosses out the first plain argument in front of any terminator, and gives its text. -/
def takePlain : List Argument → Option String × List Argument
  | [] => (none, [])
  | .terminator :: rest => (none, .terminator :: rest)
  | .plain value :: rest => (some value, .used :: rest)
  | argument :: rest =>
    let (value, rest) := takePlain rest
    (value, argument :: rest)

end Argument

end HdlIndex.Command

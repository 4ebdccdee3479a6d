import HdlIndex.Command.Argument
import HdlIndex.Settings
/-! What a command line asks for. -/
namespace HdlIndex.Command

/-- Why a command line is not carried out. -/
inductive Refusal where
  /-- It asks for the help text. -/
  | help
  /-- A flag that stands alone has a value. -/
  | unexpectedValue
  /-- A flag or an option is repeated. -/
  | duplicate
  /-- An option has no value. -/
  | missingValue
  /-- The value of an option is none of those it knows. -/
  | badValue (value : String) (fault : Fault)
  /-- Some argument was not understood. -/
  | unexpectedArgument
deriving DecidableEq, Repr

/-- A command line that was understood. No file has been looked at yet, so paths and regions are as
they were written. -/
structure Request where
  version : Bool
  json : Bool
  highlight : Bool
  check : Bool
  large : Bool
  language : Option Language
  region : Option String
  config : Option String
  color : Option ColorMode
  file : Option String
deriving DecidableEq, Repr

namespace Request

/-- Looking up arguments crosses them out. -/
abbrev Reading := StateT (List Argument) (Except Refusal)

/-- Looks up a flag that stands alone, and counts how often it is there. -/
def count (isFlag : Argument → Bool) : Reading Nat := do
  let (values, rest) := Argument.takeAll isFlag false (← get)
  set rest
  if values.any Option.isSome then throw .unexpectedValue
  else return values.length

/-- Looks up a flag by its name. It may be there once at most. -/
def flag (name : String) : Reading Bool := do
  let times ← count (· == .flag name)
  if 1 < times then throw .duplicate
  else return times == 1

/-- Looks up an option and reads its value. It may be there once at most, and not without a
value. -/
def option {α : Type} (name : String) (read : String → Except Fault α) : Reading (Option α) := do
  let (values, rest) := Argument.takeAll (· == .flag name) true (← get)
  set rest
  match values with
  | [] => return none
  | [none] => throw .missingValue
  | [some value] =>
    match read value with
    | .ok value => return some value
    | .error fault => throw (.badValue value fault)
  | _ => throw .duplicate

def plain : Reading (Option String) := modifyGet Argument.takePlain

/-- Nothing may be left over. -/
def finish : Reading Unit := do
  unless (← get).all (· == .used) do throw .unexpectedArgument

/-- Reads a command line, up to the question whether it asks for help. -/
def read : Reading Request := do
  let version ← flag "version"
  let json ← flag "json"
  let highlight ← flag "highlight"
  let check ← flag "check"
  let large ← flag "large"
  let language ← option "lang" Language.read
  let region ← option "region" .ok
  let config ← option "config" .ok
  let color ← option "color" ColorMode.read
  let file ← plain
  finish
  return { version, json, highlight, check, large, language, region, config, color, file }

def asksHelp (argument : Argument) : Bool := argument == .flag "help" || argument == .switch 'h'

/-- Reads a command line. Whoever asks for help gets it whatever else is wrong. -/
def ofWords (words : List String) : Except Refusal Request := do
  let (times, rest) ← (count asksHelp).run (Argument.ofWords words)
  if 0 < times then throw .help
  let (request, _) ← read.run rest
  return request

end Request

end HdlIndex.Command

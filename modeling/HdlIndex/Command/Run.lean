import HdlIndex.Command.Files
import HdlIndex.Command.Argument
import HdlIndex.Command.Report
import HdlIndex.Command.Request
import HdlIndex.Highlight
/-! Carrying out a command line. What is read from files comes from a function of their paths, and
what is printed is collected, also when the command fails later on. -/
namespace HdlIndex.Command

/-- What a command printed and reported. -/
structure Outcome where
  /-- What was printed. -/
  output : String := ""
  /-- What was reported in the log. -/
  notes : List Note := []
  /-- Why it failed. -/
  fault : Option Fault := none
  /-- Colours are shown. -/
  colors : Bool := false

namespace Outcome

def message? (outcome : Outcome) : Option String :=
  outcome.fault.map (·.message outcome.colors)

/-- The exit code: a failure shows in it. -/
def exitCode (outcome : Outcome) : Nat := if outcome.fault.isSome then 101 else 0

end Outcome

/-- The settings file that is read when none is named and there is one. -/
def settingsFile : String := "hdlscan.toml"

/-- Reads a settings file. One that cannot be read is told apart from one that breaks a rule of its
format; which rule that is, is not reported. -/
def readSettings (find : String → Found) (path : String) : Except Fault Settings :=
  match (find path).text with
  | .error cause => .error (.configUnreadable path cause)
  | .ok text =>
    match Settings.ofText? text with
    | some settings => .ok settings
    | none => .error (.configInvalid path "")

/-- The settings of a request: those of a file, and what the request itself overrides. -/
def settingsOf (find : String → Found) (request : Request) : Except Fault Settings := do
  let settings ← match request.config with
    | some path => readSettings find path
    | none =>
      if (find settingsFile).isFile then readSettings find settingsFile else .ok {}
  return (settings.allowLarge request.large).withColor request.color

/-- The language of a file, given or detected. -/
def languageOf (request : Request) (path : String) : Except Fault Language :=
  match request.language <|> Language.ofPath? path with
  | some language => .ok language
  | none => .error (.undetectedLanguage path)

/-- Where the scan of a file starts. Only the regions that are entries can be asked for. -/
def startOf (request : Request) (language : Language) : Except Fault Start :=
  match request.region with
  | none => .ok (.file language)
  | some name =>
    match Start.ofEntry? language name with
    | some start => .ok start
    | none => .error (.unknownRegion language name)

/-- Reads and scans a file. Of several things that are wrong the first is reported: the language,
then the file, then the region. -/
def scanFile (find : String → Found) (request : Request) (limit : Option Nat) (path : String) :
    Except Fault (String × Scan) := do
  let language ← languageOf request path
  let text ← match (find path).text with
    | .ok text => .ok text
    | .error cause => .error (.fileUnreadable path cause)
  let start ← startOf request language
  return (text, scan start limit text)

/-- What a request prints about a scanned file, in the form it asks for. -/
def present (request : Request) (colors : Bool) (text : String) (design : Design) : String :=
  if request.json then design.toJson.render ++ "\n"
  else if request.highlight then Highlight.paint design.positions colors text
  else summary design colors

/-- Carries out a request about a file. The settings come first; from then on they decide about
colours. -/
def runOn (find : String → Found) (request : Request) (path : String) : Outcome :=
  match settingsOf find request with
  | .error fault => { fault }
  | .ok settings =>
    let colors := settings.color.showsColors
    match scanFile find request settings.limit path with
    | .error fault => { fault, colors }
    | .ok (text, scan) =>
      let design := scan.design
      let remarks := design.diagnostics.map fun remark => Note.diagnosed path remark.message
      let mismatched := if request.check then mismatches design else []
      { output :=
          present request colors text design ++
          String.join (mismatched.map fun (process, report) =>
            warnings path text colors process report)
        notes := scan.notes ++ remarks
        fault :=
          if mismatched.isEmpty then none else some (.sensitivityMismatch mismatched.length)
        colors }

/-- Carries out a request. One for the version is answered with nothing else, and one without a file
with the help text. -/
def run (find : String → Found) (request : Request) : Outcome :=
  if request.version then { output := version ++ "\n" }
  else match request.file with
    | none => { output := help ++ "\n" }
    | some path => runOn find request path

end HdlIndex.Command

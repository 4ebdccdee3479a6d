import HdlIndex.Design
import HdlIndex.Sensitivity
import HdlIndex.Terminal
/-! What is printed about a design file: the summary of its names, and the warnings about its
sensitivity lists. -/
namespace HdlIndex.Command

def summaryTags : List String :=
  ["entity_name", "architecture_name", "package_declaration_name", "library_names",
   "package_names", "include_files", "generics_interface_names", "port_interface_names",
   "signal_constant_variable_names", "component_names", "subprogram_names", "data_type_names",
   "instance_names", "instance_types", "label_names"]

def heading (colors : Bool) (tag : String) : String := if colors then Terminal.blue tag else tag

/-- A category on one line, unless nothing was collected. -/
def summaryLine (design : Design) (colors : Bool) (tag : String) : String :=
  let content := match design.get tag with
    | .text value => value
    | .list values => ", ".intercalate values
    | .conditions _ => ""
  if content.isEmpty then "" else heading colors tag ++ ": " ++ content ++ "\n"

/-- A clocked signal on a line of its own, with the generate conditions around it. -/
def clockedLine (entry : ClockedSignal) : String :=
  let clause :=
    if entry.conditions.isEmpty then "" else " when " ++ " and ".intercalate entry.conditions
  "    " ++ entry.signal.text ++ clause ++ "\n"

/-- The summary: every category that is not empty, then the clocked signals. -/
def summary (design : Design) (colors : Bool) : String :=
  let clocked := design.clocked.entries.toList
  String.join (summaryTags.map (summaryLine design colors)) ++
    (if clocked.isEmpty then "" else heading colors "clocked_signals" ++ ":\n") ++
    String.join (clocked.map clockedLine)

def scopeOf (design : Design) : Scope := ⟨design.isSignal, design.isReadablePort⟩

/-- A warning about a word, at the place where it stands in the file. -/
def warning (path text : String) (colors : Bool) (word : Word) (remark : String) : String :=
  let label := if colors then Terminal.yellow "warning" else "warning"
  path ++ (word.span.locate text).describe ++ ": " ++ label ++ ": " ++ Text.quote word.text ++
    remark ++ "\n"

/-- The warnings about the sensitivity list of a process: about the signals that it lacks, then
about the words that it need not hold. -/
def warnings (path text : String) (colors : Bool) (process : HdlProcess) (report : Report) :
    String :=
  let name := process.label.getD "process"
  String.join (report.missing.map fun word => warning path text colors word
    (" is read in " ++ name ++ " but missing from its sensitivity list")) ++
  String.join (report.superfluous.map fun word => warning path text colors word
    (" is in the sensitivity list of " ++ name ++ " but never read"))

/-- The processes whose sensitivity lists are not as they should be. -/
def mismatches (design : Design) : List (HdlProcess × Report) :=
  (design.processes.map fun process => (process, Sensitivity.check (scopeOf design) process)).filter
    (! ·.2.isClean)

end HdlIndex.Command

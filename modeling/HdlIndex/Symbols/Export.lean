import HdlIndex.Json
import HdlIndex.Symbols.Declarations
import HdlIndex.Symbols.HdlProcess
import HdlIndex.Symbols.Diagnostic
/-! The JSON form of what symbol tables are made of. Lists of entries are written column by
column. -/
namespace HdlIndex

def Json.texts (texts : List String) : Json := .array (texts.map .string)

def Span.toJson (span : Span) : Json :=
  .object [("start", .number span.start), ("end", .number span.stop)]

def Json.words (words : List Word) : Json :=
  .object
    [("values", .texts (words.map (·.text))), ("positions", .array (words.map (·.span.toJson)))]

def Words.toJson (words : Words) : Json := .words words.entries.toList

/-- A declaration list in its columns. Names that are still pending are in the first column only. -/
def Declarations.toJson (list : Declarations) : Json :=
  .object
    [("names", .words list.names), ("modes", .texts list.modes), ("types", .words list.types),
     ("ranges", .texts list.ranges), ("inits", .texts list.inits)]

def ClockedSignals.toJson (signals : ClockedSignals) : Json :=
  .object
    [("signals", .words (signals.entries.toList.map (·.signal))),
     ("conditions", .array (signals.conditions.map .texts))]

def Word.toJson (word : Word) : Json :=
  .object [("text", .string word.text), ("span", word.span.toJson)]

def Role.name : Role → String
  | target => "Target"
  | variableTarget => "VariableTarget"
  | read => "Read"

def BodyWord.toJson (entry : BodyWord) : Json :=
  .object [("word", entry.word.toJson), ("role", .string entry.role.name)]

def HdlProcess.toJson (process : HdlProcess) : Json :=
  .object
    [("label", (process.label.map Json.string).getD .null), ("span", process.span.toJson),
     ("clocked", .bool process.clocked), ("all", .bool process.all),
     ("sensitivity", .array (process.sensitivity.toList.map Word.toJson)),
     ("body", .array (process.body.toList.map BodyWord.toJson))]

def Diagnostic.toJson : Diagnostic → Json
  | truncated offset size =>
    .object [("Truncated", .object [("at", .number offset), ("len", .number size)])]
  | ragged category padded =>
    .object [("Ragged", .object [("category", .string category), ("padded", .number padded)])]
  | unclosedGenerate depth => .object [("UnclosedGenerate", .object [("depth", .number depth)])]

end HdlIndex

import HdlIndex.Language
import HdlIndex.Terminal
import HdlIndex.Text.Quoted
/-! What can go wrong, and how it is put into words. -/
namespace HdlIndex

/-- An advice at the end of a message. -/
inductive Hint where
  /-- Which languages there are. -/
  | languages
  /-- How to choose the language. -/
  | languageOption
  /-- Which colour modes there are. -/
  | colorModes
deriving DecidableEq, Repr

namespace Hint

def advice : Hint → String
  | languages => "supported languages are \"vhdl\" and \"verilog\""
  | languageOption => "use the \"--lang\" option to choose the language explicitly"
  | colorModes => "supported color modes are \"auto\", \"always\" and \"never\""

/-- The paragraph that an advice is added as. -/
def paragraph (hint : Hint) (colors : Bool) : String :=
  let lead := if colors then Terminal.green "hint" else "hint"
  "\n\n" ++ lead ++ ": " ++ Text.continueSentence hint.advice

end Hint

/-- A failure of a request. -/
inductive Fault where
  | unknownLanguage (name : String)
  | undetectedLanguage (path : String)
  | fileUnreadable (path cause : String)
  | configUnreadable (path cause : String)
  | configInvalid (path cause : String)
  | unknownColorMode (name : String)
  | jsonFailed (cause : String)
  | sensitivityMismatch (count : Nat)
  | unknownRegion (language : Language) (name : String)
deriving DecidableEq, Repr

namespace Fault

/-- The wording of a failure. With `colors` the word that leads an advice is green. A cause that was
reported by someone else continues the sentence. -/
def message (fault : Fault) (colors : Bool) : String :=
  match fault with
  | unknownLanguage name =>
    "unknown language " ++ Text.quote name ++ Hint.languages.paragraph colors
  | undetectedLanguage path =>
    "cannot detect the language of " ++ Text.quote path ++ Hint.languageOption.paragraph colors
  | fileUnreadable path cause =>
    "failed to read file " ++ Text.quote path ++ ": " ++ Text.continueSentence cause
  | configUnreadable path cause =>
    "failed to read configuration " ++ Text.quote path ++ ": " ++ Text.continueSentence cause
  | configInvalid path cause =>
    "invalid configuration " ++ Text.quote path ++ ": " ++ Text.continueSentence cause
  | unknownColorMode name =>
    "unknown color mode " ++ Text.quote name ++ Hint.colorModes.paragraph colors
  | jsonFailed cause => "failed to serialize symbol table: " ++ Text.continueSentence cause
  | sensitivityMismatch count =>
    toString count ++ " process(es) have incomplete or superfluous sensitivity lists"
  | unknownRegion language name =>
    "unknown " ++ language.name ++ " start region " ++ Text.quote name

end Fault

def Language.read (name : String) : Except Fault Language :=
  match ofName? name with
  | some language => .ok language
  | none => .error (.unknownLanguage name)

end HdlIndex

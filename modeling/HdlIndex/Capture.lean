import HdlIndex.Token.Basic
/-! Collecting the text of an expression from its tokens. A run of blanks becomes one space, and
none is left at either end. -/
namespace HdlIndex

/-- The characters collected so far, the latest first. Blanks and string contents are offered to a
capture only while it is active. -/
structure Capture where
  reversed : List Char
  active : Bool
deriving DecidableEq, Repr, Inhabited

namespace Capture

def idle : Capture := ⟨[], false⟩

def fresh : Capture := ⟨[], true⟩

def pushText (capture : Capture) (text : String) : Capture :=
  { capture with reversed := text.toList.reverse ++ capture.reversed }

/-- Adds one space, unless there is one already or nothing stands before it. -/
def pushBlank (capture : Capture) : Capture :=
  match capture.reversed with
  | [] | ' ' :: _ => capture
  | reversed => { capture with reversed := ' ' :: reversed }

/-- Adds a token. The empty token, which stands between two delimiters, adds nothing, and a blank
one adds one space, whatever blanks it is made of. A run with a vertical tab is not blank and is
added as it is. -/
def push (capture : Capture) (token : Token) : Capture :=
  if token.isEmpty then capture
  else if token.isBlank then capture.pushBlank
  else capture.pushText token.text

/-- Adds a token to a collection under way. Outside of one the token is lost. -/
def absorb (capture : Capture) (token : Token) : Capture :=
  if capture.active then capture.push token else capture

/-- The collected text without blanks at its ends. -/
def text (capture : Capture) : String :=
  String.ofList (Text.trim capture.reversed.reverse)

def take (capture : Capture) : String × Capture := (capture.text, idle)

def isEmpty (capture : Capture) : Bool := capture.reversed.all Text.isBlank

end Capture

end HdlIndex

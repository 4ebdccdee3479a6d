import HdlIndex.Verilog.Symbol
/-! The lexical reading of a Verilog token list. It separates comments, compiler directives and
string contents from the words that the walk through the regions is made of. It looks at tokens
only, so it is the same whatever region a scan starts in. -/
namespace HdlIndex.Verilog

/-- One step of a reading. -/
inductive Event where
  /-- A whole comment. -/
  | comment (span : Span)
  /-- A whole directive line. -/
  | directive (span : Span)
  /-- Blanks, quotes and the contents of strings: they belong to an expression that is being
  collected, and to nothing else. -/
  | filler (token : Token)
  /-- A word or a delimiter, with the word after it. -/
  | word (here : Lexeme) (next : Option Lexeme)
  /-- The closing token was met outside of comments, strings and directives. -/
  | ended (offset : Nat)
deriving DecidableEq, Repr

/-- What a reader is inside of. Comments and directives remember where they opened. -/
inductive Mode where
  | code
  | lineComment (start : Nat)
  | blockComment (start : Nat)
  | string
  | directive (start : Nat)
deriving DecidableEq, Repr

/-- A reading under way. The events it has added are not looked at again. -/
structure Reader where
  mode : Mode := .code
  /-- The token passed last. -/
  passed : Option Token := none
  events : Array Event := #[]

namespace Reader

/-- The token passed last ends with a backslash, which keeps a quote from closing a string. -/
def isEscaped (reader : Reader) : Bool :=
  reader.passed.any fun token => token.text.toList.getLast? = some '\\'

def emit (reader : Reader) (event : Event) : Reader :=
  { reader with events := reader.events.push event }

/-- Reads a token outside of comments, strings and directives. -/
def readCode (reader : Reader) (token : Token) (rest : List Token) : Reader :=
  if token.text = "//" then { reader with mode := .lineComment token.span.start }
  else if token.text = "/*" then { reader with mode := .blockComment token.span.start }
  else if token.text = "\"" then { reader.emit (.filler token) with mode := .string }
  else if token.isSentinel then reader.emit (.ended token.span.start)
  else if isLineDirective token.text then { reader with mode := .directive token.span.start }
  else if token.isBlank then reader.emit (.filler token)
  else
    let next := (Token.nextSignificant comments none rest).map Lexeme.ofToken
    reader.emit (.word (.ofToken token) next)

/-- Reads one token. A new-line closes a line comment or a directive without belonging to it; the
closer of a block comment belongs to the comment. -/
def read (reader : Reader) (token : Token) (rest : List Token) : Reader :=
  let reader' :=
    match reader.mode with
    | .lineComment start =>
      if token.text = "\n" then
        { reader.emit (.comment ⟨start, token.span.start⟩) with mode := .code }
      else reader
    | .blockComment start =>
      if token.text = "*/" then
        { reader.emit (.comment ⟨start, token.span.stop⟩) with mode := .code }
      else reader
    | .directive start =>
      if token.text = "\n" || token.isSentinel then
        { reader.emit (.directive ⟨start, token.span.start⟩) with mode := .code }
      else reader
    | .string =>
      let mode : Mode := if token.text = "\"" && ! reader.isEscaped then .code else .string
      { reader.emit (.filler token) with mode }
    | .code => reader.readCode token rest
  { reader' with passed := some token }

def readAll : Reader → List Token → Reader
  | reader, [] => reader
  | reader, token :: rest => (reader.read token rest).readAll rest

/-- Ends the reading of a text of `size` bytes. A comment or a directive that is still open reaches
to the end of the text. -/
def finish (reader : Reader) (size : Nat) : Array Event :=
  match reader.mode with
  | .lineComment start | .blockComment start => reader.events.push (.comment ⟨start, size⟩)
  | .directive start => reader.events.push (.directive ⟨start, size⟩)
  | .code | .string => reader.events

end Reader

/-- The events of a token list taken from a text of `size` bytes. -/
def readEvents (size : Nat) (tokens : List Token) : List Event :=
  ((Reader.readAll {} tokens).finish size).toList

def Event.comment? : Event → Option Span
  | comment span => some span
  | _ => none

def Event.directive? : Event → Option Span
  | directive span => some span
  | _ => none

def Event.keyword? : Event → Option Span
  | word here _ => if here.symbol.isKeyword then some here.span else none
  | _ => none

end HdlIndex.Verilog

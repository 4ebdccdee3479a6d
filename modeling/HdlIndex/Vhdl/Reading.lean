import HdlIndex.Vhdl.Symbol
/-! The lexical reading of a VHDL token list. It separates comments and string contents from the
words that the walk through the regions is made of. It looks at tokens only, so it is the same
whatever region a scan starts in. -/
namespace HdlIndex.Vhdl

/-- One step of a reading. -/
inductive Event where
  /-- A whole comment. -/
  | comment (span : Span)
  /-- Blanks, quotes and the contents of strings and of some character literals: they belong to an
  expression that is being collected, and to nothing else. -/
  | filler (token : Token)
  /-- A word or a delimiter, with the words before and after it. -/
  | word (here : Lexeme) (before next : Option Lexeme)
deriving DecidableEq, Repr

/-- What a reader is inside of. Comments remember where they opened. -/
inductive Mode where
  | code
  | lineComment (start : Nat)
  | blockComment (start : Nat)
  | string
deriving DecidableEq, Repr

/-- A reading under way. The events it has added are not looked at again. -/
structure Reader where
  mode : Mode := .code
  /-- The two tokens passed last, the latest first. -/
  passed : Option Token × Option Token := (none, none)
  /-- The word passed last. -/
  before : Option Lexeme := none
  events : Array Event := #[]

namespace Reader

/-- The token between `passed` and `rest` is the character of a literal such as `'('`: two ticks
stand around it, and nothing between. The tokenizer leaves an empty word on each side of it. -/
def isCharacter (reader : Reader) (rest : List Token) : Bool :=
  match reader.passed, rest with
  | (some last, some earlier), following :: closing :: _ =>
    earlier.text = "'" && last.isEmpty && following.isEmpty && closing.text = "'"
  | _, _ => false

def isPunctuation (text : String) : Bool :=
  text = "(" || text = ")" || text = ";" || text = ","

def emit (reader : Reader) (event : Event) : Reader :=
  { reader with events := reader.events.push event }

/-- Reads a token outside of comments and strings. -/
def readCode (reader : Reader) (token : Token) (rest : List Token) : Reader :=
  if token.text = "--" then { reader with mode := .lineComment token.span.start }
  else if token.text = "/*" then { reader with mode := .blockComment token.span.start }
  else if token.text = "\"" then
    let mode := if reader.isCharacter rest then reader.mode else .string
    { reader.emit (.filler token) with mode }
  else if (isPunctuation token.text && reader.isCharacter rest) || token.isBlank then
    reader.emit (.filler token)
  else
    let here := Lexeme.ofToken token
    let next := (Token.nextSignificant comments none rest).map Lexeme.ofToken
    { reader.emit (.word here reader.before next) with before := some here }

/-- Reads one token. A new-line closes a line comment without belonging to it; the closer of a block
comment belongs to the comment. -/
def read (reader : Reader) (token : Token) (rest : List Token) : Reader :=
  let reader' :=
    match reader.mode with
    | .lineComment start =>
      if token.text = "\n" then
        { reader.emit (.comment ⟨start, token.span.start⟩) with mode := .code }
      else reader
    | .blockComment start =>
      if token.text = "*/" then
        { reader.emit (.comment ⟨start, token.span.stop⟩) with mode := .code }
      else reader
    | .string =>
      let mode : Mode := if token.text = "\"" then .code else .string
      { reader.emit (.filler token) with mode }
    | .code => reader.readCode token rest
  { reader' with passed := (some token, reader.passed.1) }

def readAll : Reader → List Token → Reader
  | reader, [] => reader
  | reader, token :: rest => (reader.read token rest).readAll rest

/-- Ends the reading of a text of `size` bytes. A comment that is still open reaches to the end of
the text. -/
def finish (reader : Reader) (size : Nat) : Array Event :=
  match reader.mode with
  | .lineComment start | .blockComment start => reader.events.push (.comment ⟨start, size⟩)
  | .code | .string => reader.events

end Reader

/-- The events of a token list taken from a text of `size` bytes. -/
def readEvents (size : Nat) (tokens : List Token) : List Event :=
  ((Reader.readAll {} tokens).finish size).toList

def Event.comment? : Event → Option Span
  | comment span => some span
  | _ => none

def Event.keyword? : Event → Option Span
  | word here _ _ => if here.symbol.isKeyword then some here.span else none
  | _ => none

end HdlIndex.Vhdl

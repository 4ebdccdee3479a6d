import HdlIndex.Span
import HdlIndex.Text.Basic
/-! Tokens: pieces of a scanned text, each with the range it was taken from. -/
namespace HdlIndex

/-- A piece of text and where it stands. -/
structure Token where
  text : String
  span : Span
deriving DecidableEq, Repr, Inhabited

namespace Token

/-- The text of the token that may close a token list. No source text is meant by it. -/
def sentinelText : String := "End-Of-File"

def sentinel (offset : Nat) : Token := ⟨sentinelText, .empty offset⟩

/-- Only the closing token has this text without covering any byte: the same words in a source text
cover their bytes. -/
def isSentinel (token : Token) : Bool :=
  token.text == sentinelText && token.span.isEmpty

def isEmpty (token : Token) : Bool := token.text.isEmpty

/-- All characters are ASCII blanks, new-lines included. The empty token is blank. -/
def isBlank (token : Token) : Bool := token.text.toList.all Text.isAsciiBlank

end Token

/-- Looks for the first token that is neither blank nor inside a comment. A comment opens with the
first member of a pair and closes with the second; `closer` is set while one is open. A comment
that is never closed hides the rest. -/
def Token.nextSignificant (comments : List (String × String)) :
    (closer : Option String) → List Token → Option Token
  | _, [] => none
  | some closer, token :: rest =>
    nextSignificant comments (if token.text = closer then none else some closer) rest
  | none, token :: rest =>
    if token.isBlank then nextSignificant comments none rest
    else match comments.find? (·.1 = token.text) with
      | some (_, closer) => nextSignificant comments (some closer) rest
      | none => some token

end HdlIndex

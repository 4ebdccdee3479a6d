import HdlIndex.Span
import HdlIndex.Text.Letter
/-! Words with the range they were found at, and lists of them. -/
namespace HdlIndex

/-- The word starts like an identifier: with a letter, an underscore, or the backslash of an
extended identifier. What follows is not looked at. -/
def isNameLike (text : String) : Bool :=
  match text.toList with
  | [] => false
  | c :: _ => Text.isLetter c || c == '_' || c == '\\'

/-- The part of a selected name before its first point: `r` of `r.field`. -/
def baseName (text : String) : String :=
  String.ofList (text.toList.takeWhile (· != '.'))

/-- A text taken from the source, and where. -/
structure Word where
  text : String
  span : Span
deriving DecidableEq, Repr, Inhabited

namespace Word

/-- The record or the unit that a selected name begins with. -/
def base (word : Word) : String := baseName word.text

/-- The base of a word, located at the bytes it covers. -/
def stem (word : Word) : Word :=
  ⟨word.base, ⟨word.span.start, word.span.start + word.base.utf8ByteSize⟩⟩

end Word

structure Words where
  entries : Array Word := #[]
deriving DecidableEq, Repr, Inhabited

namespace Words

def push (words : Words) (word : Word) : Words := ⟨words.entries.push word⟩

/-- Replaces the word at an index. An index past the end changes nothing. -/
def set (words : Words) (index : Nat) (word : Word) : Words :=
  ⟨words.entries.setIfInBounds index word⟩

def size (words : Words) : Nat := words.entries.size

def isEmpty (words : Words) : Bool := words.entries.isEmpty

def texts (words : Words) : List String := words.entries.toList.map (·.text)

def spans (words : Words) : List Span := words.entries.toList.map (·.span)

def find? (words : Words) (text : String) : Option Nat :=
  words.entries.findIdx? (·.text == text)

def contains (words : Words) (text : String) : Bool :=
  words.entries.any (·.text == text)

/-- The text of the first word, or the empty text. -/
def first (words : Words) : String :=
  match words.entries[0]? with
  | some word => word.text
  | none => ""

end Words

end HdlIndex

/-! Byte ranges into a scanned text, and the line and column they stand for. Offsets count the
bytes of the text's UTF-8 form, so a range that cuts a character holds no text. -/
namespace HdlIndex

/-- The half-open byte range from `start` up to, and without, `stop`. The two ends are not ordered
by construction: a range whose end precedes its start is empty of text. -/
structure Span where
  start : Nat
  stop : Nat
deriving DecidableEq, Repr, Inhabited

namespace Span

def empty (offset : Nat) : Span := ⟨offset, offset⟩

def isEmpty (span : Span) : Bool := span.start == span.stop

/-- The number of bytes, where the ends are in order. -/
def length? (span : Span) : Option Nat :=
  if span.start ≤ span.stop then some (span.stop - span.start) else none

/-- From the start of one range to the end of another, but never backwards. -/
def through (span last : Span) : Span := ⟨span.start, max last.stop span.start⟩

/-- The text at a range. It is empty when an end lies outside of the text or inside a character,
and when the ends are out of order. -/
def slice (span : Span) (text : String) : String :=
  match text.pos? ⟨span.start⟩, text.pos? ⟨span.stop⟩ with
  | some first, some last => String.extract first last
  | _, _ => ""

/-- The written form of a range, such as `[3, 7]`. -/
def describe (span : Span) : String :=
  "[" ++ toString span.start ++ ", " ++ toString span.stop ++ "]"

end Span

/-- A place in a text as people count it: lines from one, and the characters that precede it on
its line. -/
structure Position where
  line : Nat
  column : Nat
deriving DecidableEq, Ord, Repr, Inhabited

namespace Position

def first : Position := ⟨1, 0⟩

/-- The position after one more character. A new-line begins the next line. -/
def advance (position : Position) (c : Char) : Position :=
  if c = '\n' then ⟨position.line + 1, 0⟩ else ⟨position.line, position.column + 1⟩

def compare (p q : Position) : Ordering :=
  match Ord.compare p.line q.line with
  | .eq => Ord.compare p.column q.column
  | order => order

/-- The written form of a position, such as `:2:7`. -/
def describe (position : Position) : String :=
  ":" ++ toString position.line ++ ":" ++ toString position.column

/-- Steps over the characters that begin before byte `goal`, the first of them at byte `offset`. -/
def seek (goal : Nat) : List Char → Nat → Position → Position
  | [], _, position => position
  | c :: rest, offset, position =>
    if offset < goal then seek goal rest (offset + c.utf8Size) (position.advance c) else position

end Position

/-- The position of a range's start in `text`. A start past the end is located at the end. -/
def Span.locate (span : Span) (text : String) : Position :=
  Position.seek span.start text.toList 0 Position.first

end HdlIndex

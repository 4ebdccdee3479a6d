import HdlIndex.Token.Basic
/-! Splitting a text into words and the delimiters between them. A delimiter list is tried in order,
so that of two patterns that match at one place the earlier wins. Words and delimiters alternate and
follow each other without a gap, so that together they are the part of the text that was read. -/
namespace HdlIndex

/-- A fixed text, or a run of blanks within one line. -/
inductive Delimiter where
  | literal (text : List Char)
  | blank
deriving DecidableEq, Repr

namespace Delimiter

def ofString (text : String) : Delimiter := .literal text.toList

/-- Space, tab, carriage return, vertical tab and form feed. New-lines stay out, because they end
line comments. -/
def isGap (c : Char) : Bool :=
  c == ' ' || c == '\t' || c == '\r' || c == '\x0b' || c == '\x0c'

/-- The number of characters that a delimiter takes from the front, if it matches there. An empty
literal never matches. -/
def take? : Delimiter → List Char → Option Nat
  | literal [], _ => none
  | literal (c :: text), chars =>
    if (c :: text).isPrefixOf chars then some (text.length + 1) else none
  | blank, chars =>
    match (chars.takeWhile isGap).length with
    | 0 => none
    | count + 1 => some (count + 1)

/-- What the first matching delimiter of a list takes. -/
def takeFirst? (delimiters : List Delimiter) (chars : List Char) : Option Nat :=
  delimiters.findSome? (·.take? chars)

/-- A delimiter takes at least one character. -/
theorem take?_pos {delimiter : Delimiter} {chars : List Char} {count : Nat}
    (h : delimiter.take? chars = some count) : 0 < count := by
  unfold take? at h
  split at h
  · simp at h
  · split at h <;> simp_all; omega
  · split at h <;> simp_all; omega

/-- So does a list of delimiters. -/
theorem takeFirst?_pos {delimiters : List Delimiter} {chars : List Char} {count : Nat}
    (h : takeFirst? delimiters chars = some count) : 0 < count := by
  obtain ⟨delimiter, _, hd⟩ := List.exists_of_findSome?_eq_some h
  exact take?_pos hd

end Delimiter

/-- The default ceiling on the bytes that are read of a text. -/
def defaultSizeLimit : Nat := 100000

/-- The characters before the leftmost delimiter, the delimiter, and what follows it. -/
structure Cut where
  word : List Char
  delimiter : List Char
  rest : List Char

/-- Cuts at the leftmost place where a delimiter matches. `before` holds the characters passed so
far, the latest first. -/
def cutFrom? (delimiters : List Delimiter) (before : List Char) : List Char → Option Cut
  | [] => none
  | c :: chars =>
    match Delimiter.takeFirst? delimiters (c :: chars) with
    | some count => some ⟨before.reverse, (c :: chars).take count, (c :: chars).drop count⟩
    | none => cutFrom? delimiters (c :: before) chars

def cut? (delimiters : List Delimiter) (chars : List Char) : Option Cut :=
  cutFrom? delimiters [] chars

/-- What follows a cut is shorter than the text that was cut. -/
theorem length_rest_of_cutFrom? {delimiters : List Delimiter} {before chars : List Char} {cut : Cut}
    (h : cutFrom? delimiters before chars = some cut) : cut.rest.length < chars.length := by
  induction chars generalizing before with
  | nil => simp [cutFrom?] at h
  | cons c chars ih =>
    rw [cutFrom?] at h
    split at h
    · next count hc =>
      have := Delimiter.takeFirst?_pos hc
      cases h
      simp only [List.length_drop, List.length_cons]
      omega
    · exact Nat.lt_succ_of_lt (ih h)

/-- The tokens of a text and the byte offset at which reading ended. It is the size of the text
unless a size limit stopped the reading. -/
structure Tokens where
  list : List Token
  scanned : Nat

/-- Reads on at byte `offset`. A limit stops the reading in front of the first word that begins
beyond it. The last word is followed by an empty delimiter, unless the list is closed by a
sentinel. -/
def splitFrom (delimiters : List Delimiter) (limit : Option Nat) (closed : Bool) (offset : Nat)
    (chars : List Char) (done : Array Token) : Array Token × Nat :=
  match chars with
  | [] => (done, offset)
  | c :: chars =>
    if limit.any (· < offset) then (done, offset)
    else match _h : cut? delimiters (c :: chars) with
      | some ⟨word, delimiter, rest⟩ =>
        let word := String.ofList word
        let delimiter := String.ofList delimiter
        let middle := offset + word.utf8ByteSize
        let next := middle + delimiter.utf8ByteSize
        splitFrom delimiters limit closed next rest
          ((done.push ⟨word, ⟨offset, middle⟩⟩).push ⟨delimiter, ⟨middle, next⟩⟩)
      | none =>
        let word := String.ofList (c :: chars)
        let next := offset + word.utf8ByteSize
        let done := done.push ⟨word, ⟨offset, next⟩⟩
        (if closed then done else done.push ⟨"", .empty next⟩, next)
termination_by chars.length
decreasing_by exact length_rest_of_cutFrom? _h

/-- Splits a text at its delimiters. With `closed` a sentinel stands at the end of the list, at the
offset where reading ended. -/
def tokenize (delimiters : List Delimiter) (limit : Option Nat) (closed : Bool) (text : String) :
    Tokens :=
  let (done, scanned) := splitFrom delimiters limit closed 0 text.toList #[]
  ⟨(if closed then done.push (.sentinel scanned) else done).toList, scanned⟩

end HdlIndex

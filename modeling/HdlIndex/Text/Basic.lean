/-! White space and letter case. Two sets of characters count as white space: the five ASCII blanks
that make a token blank, and the characters with the Unicode property `White_Space`, which are
trimmed from collected text. Only the ASCII letters have a case, so folding a text keeps every byte
offset. -/
namespace HdlIndex.Text

/-- Space, tab, new-line, form feed and carriage return. A vertical tab is not among them. -/
def isAsciiBlank (c : Char) : Bool :=
  c == ' ' || c == '\t' || c == '\n' || c == '\x0c' || c == '\r'

/-- The Unicode property `White_Space`. -/
def isBlank (c : Char) : Bool :=
  (9 ≤ c.toNat && c.toNat ≤ 13) || c.toNat == 0x20 || c.toNat == 0x85 || c.toNat == 0xA0 ||
  c.toNat == 0x1680 || (0x2000 ≤ c.toNat && c.toNat ≤ 0x200A) || c.toNat == 0x2028 ||
  c.toNat == 0x2029 || c.toNat == 0x202F || c.toNat == 0x205F || c.toNat == 0x3000

/-- Every blank that separates words on a line is trimmed as well. -/
theorem isBlank_of_isAsciiBlank {c : Char} (h : isAsciiBlank c = true) : isBlank c = true := by
  simp only [isAsciiBlank, Bool.or_eq_true, beq_iff_eq] at h
  rcases h with (((rfl | rfl) | rfl) | rfl) | rfl <;> decide

def trimEnd (chars : List Char) : List Char :=
  (chars.reverse.dropWhile isBlank).reverse

def trim (chars : List Char) : List Char :=
  trimEnd (chars.dropWhile isBlank)

/-- The first run of characters that are not blank, if there is one. -/
def firstWord? (chars : List Char) : Option (List Char) :=
  match (chars.dropWhile isBlank).takeWhile (! isBlank ·) with
  | [] => none
  | word => some word

/-- The text with its ASCII capitals in lower case. Letters beyond ASCII stay as they are, so that
every byte keeps its offset. -/
def foldCase (text : String) : String :=
  String.ofList (text.toList.map Char.toLower)

/-- A word of several bytes without a lower-case ASCII letter, such as `TOML`, or a number. -/
def isAcronym (word : List Char) : Bool :=
  1 < (String.ofList word).utf8ByteSize && ! word.any Char.isLower

/-- A message as the continuation of a sentence: its first character loses its capital, unless its
first word is an acronym. -/
def continueSentence (message : String) : String :=
  match firstWord? message.toList with
  | none => message
  | some word =>
    if isAcronym word then message
    else match message.toList with
      | [] => message
      | c :: rest => String.ofList (c.toLower :: rest)

end HdlIndex.Text

/-! The scalars of a TOML document: strings, numbers, and dates and times. Dates, times and floating
point numbers are recognised and not kept, because no setting is one. -/
namespace HdlIndex.Settings

/-- A scalar. -/
inductive Scalar where
  | text (value : String)
  | integer (value : Int)
  | boolean (value : Bool)
  /-- A floating point number. -/
  | float
  /-- A date, a time, or both. -/
  | date
deriving DecidableEq, Repr

namespace Scalar

/-- Characters that stand for themselves in strings of one line and in comments: tabs, and
everything that is no control character. -/
def isPlain (c : Char) : Bool := c == '\t' || (0x20 ≤ c.toNat && c.toNat ≠ 0x7F)

def hexDigit? (c : Char) : Option Nat :=
  if c.isDigit then some (c.toNat - 48)
  else if 'a' ≤ c && c ≤ 'f' then some (c.toNat - 87)
  else if 'A' ≤ c && c ≤ 'F' then some (c.toNat - 55)
  else none

/-- The character with a code point written in hexadecimal digits. -/
def codePoint? (digits : List Char) : Option Char := do
  let value ← digits.foldlM (fun value digit => (hexDigit? digit).map (16 * value + ·)) 0
  if h : value.isValidChar then some (Char.ofNatAux value h) else none

/-- The character that a one-letter escape stands for. -/
def escaped? (c : Char) : Option Char :=
  match c with
  | 'b' => some '\x08'
  | 't' => some '\t'
  | 'n' => some '\n'
  | 'f' => some '\x0c'
  | 'r' => some '\r'
  | '"' => some '"'
  | '\\' => some '\\'
  | _ => none

/-- What an escape stands for, and what follows it. The backslash is passed already. -/
def escape? : List Char → Option (Char × List Char)
  | 'u' :: a :: b :: c :: d :: rest => (codePoint? [a, b, c, d]).map (·, rest)
  | 'U' :: a :: b :: c :: d :: e :: f :: g :: h :: rest =>
    (codePoint? [a, b, c, d, e, f, g, h]).map (·, rest)
  | c :: rest => (escaped? c).map (·, rest)
  | [] => none

/-- An escape is followed by less text than it was read from. -/
theorem length_of_escape? {chars rest : List Char} {c : Char} (h : escape? chars = some (c, rest)) :
    rest.length < chars.length := by
  unfold escape? at h
  split at h
  · obtain ⟨_, _, h⟩ := Option.map_eq_some_iff.1 h
    cases h; simp only [List.length_cons]; omega
  · obtain ⟨_, _, h⟩ := Option.map_eq_some_iff.1 h
    cases h; simp only [List.length_cons]; omega
  · obtain ⟨_, _, h⟩ := Option.map_eq_some_iff.1 h
    cases h; simp
  · simp at h

/-- Reads a string in double quotes. The opening quote is passed already. `done` holds the
characters read so far, the latest first. -/
def basic? (chars done : List Char) : Option (String × List Char) :=
  match chars with
  | [] => none
  | '"' :: rest => some (String.ofList done.reverse, rest)
  | '\\' :: rest =>
    match _h : escape? rest with
    | some (c, rest') => basic? rest' (c :: done)
    | none => none
  | c :: rest => if isPlain c then basic? rest (c :: done) else none
termination_by chars.length
decreasing_by
  · have := length_of_escape? _h
    simp only [List.length_cons]; omega
  · simp

/-- Reads a string in single quotes, which has no escapes. -/
def literal? : List Char → (done : List Char) → Option (String × List Char)
  | [], _ => none
  | '\'' :: rest, done => some (String.ofList done.reverse, rest)
  | c :: rest, done => if isPlain c then literal? rest (c :: done) else none

/-- The line holds nothing but blanks up to its end. -/
def endsLine : List Char → Bool
  | ' ' :: rest | '\t' :: rest => endsLine rest
  | '\n' :: _ | '\r' :: '\n' :: _ => true
  | _ => false

/-- Reads a string of several lines in double quotes. While `skipping`, blanks and new-lines are
left out: a backslash at the end of a line joins it with what follows. Two quotes may stand in front
of the closing ones. -/
def multilineBasic? (chars done : List Char) (skipping : Bool) : Option (String × List Char) :=
  match chars with
  | [] => none
  | '"' :: '"' :: '"' :: '"' :: '"' :: rest =>
    some (String.ofList ('"' :: '"' :: done).reverse, rest)
  | '"' :: '"' :: '"' :: '"' :: rest => some (String.ofList ('"' :: done).reverse, rest)
  | '"' :: '"' :: '"' :: rest => some (String.ofList done.reverse, rest)
  | '\r' :: '\n' :: rest | '\n' :: rest =>
    multilineBasic? rest (if skipping then done else '\n' :: done) skipping
  | '\\' :: rest =>
    if endsLine rest then multilineBasic? rest done true
    else match _h : escape? rest with
      | some (c, rest') => multilineBasic? rest' (c :: done) false
      | none => none
  | c :: rest =>
    if skipping && (c == ' ' || c == '\t') then multilineBasic? rest done true
    else if isPlain c then multilineBasic? rest (c :: done) false
    else none
termination_by chars.length
decreasing_by
  all_goals try (simp only [List.length_cons]; omega)
  have := length_of_escape? _h
  simp only [List.length_cons]; omega

/-- Reads a string of several lines in single quotes. -/
def multilineLiteral? : List Char → (done : List Char) → Option (String × List Char)
  | [], _ => none
  | '\'' :: '\'' :: '\'' :: '\'' :: '\'' :: rest, done =>
    some (String.ofList ('\'' :: '\'' :: done).reverse, rest)
  | '\'' :: '\'' :: '\'' :: '\'' :: rest, done => some (String.ofList ('\'' :: done).reverse, rest)
  | '\'' :: '\'' :: '\'' :: rest, done => some (String.ofList done.reverse, rest)
  | '\r' :: '\n' :: rest, done | '\n' :: rest, done => multilineLiteral? rest ('\n' :: done)
  | c :: rest, done => if isPlain c then multilineLiteral? rest (c :: done) else none

/-- A new-line right behind the opening quotes does not belong to the string. -/
def dropNewLine : List Char → List Char
  | '\r' :: '\n' :: rest | '\n' :: rest => rest
  | chars => chars

/-- Reads a string of any of the four kinds. Three quotes are tried before one. -/
def string? : List Char → Option (String × List Char)
  | '"' :: '"' :: '"' :: rest => multilineBasic? (dropNewLine rest) [] false
  | '"' :: rest => basic? rest []
  | '\'' :: '\'' :: '\'' :: rest => multilineLiteral? (dropNewLine rest) []
  | '\'' :: rest => literal? rest []
  | _ => none

/-- The digits of a number, without the underscores that may stand between two of them. -/
def digits? (isDigit : Char → Bool) : List Char → Option (List Char)
  | [] => none
  | [c] => if isDigit c then some [c] else none
  | c :: '_' :: rest => if isDigit c then (digits? isDigit rest).map (c :: ·) else none
  | c :: rest => if isDigit c then (digits? isDigit rest).map (c :: ·) else none

def ofDigits (base : Nat) (digits : List Char) : Nat :=
  digits.foldl (fun value digit => base * value + (hexDigit? digit).getD 0) 0

/-- Reads a whole number without a sign in a base that a letter stands for. -/
def based? : List Char → Option Nat
  | '0' :: 'x' :: rest => (digits? (hexDigit? · |>.isSome) rest).map (ofDigits 16)
  | '0' :: 'o' :: rest => (digits? (fun c => '0' ≤ c && c ≤ '7') rest).map (ofDigits 8)
  | '0' :: 'b' :: rest => (digits? (fun c => c == '0' || c == '1') rest).map (ofDigits 2)
  | _ => none

/-- Reads decimal digits that do not begin with an idle zero. -/
def decimal? (chars : List Char) : Option Nat :=
  match chars with
  | '0' :: _ :: _ => none
  | chars => (digits? Char.isDigit chars).map (ofDigits 10)

def takeSign : List Char → Bool × List Char
  | '-' :: rest => (true, rest)
  | '+' :: rest => (false, rest)
  | chars => (false, chars)

/-- Reads a whole number of 64 bits with a sign. -/
def integer? (chars : List Char) : Option Int :=
  let (negative, unsigned) := takeSign chars
  let value? : Option Int :=
    match based? chars, decimal? unsigned with
    | some value, _ => some value
    | none, some value => some (if negative then -value else value)
    | none, none => none
  value?.filter fun value => -0x8000000000000000 ≤ value && value < 0x8000000000000000

def isNumeral (c : Char) : Bool := c.isDigit || c == '_'

/-- A decimal number: its digits without the point, how many of them stand behind the point, and the
power of ten that it is multiplied by. -/
structure Decimal where
  negative : Bool
  digits : Nat
  places : Nat
  exponent : Int
deriving DecidableEq, Repr

namespace Decimal

/-- Reads a power of ten with a sign. From 65536 on, more digits do not add to it. -/
def exponent? (chars : List Char) : Option Int :=
  let (negative, unsigned) := takeSign chars
  (digits? Char.isDigit unsigned).map fun digits =>
    let value : Nat := digits.foldl (fun value digit =>
      if value < 65536 then 10 * value + (digit.toNat - 48) else value) 0
    if negative then -value else value

def ending? : List Char → Option Int
  | [] => some 0
  | c :: rest => if c == 'e' || c == 'E' then exponent? rest else none

/-- Reads a number with a fraction, an exponent or both. -/
def read? (chars : List Char) : Option Decimal :=
  let (negative, unsigned) := takeSign chars
  let word := unsigned.takeWhile isNumeral
  match decimal? word, unsigned.drop word.length with
  | none, _ | _, [] => none
  | some whole, '.' :: rest =>
    let word := rest.takeWhile isNumeral
    match digits? Char.isDigit word, ending? (rest.drop word.length) with
    | some fraction, some exponent =>
      let digits := Nat.pow 10 fraction.length * whole + ofDigits 10 fraction
      some ⟨negative, digits, fraction.length, exponent⟩
    | _, _ => none
  | some whole, rest => (ending? rest).map (⟨negative, whole, 0, ·⟩)

/-- The least number that 64 bits cannot hold: half a unit of the last place above the largest. -/
def ceiling : Nat := (Nat.pow 2 54 - 1) * Nat.pow 2 970

/-- The number is too large. Below zero there is no such bound. -/
def isTooLarge (number : Decimal) : Bool :=
  ! number.negative &&
    ceiling * Nat.pow 10 (number.places + (-number.exponent).toNat)
      ≤ number.digits * Nat.pow 10 number.exponent.toNat

end Decimal

/-- The text is a floating point number: a decimal one that is not too large, or the name of a
special value. -/
def isFloat (chars : List Char) : Bool :=
  let (_, unsigned) := takeSign chars
  unsigned = ['i', 'n', 'f'] || unsigned = ['n', 'a', 'n'] ||
    (Decimal.read? chars).any fun number => ! number.isTooLarge

/-- Exactly `count` decimal digits at the front, as a number, and what follows. -/
def field? (count : Nat) (chars : List Char) : Option (Nat × List Char) :=
  let digits := chars.take count
  if digits.length = count && digits.all Char.isDigit then
    some (ofDigits 10 digits, chars.drop count)
  else none

/-- Takes a date from the front. Any month may have up to 31 days. -/
def takeDate? (chars : List Char) : Option (List Char) := do
  let (_, rest) ← field? 4 chars
  let rest ← (match rest with | '-' :: rest => some rest | _ => none)
  let (month, rest) ← field? 2 rest
  let rest ← (match rest with | '-' :: rest => some rest | _ => none)
  let (day, rest) ← field? 2 rest
  if 1 ≤ month && month ≤ 12 && 1 ≤ day && day ≤ 31 then some rest else none

/-- Takes a time of the day from the front. -/
def takeTime? (chars : List Char) : Option (List Char) := do
  let (hour, rest) ← field? 2 chars
  let rest ← (match rest with | ':' :: rest => some rest | _ => none)
  let (minute, rest) ← field? 2 rest
  let rest ← (match rest with | ':' :: rest => some rest | _ => none)
  let (second, rest) ← field? 2 rest
  if hour ≤ 23 && minute ≤ 59 && second ≤ 60 then
    match rest with
    | '.' :: fraction =>
      let digits := fraction.takeWhile Char.isDigit
      if digits.isEmpty then none else some (fraction.drop digits.length)
    | rest => some rest
  else none

def isOffset (chars : List Char) : Bool :=
  match chars with
  | [] | ['Z'] | ['z'] => true
  | ['+', a, b, ':', c, d] | ['-', a, b, ':', c, d] =>
    match field? 2 [a, b], field? 2 [c, d] with
    | some (hours, _), some (minutes, _) => hours ≤ 23 && minutes ≤ 59
    | _, _ => false
  | _ => false

def isDate (chars : List Char) : Bool :=
  match takeDate? chars with
  | some [] => true
  | some (c :: rest) =>
    (c == 'T' || c == 't' || c == ' ') && (takeTime? rest).any isOffset
  | none => (takeTime? chars).any (·.isEmpty)

def isBare (c : Char) : Bool :=
  c.isAlphanum || c == '+' || c == '-' || c == '_' || c == '.' || c == ':'

/-- The characters of an unquoted scalar, and what follows. A blank belongs to it between a date and
a time. -/
def takeBare (chars : List Char) : List Char × List Char :=
  let word := chars.takeWhile isBare
  match takeDate? word, chars.drop word.length with
  | some [], ' ' :: c :: rest =>
    if c.isDigit then
      let time := (c :: rest).takeWhile isBare
      (word ++ ' ' :: time, (c :: rest).drop time.length)
    else (word, ' ' :: c :: rest)
  | _, rest => (word, rest)

/-- Reads an unquoted scalar. Floating point numbers and dates are recognised, but their values are
not kept. -/
def bare? (word : List Char) : Option Scalar :=
  if word = ['t', 'r', 'u', 'e'] then some (.boolean true)
  else if word = ['f', 'a', 'l', 's', 'e'] then some (.boolean false)
  else match integer? word with
    | some value => some (.integer value)
    | none =>
      if isFloat word then some .float
      else if isDate word then some .date
      else none

def read? (chars : List Char) : Option (Scalar × List Char) :=
  match chars with
  | '"' :: _ | '\'' :: _ => (string? chars).map fun (value, rest) => (.text value, rest)
  | chars => let (word, rest) := takeBare chars; (bare? word).map (·, rest)

end Scalar

end HdlIndex.Settings

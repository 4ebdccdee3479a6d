import HdlIndex.Symbols.Word
import HdlIndex.Token.Split
import HdlIndex.Verilog.Keyword
/-! What a Verilog token means to a scan. Words are compared in the case they are written in. -/
namespace HdlIndex.Verilog

/-- The delimiters of Verilog. Longer ones stand before the shorter ones they begin with. -/
def delimiters : List Delimiter :=
  ["//", "/*", "*/", "\n"].map .ofString ++ [.blank] ++
  ["::", "===", "!==", "==", "!=", "<=", ">=", "<<", ">>", "&&", "||", "(", ")", "[", "]", "\x7b",
   "\x7d", ";", ":", ",", "=", "@", "#", "?", "+", "-", "*", "/", "%", "&", "|", "^", "~", "!", "<",
   ">", "\""].map .ofString

def comments : List (String × String) := [("//", "\n"), ("/*", "*/")]

/-- The meaning of a token. Operators that no rule asks for have none of their own. -/
inductive Symbol where
  /-- The symbol `(`. -/
  | parenOpen
  /-- The symbol `)`. -/
  | parenClose
  /-- The symbol `[`. -/
  | bracketOpen
  /-- The symbol `]`. -/
  | bracketClose
  | braceOpen
  | braceClose
  /-- The symbol `;`. -/
  | semicolon
  /-- The symbol `:`. -/
  | colon
  /-- The symbol `::`. -/
  | scope
  /-- The symbol `,`. -/
  | comma
  /-- The symbol `=`. -/
  | equals
  /-- The symbol `<=`. -/
  | drives
  /-- The symbol `*`. -/
  | star
  /-- The symbol `@`. -/
  | event
  /-- The symbol `#`. -/
  | hash
  /-- The symbol `?`. -/
  | question
  | keyword (word : Keyword)
  /-- Starts like an identifier and is not reserved. -/
  | name
  /-- Literals, operators and all else. -/
  | other
deriving DecidableEq, Repr

namespace Symbol

/-- The meaning of a token's text. Reserved words are no names, and their case counts. -/
def ofText (text : String) : Symbol :=
  match text with
  | "(" => .parenOpen
  | ")" => .parenClose
  | "[" => .bracketOpen
  | "]" => .bracketClose
  | "\x7b" => .braceOpen
  | "\x7d" => .braceClose
  | ";" => .semicolon
  | ":" => .colon
  | "::" => .scope
  | "," => .comma
  | "=" => .equals
  | "<=" => .drives
  | "*" => .star
  | "@" => .event
  | "#" => .hash
  | "?" => .question
  | text =>
    match Keyword.ofText? text with
    | some word => .keyword word
    | none => if isNameLike text then .name else .other

def isWord : Symbol → Bool
  | keyword _ | name => true
  | _ => false

def isKeyword : Symbol → Bool
  | keyword _ => true
  | _ => false

/-- Opens a pair of brackets of any shape. -/
def isOpener : Symbol → Bool
  | parenOpen | bracketOpen | braceOpen => true
  | _ => false

/-- Closes a pair of brackets of any shape. -/
def isCloser : Symbol → Bool
  | parenClose | bracketClose | braceClose => true
  | _ => false

end Symbol

/-- The directions of ports. The word `ref` is one of them without being reserved. -/
def isDirection (text : String) : Bool :=
  match Keyword.ofText? text with
  | some .input | some .output | some .inout => true
  | _ => text = "ref"

/-- The built-in net and variable types, and the words that qualify them. -/
def isDataType : Keyword → Bool
  | .wire | .reg | .logic | .bit | .byte | .int | .integer | .longint | .shortint | .real
  | .realtime | .shortreal | .time | .string | .genvar | .signed | .unsigned | .tri | .tri0 | .tri1
  | .supply0 | .supply1 | .wand | .wor | .uwire | .var => true
  | _ => false

/-- Words that open a block of statements. A `case` is one of them, because it is closed by a word
of its own. -/
def isBlockOpen : Keyword → Bool
  | .begin | .fork | .case | .casex | .casez => true
  | _ => false

/-- Words that close a block of statements. Which word opened it is not checked. -/
def isBlockClose : Keyword → Bool
  | .end | .join | .joinAny | .joinNone | .endcase => true
  | _ => false

/-- The compiler directives whose arguments reach to the end of the line. The use of a macro is not
among them. -/
def lineDirectives : List String :=
  ["`define", "`undef", "`timescale", "`include", "`ifdef", "`ifndef", "`elsif", "`else", "`endif",
   "`default_nettype", "`resetall", "`celldefine", "`endcelldefine", "`pragma", "`line",
   "`unconnected_drive", "`nounconnected_drive"]

def isLineDirective (text : String) : Bool := lineDirectives.contains text

structure Lexeme where
  token : Token
  symbol : Symbol
deriving DecidableEq, Repr

namespace Lexeme

def ofToken (token : Token) : Lexeme := ⟨token, .ofText token.text⟩

def text (lexeme : Lexeme) : String := lexeme.token.text

def span (lexeme : Lexeme) : Span := lexeme.token.span

def word (lexeme : Lexeme) : Word := ⟨lexeme.token.text, lexeme.token.span⟩

end Lexeme

/-- How a symbol is spelled that has but one spelling. -/
def Symbol.spelling? : Symbol → Option String
  | parenOpen => some "("
  | parenClose => some ")"
  | bracketOpen => some "["
  | bracketClose => some "]"
  | braceOpen => some "\x7b"
  | braceClose => some "\x7d"
  | semicolon => some ";"
  | colon => some ":"
  | scope => some "::"
  | comma => some ","
  | equals => some "="
  | drives => some "<="
  | star => some "*"
  | event => some "@"
  | hash => some "#"
  | question => some "?"
  | keyword word => some word.text
  | name | other => none

/-- A text that means such a symbol is its spelling. -/
theorem Symbol.eq_of_spelling? {text spelling : String}
    (h : (Symbol.ofText text).spelling? = some spelling) : text = spelling := by
  unfold ofText at h
  split at h
  all_goals first
    | exact Option.some.inj h
    | skip
  split at h
  · next hWord =>
    obtain rfl := Option.some.inj h
    exact (Keyword.text_of_ofText? hWord).symm
  · split at h <;> cases h

/-- An identifier means a reserved word or a name. -/
theorem Symbol.ofText_of_isNameLike {text : String} (h : isNameLike text = true) :
    Symbol.ofText text = match Keyword.ofText? text with
      | some word => .keyword word
      | none => .name := by
  unfold ofText
  split
  all_goals first
    | cases h
    | skip
  rw [h]
  rfl

theorem Lexeme.symbol_ofToken {token : Token} {text : String} (hText : token.text = text) :
    (Lexeme.ofToken token).symbol = .ofText text := by
  rw [Lexeme.ofToken, hText]

/-- A reserved word starts like an identifier. -/
theorem Keyword.isNameLike_text (word : Keyword) : isNameLike word.text = true := by
  cases word <;> rfl

theorem Symbol.isNameLike_of_isKeyword {text : String} (h : (ofText text).isKeyword = true) :
    isNameLike text = true := by
  cases hSymbol : ofText text with
  | keyword word =>
      have hText : text = word.text := eq_of_spelling? (by rw [hSymbol]; rfl)
      exact hText ▸ word.isNameLike_text
  | _ =>
      rw [hSymbol] at h
      cases h

theorem Symbol.ofText_keyword (word : Keyword) : Symbol.ofText word.text = .keyword word := by
  rw [ofText_of_isNameLike word.isNameLike_text, Keyword.ofText?_text]

theorem Lexeme.symbol_keyword {token : Token} (word : Keyword) (hText : token.text = word.text) :
    (Lexeme.ofToken token).symbol = .keyword word := by
  rw [symbol_ofToken hText, Symbol.ofText_keyword]

end HdlIndex.Verilog

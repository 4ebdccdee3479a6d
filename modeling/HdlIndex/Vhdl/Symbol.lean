import HdlIndex.Symbols.Word
import HdlIndex.Token.Split
import HdlIndex.Vhdl.Keyword
/-! What a VHDL token means to a scan. Tokens are taken from the case-folded text, so a word is
compared in lower case. -/
namespace HdlIndex.Vhdl

/-- The delimiters of VHDL. Longer ones stand before the shorter ones they begin with. -/
def delimiters : List Delimiter :=
  ["--", "/*", "*/", "\n"].map .ofString ++ [.blank] ++
  ["<=", ":=", "=>", ">=", "/=", "**", "(", ")", ";", ":", ",", "'", "\"", "<", ">", "=", "+", "-",
   "*", "/", "&", "|", "[", "]"].map .ofString

def comments : List (String × String) := [("--", "\n"), ("/*", "*/")]

/-- The meaning of a token. Operators that no rule asks for have none of their own. -/
inductive Symbol where
  /-- The symbol `(`. -/
  | parenOpen
  /-- The symbol `)`. -/
  | parenClose
  /-- The symbol `;`. -/
  | semicolon
  /-- The symbol `:`. -/
  | colon
  /-- The symbol `:=`. -/
  | becomes
  /-- The symbol `<=`. -/
  | drives
  /-- The symbol `=>`. -/
  | arrow
  /-- The symbol `'`. -/
  | tick
  | keyword (word : Keyword)
  /-- Starts like an identifier and is not reserved. -/
  | name
  /-- Literals, operators and all else. -/
  | other
deriving DecidableEq, Repr

namespace Symbol

/-- The meaning of a token's text, which is in lower case. Reserved words are no names. -/
def ofText (text : String) : Symbol :=
  match text with
  | "(" => .parenOpen
  | ")" => .parenClose
  | ";" => .semicolon
  | ":" => .colon
  | ":=" => .becomes
  | "<=" => .drives
  | "=>" => .arrow
  | "'" => .tick
  | text =>
    match Keyword.ofText? text with
    | some word => .keyword word
    | none => if isNameLike text then .name else .other

def isWord : Symbol → Bool
  | keyword _ | name => true
  | _ => false

def isKeyword : Symbol → Bool
  | keyword _ => true
  | _ => false

end Symbol

def isMode : Keyword → Bool
  | .in | .out | .inout | .buffer | .linkage => true
  | _ => false

/-- Words that follow `end` where it closes something inside of a design unit or a subprogram. -/
def isCompoundEnd : Keyword → Bool
  | .if | .loop | .case | .record | .units | .protected | .block | .process | .generate
  | .component | .for => true
  | _ => false

/-- The functions that detect a clock edge. -/
def isEdgeFunction (text : String) : Bool :=
  text == "rising_edge" || text == "falling_edge"

structure Lexeme where
  token : Token
  symbol : Symbol
deriving DecidableEq, Repr

namespace Lexeme

def ofToken (token : Token) : Lexeme := ⟨token, .ofText token.text⟩

def text (lexeme : Lexeme) : String := lexeme.token.text

def span (lexeme : Lexeme) : Span := lexeme.token.span

def word (lexeme : Lexeme) : Word := ⟨lexeme.token.text, lexeme.token.span⟩

end Lexeme

/-- How a symbol is spelled that has but one spelling. -/
def Symbol.spelling? : Symbol → Option String
  | parenOpen => some "("
  | parenClose => some ")"
  | semicolon => some ";"
  | colon => some ":"
  | becomes => some ":="
  | drives => some "<="
  | arrow => some "=>"
  | tick => some "'"
  | keyword word => some word.text
  | name | other => none

/-- A text that means such a symbol is its spelling. -/
theorem Symbol.eq_of_spelling? {text spelling : String}
    (h : (Symbol.ofText text).spelling? = some spelling) : text = spelling := by
  unfold ofText at h
  split at h
  all_goals first
    | exact Option.some.inj h
    | skip
  split at h
  · next hWord =>
    obtain rfl := Option.some.inj h
    exact (Keyword.text_of_ofText? hWord).symm
  · split at h <;> cases h

/-- An identifier means a reserved word or a name. -/
theorem Symbol.ofText_of_isNameLike {text : String} (h : isNameLike text = true) :
    Symbol.ofText text = match Keyword.ofText? text with
      | some word => .keyword word
      | none => .name := by
  unfold ofText
  split
  all_goals first
    | cases h
    | skip
  rw [h]
  rfl

theorem Lexeme.symbol_ofToken {token : Token} {text : String} (hText : token.text = text) :
    (Lexeme.ofToken token).symbol = .ofText text := by
  rw [Lexeme.ofToken, hText]

/-- A reserved word starts like an identifier. -/
theorem Keyword.isNameLike_text (word : Keyword) : isNameLike word.text = true := by
  cases word <;> rfl

theorem Symbol.isNameLike_of_isKeyword {text : String} (h : (ofText text).isKeyword = true) :
    isNameLike text = true := by
  cases hSymbol : ofText text with
  | keyword word =>
      have hText : text = word.text := eq_of_spelling? (by rw [hSymbol]; rfl)
      exact hText ▸ word.isNameLike_text
  | _ =>
      rw [hSymbol] at h
      cases h

theorem Lexeme.symbol_keyword {token : Token} (word : Keyword) (hText : token.text = word.text) :
    (Lexeme.ofToken token).symbol = .keyword word := by
  rw [symbol_ofToken hText, Symbol.ofText_of_isNameLike word.isNameLike_text, Keyword.ofText?_text]

end HdlIndex.Vhdl

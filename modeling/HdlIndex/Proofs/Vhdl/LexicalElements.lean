import HdlIndex.Proofs.Token.BlockComment
import HdlIndex.Proofs.Vhdl.EnclosedList
import HdlIndex.Proofs.Vhdl.InterfaceText

/-! Expressions with ticks in them, and their reading token by token. Ticks stand around the
character of a literal, and one stands in front of an attribute and of the parenthesis of a
qualified expression. A parenthesis right between two ticks is taken for the character of a literal,
whatever the ticks stand for; all others are read as words. -/
namespace HdlIndex

open String (utf8Len)

/-- A word, which may be empty, and a delimiter stand in front of the tokens of the rest. -/
theorem SplitsUpTo.cons {delimiters : List Delimiter} {word delimiter rest : List Char}
    {tokens : List Token} {offset : Nat} {opened : Bool}
    (hPlain : ∀ c ∈ word, Delimiter.Plain delimiters c)
    (hFound : Delimiter.takeFirst? delimiters (delimiter ++ rest) = some delimiter.length)
    (hRest : SplitsUpTo delimiters (offset + utf8Len word + utf8Len delimiter) rest tokens opened) :
    SplitsUpTo delimiters offset (word ++ (delimiter ++ rest))
      (.placed offset word :: .placed (offset + utf8Len word) delimiter :: tokens) opened :=
  .cut (cut?_append hPlain hFound) hRest

/-- So does a delimiter alone. -/
theorem SplitsUpTo.cons_delimiter {delimiters : List Delimiter} {delimiter rest : List Char}
    {tokens : List Token} {offset : Nat} {opened : Bool}
    (hFound : Delimiter.takeFirst? delimiters (delimiter ++ rest) = some delimiter.length)
    (hRest : SplitsUpTo delimiters (offset + utf8Len delimiter) rest tokens opened) :
    SplitsUpTo delimiters offset (delimiter ++ rest) (.placed offset [] ::
      .placed offset delimiter :: tokens)
      opened :=
  .cons (List.forall_mem_nil _) hFound hRest

namespace Vhdl

/-- What expressions are written in. -/
inductive LexicalElement where
  /-- A new-line, or blanks within one line. -/
  | blank (text : String)
  /-- A word or a symbol. -/
  | piece (text : String)
  /-- The tick of an attribute or of a qualified expression. -/
  | tick
  | character (c : Char)
  | string (content : String)
deriving DecidableEq, Repr

namespace LexicalElement

/-- The characters of an element. -/
def chars : LexicalElement → List Char
  | blank text | piece text => text.toList
  | tick => ['\'']
  | character c => ['\'', c, '\'']
  | string content => '"' :: (content.toList ++ ['"'])

/-- The element in lower case. -/
def fold : LexicalElement → LexicalElement
  | blank text => blank (Text.foldCase text)
  | piece text => piece (Text.foldCase text)
  | tick => tick
  | character c => character c.toLower
  | string content => string (Text.foldCase content)

/-- The element is an identifier, a reserved word or a number. -/
def isWord : LexicalElement → Bool
  | piece text => ! symbols.contains text
  | _ => false

/-- The element is a parenthesis. -/
def isParenthesis : LexicalElement → Bool
  | piece text => text == "(" || text == ")"
  | _ => false

/-- The element is a string. -/
def isString : LexicalElement → Bool
  | string _ => true
  | _ => false

/-- The element begins and ends with a tick. -/
def isTicked : LexicalElement → Bool
  | tick | character _ => true
  | _ => false

/-- What parentheses are matched by. -/
def mark : LexicalElement → String
  | piece text => text
  | _ => ""

/-- The element can stand in an expression. Vertical tabs are no white space to the tokens, and no
characters of a literal. -/
def isValid : LexicalElement → Bool
  | blank text => text =
      "\n" || (text ≠ "" && text.toList.all fun c => Delimiter.isGap c && Text.isAsciiBlank c)
  | piece text => decide (IsPiece text) && ! [" ", ";", ":=", "end"].contains text
  | tick => true
  | character c => c ≠ '\x0b'
  | string content => ! content.toList.contains '"' && ! content.toList.contains '\x0b'

/-- The character may stand right behind the element: blanks are not cut in two, and symbols do not
merge. -/
def mayPrecede : LexicalElement → Option Char → Bool
  | blank text, next => text = "\n" || ! next.any Delimiter.isGap
  | piece text, next => ! symbols.contains text || ! next.any fun c => decide (Merges text c)
  | _, _ => true

/-- The second element may stand right behind the first one. Two words may not. -/
def meets (element next : LexicalElement) : Bool :=
  element.mayPrecede next.chars.head? && ! (element.isWord && next.isWord)

end LexicalElement

open LexicalElement

/-- The text of the elements. -/
def elementsText (elements : List LexicalElement) : String :=
  String.ofList (elements.flatMap (·.chars))

/-- The elements can be told apart where they stand, and their parentheses match. -/
structure IsExpression (elements : List LexicalElement) : Prop where
  valid : ∀ element ∈ elements, element.isValid = true
  joins : elements.IsChain (·.meets ·)
  balanced : isBalanced true 0 (elements.map (·.mark)) = true

instance (elements : List LexicalElement) : Decidable (IsExpression elements) :=
  decidable_of_iff ((∀ element ∈ elements, element.isValid = true) ∧ elements.IsChain (·.meets ·) ∧
      isBalanced true 0 (elements.map (·.mark)) = true)
    ⟨fun ⟨valid, joins, balanced⟩ => ⟨valid, joins, balanced⟩,
      fun h => ⟨h.valid, h.joins, h.balanced⟩⟩

/-- No parenthesis stands right between two ticks, and no string behind a tick. The flag tells that
a tick stands in front of the elements. -/
def parenthesesApart : (ticked : Bool) → List LexicalElement → Bool
  | _, [] => true
  | ticked, element :: rest =>
    ! (ticked && (element.isString || (element.isParenthesis && rest.head?.any (·.isTicked)))) &&
      parenthesesApart element.isTicked rest

/-- The text is no parenthesis, and nothing that ends an expression or an enclosing construct. -/
def IsQuietText (text : String) : Prop := text ∉ ["(", ")", ";", ":=", "end"]

instance (text : String) : Decidable (IsQuietText text) := inferInstanceAs (Decidable (_ ∉ _))

/-- A quiet text has a quiet meaning. -/
theorem IsQuietText.symbol {text : String} (h : IsQuietText text) :
    Symbol.ofText text ∉ [.parenOpen, .parenClose, .semicolon, .becomes, .keyword .end] := by
  intro hMem
  have hSpelling :
      ∃ spelling ∈ (Symbol.ofText text).spelling?, spelling ∈ ["(", ")", ";", ":=", "end"] := by
    generalize Symbol.ofText text = symbol at hMem
    fin_cases hMem <;> exact ⟨_, rfl, by decide⟩
  obtain ⟨spelling, hText, hEnds⟩ := hSpelling
  obtain rfl := Symbol.eq_of_spelling? hText
  exact h hEnds

namespace Event

/-- The token that an event is of. -/
def token? : Event → Option Token
  | comment _ => none
  | filler token => some token
  | word here _ _ => some here.token

/-- The event neither opens nor closes a parenthesis, and it ends nothing. -/
def IsQuiet : Event → Prop
  | comment _ => False
  | filler _ => True
  | word here _ _ => here.symbol ∉ [.parenOpen, .parenClose, .semicolon, .becomes, .keyword .end]

/-- The events are those of the tokens, and none of them matters to parentheses. -/
structure AreQuiet (tokens : List Token) (events : List Event) : Prop where
  quiet : ∀ event ∈ events, event.IsQuiet
  tokens : events.filterMap token? = tokens

/-- The parentheses among the words match, with a number of them open in front, and no word ends
what they are in. -/
inductive Balanced : (depth : Nat) → List Event → Prop where
  | nil : Balanced 0 []
  | quiet {depth : Nat} {event : Event} {events : List Event} (hQuiet : event.IsQuiet)
      (hRest : Balanced depth events) : Balanced depth (event :: events)
  | opening {depth : Nat} {here : Lexeme} {before next : Option Lexeme} {events : List Event}
      (hSymbol : here.symbol = .parenOpen) (hRest : Balanced (depth + 1) events) :
      Balanced depth (.word here before next :: events)
  | closing {depth : Nat} {here : Lexeme} {before next : Option Lexeme} {events : List Event}
      (hSymbol : here.symbol = .parenClose) (hRest : Balanced depth events) :
      Balanced (depth + 1) (.word here before next :: events)

variable {tokens others : List Token} {events later : List Event} {depth : Nat}

theorem AreQuiet.nil : AreQuiet [] [] := ⟨by simp, rfl⟩

theorem AreQuiet.append (h : AreQuiet tokens events) (h' : AreQuiet others later) :
    AreQuiet (tokens ++ others) (events ++ later) where
  quiet := List.forall_mem_append.2 ⟨h.quiet, h'.quiet⟩
  tokens := by rw [List.filterMap_append, h.tokens, h'.tokens]

theorem Balanced.append_quiet (h : ∀ event ∈ events, event.IsQuiet)
    (hLater : Balanced depth later) : Balanced depth (events ++ later) := by
  induction events with
  | nil => exact hLater
  | cons event events ih =>
      rw [List.forall_mem_cons] at h
      exact .quiet h.1 (ih h.2)

end Event

namespace Reader

variable {reader : Reader} {token : Token} {tokens rest : List Token} {ticked : Bool}

/-- A token that is no quote and opens no comment makes one event. -/
theorem read_quiet (hCode : reader.mode = .code) (hText : token.text ∉ ["--", "/*", "\""])
    (hQuiet : IsQuietText token.text) (rest : List Token) :
    (reader.read token rest).mode = .code ∧ Event.AreQuiet [token] (reader.emitted token rest) := by
  simp only [List.mem_cons, List.not_mem_nil, or_false, not_or] at hText
  have hRead : ∀ other : Reader, other.mode = .code → ∃ event before,
      other.read token rest =
        { other.emit event with before, passed := (some token, other.passed.1) } ∧
        event.IsQuiet ∧ event.token? = some token := by
    intro other hMode
    rw [read, hMode]
    dsimp only
    rw [readCode, if_neg hText.1, if_neg hText.2.1, if_neg hText.2.2]
    split
    · exact ⟨_, other.before, rfl, trivial, rfl⟩
    · exact ⟨_, _, rfl, hQuiet.symbol, rfl⟩
  obtain ⟨_, _, hHere, -⟩ := hRead reader hCode
  obtain ⟨event, before, hThere, hEvent, hToken⟩ := hRead reader.forget hCode
  refine ⟨by rw [hHere]; exact hCode, ?_⟩
  rw [emitted, hThere]
  exact ⟨by simpa [emit, forget] using hEvent, by simp [emit, forget, hToken]⟩

/-- So do more of them. -/
theorem readOver_quiet (hCode : reader.mode = .code)
    (hTokens : ∀ token ∈ tokens, token.text ∉ ["--", "/*", "\""] ∧ IsQuietText token.text)
    (rest : List Token) :
    (reader.readOver tokens rest).mode = .code ∧
    Event.AreQuiet tokens (reader.emittedOver tokens rest) := by
  induction tokens generalizing reader with
  | nil => exact ⟨hCode, .nil⟩
  | cons token tokens ih =>
      rw [List.forall_mem_cons] at hTokens
      obtain ⟨hMode, hFirst⟩ := read_quiet hCode hTokens.1.1 hTokens.1.2 (tokens ++ rest)
      obtain ⟨hEnd, hLater⟩ := ih hMode hTokens.2
      exact ⟨hEnd, hFirst.append hLater⟩

/-- The character of a literal is passed over where it could be taken for something else. -/
theorem read_character (hCode : reader.mode = .code) (hText : token.text ∈ ["(", ")", ";", "\""])
    (hCharacter : reader.isCharacter rest = true) :
    (reader.read token rest).mode = .code ∧ Event.AreQuiet [token] (reader.emitted token rest) := by
  have hRead : ∀ other : Reader, other.mode = .code → other.isCharacter rest = true →
      other.read token rest =
        { other.emit (.filler token) with passed := (some token, other.passed.1) } := by
    intro other hMode hHere
    simp only [List.mem_cons, List.not_mem_nil, or_false] at hText
    rw [read, hMode]
    dsimp only
    rw [readCode, hHere]
    rcases hText with hText | hText | hText | hText <;> simp [hText, isPunctuation, emit, hMode]
  rw [emitted, hRead reader hCode hCharacter, hRead reader.forget hCode hCharacter]
  exact ⟨hCode, by simp [emit, forget, Event.IsQuiet], rfl⟩

/-- A quote that is no character of a literal opens a string. -/
theorem read_quote (hCode : reader.mode = .code) (hText : token.text = "\"")
    (hCharacter : reader.isCharacter rest = false) :
    (reader.read token rest).mode = .string ∧
    Event.AreQuiet [token] (reader.emitted token rest) := by
  have hRead : ∀ other : Reader, other.mode = .code → other.isCharacter rest = false →
      other.read token rest =
        { other.emit (.filler token) with
          mode := .string, passed := (some token, other.passed.1) } := by
    intro other hMode hHere
    rw [read, hMode]
    dsimp only
    rw [readCode, hHere]
    simp [hText]
  rw [emitted, hRead reader hCode hCharacter, hRead reader.forget hCode hCharacter]
  exact ⟨rfl, by simp [emit, forget, Event.IsQuiet], rfl⟩

/-- A string is passed over, and ends with a quote. -/
theorem read_string (token : Token) (hString : reader.mode = .string) (rest : List Token) :
    (reader.read token rest).mode = (if token.text = "\"" then .code else .string) ∧
      Event.AreQuiet [token] (reader.emitted token rest) := by
  have hForget : reader.forget.mode = .string := hString
  rw [emitted, read, read, hString, hForget]
  exact ⟨rfl, by simp [emit, forget, Event.IsQuiet], rfl⟩

/-- Inside of a string everything but a quote is passed over. -/
theorem readOver_string (hString : reader.mode = .string)
    (hTokens : ∀ token ∈ tokens, token.text ≠ "\"") (rest : List Token) :
    (reader.readOver tokens rest).mode = .string ∧
      Event.AreQuiet tokens (reader.emittedOver tokens rest) := by
  induction tokens generalizing reader with
  | nil => exact ⟨hString, .nil⟩
  | cons token tokens ih =>
      rw [List.forall_mem_cons] at hTokens
      obtain ⟨hMode, hFirst⟩ := reader.read_string _ hString (tokens ++ rest)
      rw [if_neg hTokens.1] at hMode
      obtain ⟨hEnd, hLater⟩ := ih hMode hTokens.2
      exact ⟨hEnd, hFirst.append hLater⟩

/-- A reader in code that stands in front of a delimiter, behind the word that may be empty. -/
structure AtDelimiter (ticked : Bool) (reader : Reader) : Prop where
  mode : reader.mode = .code
  opens : reader.opensCharacter = ticked

/-- A reader in code behind an element. Behind a word it stands in front of a delimiter. -/
structure Behind (inWord ticked : Bool) (reader : Reader) : Prop where
  mode : reader.mode = .code
  isTicked : reader.isTicked = ticked
  opens : inWord = true → reader.opensCharacter = false ∧ ticked = false

theorem AtDelimiter.isCharacter (h : reader.AtDelimiter ticked) (rest : List Token) :
    reader.isCharacter rest = (ticked && closesCharacter rest) := by
  rw [isCharacter_eq, h.opens]

/-- The empty word in front of a delimiter is passed over. -/
theorem Behind.atDelimiter {inWord : Bool} (h : reader.Behind inWord ticked) (offset : Nat)
    (rest : List Token) :
    let lead := SplitsUpTo.bridge inWord offset
    (reader.readOver lead rest).AtDelimiter ticked ∧
    Event.AreQuiet lead (reader.emittedOver lead rest) := by
  cases inWord with
  | true =>
      obtain ⟨hOpens, rfl⟩ := h.opens rfl
      exact ⟨⟨h.mode, hOpens⟩, .nil⟩
  | false =>
      have hEmpty : ∀ token ∈ [Token.placed offset []],
          token.text ∉ ["--", "/*", "\""] ∧ IsQuietText token.text := by
        rw [List.forall_mem_singleton]
        show "" ∉ ["--", "/*", "\""] ∧ IsQuietText ""
        decide
      obtain ⟨hMode, hQuiet⟩ := readOver_quiet h.mode hEmpty rest
      have hOpens : (reader.read (.placed offset []) rest).opensCharacter = ticked := by
        rw [opensCharacter_read, h.isTicked]
        simp
      exact ⟨⟨hMode, hOpens⟩, hQuiet⟩

theorem emittedOver_singleton (reader : Reader) (token : Token) (rest : List Token) :
    reader.emittedOver [token] rest = reader.emitted token rest := List.append_nil _

theorem behind_read (hCode : (reader.read token rest).mode = .code) :
    (reader.read token rest).Behind false (decide (token.text = "'")) :=
  ⟨hCode, isTicked_read, by simp⟩

end Reader

namespace LexicalElement

variable {element : LexicalElement} {tokens core rest : List Token} {others : List Char}
  {events : List Event} {reader : Reader} {offset : Nat} {opened ticked : Bool}

/-- The events are those of the tokens. A parenthesis is a word, and all else does not matter. -/
structure Gives (element : LexicalElement) (core : List Token) (events : List Event) : Prop where
  tokens : events.filterMap Event.token? = core
  parenthesis : element.isParenthesis = true →
    ∃ here before next, events = [.word here before next] ∧ here.symbol = .ofText element.mark
  quiet : element.isParenthesis = false → ∀ event ∈ events, event.IsQuiet

theorem Gives.of_quiet (hElement : element.isParenthesis = false) (h : Event.AreQuiet core events) :
    element.Gives core events :=
  ⟨h.tokens, by simp [hElement], fun _ => h.quiet⟩

/-- The tokens of an element, behind the empty word in front of it, and how they are read. -/
structure ReadsAs (element : LexicalElement) (core : List Token) : Prop where
  reads (reader : Reader) (ticked : Bool) (rest : List Token) (hReader : reader.AtDelimiter ticked)
    (hApart : ticked = true →
      element.isString = false ∧ (element.isParenthesis = true → closesCharacter rest = false)) :
    (reader.readOver core rest).Behind false element.isTicked ∧
      element.Gives core (reader.emittedOver core rest)

theorem quote_isMark : Delimiter.IsMark delimiters '"' := by decide

theorem tick_isMark : Delimiter.IsMark delimiters '\'' := by decide

/-- A token that is no parenthesis, no quote and no comment is read as one quiet event. -/
theorem ReadsAs.of_quiet {part : List Char} (hElement : element.isParenthesis = false)
    (hText : String.ofList part ∉ ["--", "/*", "\""]) (hQuiet : IsQuietText (String.ofList part))
    (hTicked : element.isTicked = decide (String.ofList part = "'")) (offset : Nat) :
    element.ReadsAs [.placed offset part] where
  reads reader ticked rest hReader _ := by
    have hHere : (Token.placed offset part).text ∉ ["--", "/*", "\""] := hText
    obtain ⟨hMode, hEvents⟩ := Reader.read_quiet hReader.mode hHere hQuiet rest
    rw [hTicked]
    exact ⟨Reader.behind_read hMode,
      .of_quiet hElement ((Reader.emittedOver_singleton ..).symm ▸ hEvents)⟩

/-- A parenthesis is read as a word, unless it stands right between two ticks. -/
theorem ReadsAs.parenthesis {text : String} (hText : text = "(" ∨ text = ")") (offset : Nat) :
    (piece text).ReadsAs [.placed offset text.toList] where
  reads reader ticked rest hReader hApart := by
    have hParenthesis : (piece text).isParenthesis = true := by simpa [isParenthesis] using hText
    have hPlaced : (Token.placed offset text.toList).text = text := String.ofList_toList
    have hCharacter : reader.isCharacter rest = false := by
      rw [hReader.isCharacter, Bool.and_eq_false_iff]
      cases ticked with
      | false => exact .inl rfl
      | true => exact .inr ((hApart rfl).2 hParenthesis)
    have hHere : (Token.placed offset text.toList).text = "(" ∨
        (Token.placed offset text.toList).text = ")" := by
      rwa [hPlaced]
    obtain ⟨hRead, hEmitted⟩ := Reader.read_parenthesis hReader.mode hHere hCharacter
    have hMode : (reader.read (.placed offset text.toList) rest).mode = .code := by rw [hRead]
    have hTick : decide ((Token.placed offset text.toList).text = "'") = false := by
      rw [hPlaced]
      rcases hText with rfl | rfl <;> rfl
    have hBehind := Reader.behind_read hMode
    rw [hTick] at hBehind
    have hEvents : reader.emittedOver [.placed offset text.toList] rest =
        [.word (.ofToken (.placed offset text.toList)) reader.before
          ((Token.nextSignificant comments none rest).map .ofToken)] :=
      (Reader.emittedOver_singleton ..).trans hEmitted
    rw [hEvents]
    exact ⟨hBehind, rfl,
      fun _ => ⟨_, _, _, rfl, Lexeme.symbol_ofToken hPlaced⟩, by simp [hParenthesis]⟩

/-- The character of a literal is a word, or else a delimiter. -/
theorem plain_or_takeFirst? (c : Char) : Delimiter.Plain delimiters c ∨
    ∀ rest, Delimiter.takeFirst? delimiters (c :: '\'' :: rest) = some 1 := by
  by_cases hGap : Delimiter.isGap c = true
  · right
    intro rest
    have hTick : Delimiter.isGap '\'' = false := rfl
    rw [Delimiter.takeFirst?_gap delimiters_areBroken hGap, List.takeWhile_cons_of_pos hGap,
      List.takeWhile_cons_of_neg (by simp [hTick])]
    rfl
  by_cases hMark : c ∈ ['\n', '\'', '"']
  · right
    intro rest
    fin_cases hMark
    · exact Delimiter.takeFirst?_newline delimiters_areBroken _
    · exact tick_isMark.takeFirst? _
    · exact quote_isMark.takeFirst? _
  by_cases hSymbol : String.ofList [c] ∈ symbols
  · right
    intro rest
    have hApart : ∀ d ∈ ('\'' :: rest).head?, ¬ Merges (String.ofList [c]) d := by
      rintro d hHead hMerges
      obtain rfl := Option.some.inj hHead
      exact absurd hMerges.mem (by decide)
    have hFound := takeFirst?_symbol hSymbol hApart
    rwa [String.toList_ofList] at hFound
  · left
    simp only [symbols, ← String.toList_inj, List.mem_cons, List.not_mem_nil, or_false,
      not_or] at hSymbol hMark
    apply Delimiter.plain_of_leads
    simp_all [delimiters, Delimiter.ofString, Delimiter.leads]

/-- A token of one character is quiet, or else it is one that can be passed over as the character of
a literal. -/
theorem character_isQuiet (c : Char) : String.ofList [c] ∈ ["(", ")", ";", "\""] ∨
    String.ofList [c] ∉ ["--", "/*", "\""] ∧ IsQuietText (String.ofList [c]) := by
  by_cases hChar : String.ofList [c] ∈ ["(", ")", ";", "\""]
  · exact .inl hChar
  · right
    simp only [IsQuietText, ← String.toList_inj, List.mem_cons, List.not_mem_nil, or_false,
      not_or] at hChar ⊢
    simp_all

/-- A literal whose character is part of a word is read as three words. -/
theorem ReadsAs.letter {c : Char} (hPlain : Delimiter.Plain delimiters c)
    (start middle stop : Nat) :
    (character c).ReadsAs [.placed start ['\''], .placed middle [c], .placed stop ['\'']] where
  reads reader ticked rest hReader _ := by
    have hLetter : String.ofList [c] ∉ ["(", ")", ";", "\""] := by
      intro hMem
      have hNone := hPlain []
      simp only [← String.toList_inj, List.mem_cons, List.not_mem_nil, or_false,
        String.toList_ofList] at hMem
      rcases hMem with hChar | hChar | hChar | hChar <;> cases hChar <;> cases hNone
    have hTexts : ∀ token ∈ [Token.placed start ['\''], .placed middle [c], .placed stop ['\'']],
        token.text ∉ ["--", "/*", "\""] ∧ IsQuietText token.text := by
      have hTick : "'" ∉ ["--", "/*", "\""] ∧ IsQuietText "'" := by decide
      simp only [List.forall_mem_cons, List.not_mem_nil, false_implies, implies_true, and_true]
      exact ⟨hTick, (character_isQuiet c).resolve_left hLetter, hTick⟩
    obtain ⟨hMode, hEvents⟩ := Reader.readOver_quiet hReader.mode hTexts rest
    exact ⟨Reader.behind_read hMode, .of_quiet rfl hEvents⟩

/-- A literal whose character is a delimiter is passed over. -/
theorem ReadsAs.delimiter (c : Char) (start middle stop : Nat) :
    (character c).ReadsAs [.placed start ['\''], .placed middle [], .placed middle [c],
      .placed stop [], .placed stop ['\'']] where
  reads reader ticked rest hReader _ := by
    have hTick : "'" ∉ ["--", "/*", "\""] ∧ IsQuietText "'" := by decide
    have hEmpty : "" ∉ ["--", "/*", "\""] ∧ IsQuietText "" := by decide
    set front := [Token.placed start ['\''], .placed middle []]
    set token := Token.placed middle [c]
    set back := [Token.placed stop [], .placed stop ['\'']]
    have hFront : ∀ token ∈ front, token.text ∉ ["--", "/*", "\""] ∧ IsQuietText token.text := by
      simpa only [front, List.forall_mem_cons, List.not_mem_nil, false_implies,
        implies_true, and_true] using ⟨hTick, hEmpty⟩
    have hBack : ∀ token ∈ back, token.text ∉ ["--", "/*", "\""] ∧ IsQuietText token.text := by
      simpa only [back, List.forall_mem_cons, List.not_mem_nil, false_implies,
        implies_true, and_true] using ⟨hEmpty, hTick⟩
    obtain ⟨hOpened, hFirst⟩ := Reader.readOver_quiet hReader.mode hFront (token :: (back ++ rest))
    set opened := reader.readOver front (token :: (back ++ rest)) with hOpenedEq
    -- Two ticks stand around the character, and nothing but empty words.
    have hCharacter : opened.isCharacter (back ++ rest) = true := by
      rw [Reader.isCharacter_eq]
      rfl
    have hRead : (opened.read token (back ++ rest)).mode = .code ∧
        Event.AreQuiet [token] (opened.emitted token (back ++ rest)) := by
      rcases character_isQuiet c with hText | ⟨hText, hQuiet⟩
      · exact Reader.read_character hOpened hText hCharacter
      · exact Reader.read_quiet hOpened hText hQuiet _
    obtain ⟨hMode, hLast⟩ := Reader.readOver_quiet hRead.1 hBack rest
    have hEvents : reader.emittedOver (front ++ token :: back) rest =
        reader.emittedOver front (token :: (back ++ rest)) ++
          (opened.emitted token (back ++ rest) ++
          (opened.read token (back ++ rest)).emittedOver back rest) :=
      Reader.isReader.emittedOver_append ..
    refine ⟨Reader.behind_read hMode, .of_quiet rfl ?_⟩
    exact hEvents ▸ hFirst.append (hRead.2.append hLast)

/-- A string is passed over from quote to quote. -/
theorem ReadsAs.string (content : String) {inside : List Token} (start stop : Nat)
    (hInside : ∀ token ∈ inside, token.text ≠ "\"") :
    (LexicalElement.string content).ReadsAs (.placed start ['"'] ::
      (inside ++ [.placed stop ['"']])) where
  reads reader ticked rest hReader hApart := by
    set opening := Token.placed start ['"']
    set closing := Token.placed stop ['"']
    have hOpening : opening.text = "\"" := rfl
    have hPlain : reader.isCharacter (inside ++ [closing] ++ rest) = false := by
      rw [hReader.isCharacter]
      cases ticked with
      | false => rfl
      | true => cases (hApart rfl).1
    obtain ⟨hOpened, hFirst⟩ := Reader.read_quote hReader.mode hOpening hPlain
    set opened := reader.read opening (inside ++ [closing] ++ rest) with hOpenedEq
    obtain ⟨hString, hMiddle⟩ := Reader.readOver_string hOpened hInside ([closing] ++ rest)
    obtain ⟨hMode, hLast⟩ := Reader.read_string closing hString rest
    have hRead : reader.readOver (opening :: (inside ++ [closing])) rest =
        (opened.readOver inside ([closing] ++ rest)).read closing rest := by
      rw [Reader.readOver, Reader.isReader.readOver_append]
      rfl
    have hEvents : reader.emittedOver (opening :: (inside ++ [closing])) rest =
        reader.emitted opening (inside ++ [closing] ++ rest) ++
          (opened.emittedOver inside ([closing] ++ rest) ++
          (opened.readOver inside ([closing] ++ rest)).emitted closing rest) := by
      rw [Reader.emittedOver, Reader.isReader.emittedOver_append, Reader.emittedOver_singleton]
    rw [hRead, hEvents]
    exact ⟨Reader.behind_read hMode, .of_quiet rfl (hFirst.append (hMiddle.append hLast))⟩

/-- A delimiter with what is behind it, where the delimiter is read as one token. -/
theorem exists_core_of_found {others : List Char} {tokens : List Token} {opened : Bool}
    (hFound : Delimiter.takeFirst? delimiters (element.chars ++ others) = some element.chars.length)
    (hReads : element.ReadsAs [.placed offset element.chars])
    (hRest : SplitsUpTo delimiters (offset + utf8Len element.chars) others tokens opened) :
    ∃ core, SplitsUpTo delimiters offset (element.chars ++ others) (.placed offset [] ::
      (core ++ tokens)) opened ∧ element.ReadsAs core :=
  ⟨[.placed offset element.chars], .cons_delimiter hFound hRest, hReads⟩

/-- A line break, or a run of white space that nothing lengthens, is one token. -/
theorem exists_core_blank {text : String} {others : List Char} {tokens : List Token} {opened : Bool}
    (hValid : (blank text).isValid = true) (hOthers : (blank text).mayPrecede others.head? = true)
    (hRest : SplitsUpTo delimiters (offset + utf8Len (blank text).chars) others tokens opened) :
    ∃ core, SplitsUpTo delimiters offset ((blank text).chars ++ others) (.placed offset [] ::
      (core ++ tokens)) opened ∧ (blank text).ReadsAs core := by
  simp only [isValid, mayPrecede, Bool.or_eq_true, Bool.and_eq_true, decide_eq_true_eq,
    List.all_eq_true, Bool.not_eq_true'] at hValid hOthers
  have hPlaced : String.ofList (blank text).chars = text := String.ofList_toList
  obtain rfl | ⟨hSome, hGaps⟩ := hValid
  · exact exists_core_of_found (Delimiter.takeFirst?_newline delimiters_areBroken others)
      (.of_quiet rfl (by decide) (by decide) (by decide) offset) hRest
  -- No other text is made of blanks.
  have hOther : ∀ other : String, (∃ c ∈ other.toList, Delimiter.isGap c = false) →
      text ≠ other := by
    rintro other ⟨c, hMem, hBlack⟩ rfl
    rw [(hGaps c hMem).1] at hBlack
    cases hBlack
  have hNext : others.takeWhile Delimiter.isGap = [] := by
    have hLine : text ≠ "\n" := hOther "\n" ⟨'\n', by decide, rfl⟩
    cases others with
    | nil => rfl
    | cons c others => simpa [List.takeWhile_cons] using hOthers.resolve_left hLine
  refine exists_core_of_found ?_ (.of_quiet rfl ?_ ?_ ?_ offset) hRest
  · obtain ⟨c, chars, hChars⟩ :=
      List.exists_cons_of_ne_nil (l := text.toList) (by simpa using hSome)
    have hAll : ∀ c ∈ text.toList, Delimiter.isGap c = true := fun c hMem => (hGaps c hMem).1
    have hRun : (text.toList ++ others).takeWhile Delimiter.isGap = text.toList := by
      rw [List.takeWhile_append_of_pos hAll, hNext, List.append_nil]
    show Delimiter.takeFirst? delimiters (text.toList ++ others) = some text.toList.length
    conv_rhs => rw [← hRun]
    rw [hChars, List.cons_append]
    exact Delimiter.takeFirst?_gap delimiters_areBroken (hAll c (by simp [hChars])) _
  all_goals rw [hPlaced]
  · simp only [List.mem_cons, List.not_mem_nil, or_false, not_or]
    exact ⟨hOther _ ⟨'-', by decide, rfl⟩, hOther _ ⟨'/', by decide, rfl⟩,
      hOther _ ⟨'"', by decide, rfl⟩⟩
  · simp only [IsQuietText, List.mem_cons, List.not_mem_nil, or_false, not_or]
    exact ⟨hOther _ ⟨'(', by decide, rfl⟩, hOther _ ⟨')', by decide, rfl⟩,
      hOther _ ⟨';', by decide, rfl⟩, hOther _ ⟨':', by decide, rfl⟩,
      hOther _ ⟨'e', by decide, rfl⟩⟩
  · exact (decide_eq_false (hOther _ ⟨'\'', by decide, rfl⟩)).symm

/-- A symbol is one token if no character behind it makes a longer one. -/
theorem exists_core_symbol {text : String} {others : List Char} {tokens : List Token}
    {opened : Bool} (hValid : (piece text).isValid = true) (hSymbol : text ∈ symbols)
    (hOthers : (piece text).mayPrecede others.head? = true)
    (hRest : SplitsUpTo delimiters (offset + utf8Len (piece text).chars) others tokens opened) :
    ∃ core, SplitsUpTo delimiters offset ((piece text).chars ++ others) (.placed offset [] ::
      (core ++ tokens)) opened ∧ (piece text).ReadsAs core := by
  have hApart : ∀ c ∈ others.head?, ¬ Merges text c := by
    cases others with
    | nil => simp
    | cons c others => simpa [mayPrecede, hSymbol] using hOthers
  refine exists_core_of_found (takeFirst?_symbol hSymbol hApart) ?_ hRest
  by_cases hParenthesis : text = "(" ∨ text = ")"
  · exact .parenthesis hParenthesis offset
  · have hPlaced : String.ofList (piece text).chars = text := String.ofList_toList
    simp only [isValid, List.contains_eq_mem, Bool.and_eq_true, decide_eq_true_eq,
      Bool.not_eq_true', decide_eq_false_iff_not] at hValid
    refine .of_quiet (by simpa [isParenthesis] using hParenthesis) ?_ ?_ ?_ offset
    all_goals rw [hPlaced]
    · intro hMem
      exact hValid.1.plain (List.mem_append_left ["'"] hMem)
    · simp_all [IsQuietText]
    · have hTick := hValid.1.plain
      simp only [List.mem_cons, not_or] at hTick
      exact (decide_eq_false hTick.2.2.2.1).symm

/-- A character literal is three tokens, whatever stands between its ticks: a word or a
delimiter. -/
theorem exists_core_character (c : Char) {others : List Char} {tokens : List Token} {opened : Bool}
    (hRest : SplitsUpTo delimiters (offset + utf8Len (character c).chars) others tokens opened) :
    ∃ core, SplitsUpTo delimiters offset ((character c).chars ++ others) (.placed offset [] ::
      (core ++ tokens)) opened ∧ (character c).ReadsAs core := by
  have hStop : offset + utf8Len (character c).chars =
      offset + utf8Len ['\''] + utf8Len [c] + utf8Len ['\''] := by
    rw [Nat.add_assoc, Nat.add_assoc, ← String.utf8Len_append, ← String.utf8Len_append]
    rfl
  rw [hStop] at hRest
  rcases plain_or_takeFirst? c with hPlain | hFound
  · have hClosing : SplitsUpTo delimiters (offset + utf8Len ['\'']) ([c] ++
        (['\''] ++ others)) _ opened :=
      .cons (List.forall_mem_singleton.2 hPlain) (tick_isMark.takeFirst? others) hRest
    refine ⟨_, ?_, .letter hPlain offset (offset + utf8Len ['\''])
      (offset + utf8Len ['\''] + utf8Len [c])⟩
    exact .cons_delimiter (tick_isMark.takeFirst? _) hClosing
  · have hClosing : SplitsUpTo delimiters (offset + utf8Len ['\''] + utf8Len [c]) (['\''] ++
        others) _ opened :=
      .cons_delimiter (tick_isMark.takeFirst? others) hRest
    have hMiddle : SplitsUpTo delimiters (offset + utf8Len ['\'']) ([c] ++
        (['\''] ++ others)) _ opened :=
      .cons_delimiter (hFound others) hClosing
    refine ⟨_, ?_, .delimiter c offset (offset + utf8Len ['\''])
      (offset + utf8Len ['\''] + utf8Len [c])⟩
    exact .cons_delimiter (tick_isMark.takeFirst? _) hMiddle

/-- A string is read up to its closing quote. The tokens between depend on its content, and are all
inside of it. -/
theorem exists_core_string {content : String} {others : List Char} {tokens : List Token}
    {opened : Bool} (hValid : (LexicalElement.string content).isValid = true)
    (hRest : SplitsUpTo delimiters
      (offset + utf8Len (LexicalElement.string content).chars) others tokens opened) :
    ∃ core, SplitsUpTo delimiters offset ((LexicalElement.string content).chars ++ others)
      (.placed offset [] :: (core ++ tokens)) opened ∧
      (LexicalElement.string content).ReadsAs core := by
  obtain ⟨inside, inWord, hInside⟩ :=
    SplitsUpTo.total delimiters (offset + utf8Len ['"']) content.toList
  set stop := offset + utf8Len ['"'] + utf8Len content.toList with hStop
  have hQuote : '"' ∉ content.toList := by
    simp only [isValid, List.contains_eq_mem, Bool.and_eq_true, Bool.not_eq_true',
      decide_eq_false_iff_not] at hValid
    exact hValid.1
  have hQuoteless : ∀ token ∈ inside ++ SplitsUpTo.bridge inWord stop, token.text ≠ "\"" := by
    intro token hMem hText
    rcases List.mem_append.1 hMem with hMem | hMem
    · obtain ⟨start, part, rfl, hPart⟩ := hInside.placed_of_mem token hMem
      obtain rfl : part = ['"'] := Token.eq_of_text_placed hText
      exact hQuote (hPart '"' (by simp))
    · have hEmpty := SplitsUpTo.isEmpty_of_mem_bridge hMem
      rw [Token.isEmpty, hText] at hEmpty
      cases hEmpty
  have hSize : offset + utf8Len (LexicalElement.string content).chars = stop + '"'.utf8Size := by
    have hChars : (LexicalElement.string content).chars = ['"'] ++ (content.toList ++ ['"']) := rfl
    rw [hChars, String.utf8Len_append, String.utf8Len_append, hStop, Nat.add_assoc, Nat.add_assoc]
    rfl
  rw [hSize] at hRest
  have hBehind := hInside.append_mark quote_isMark (by decide) hRest
  refine ⟨_, ?_, .string content offset stop hQuoteless⟩
  have hAll : SplitsUpTo delimiters offset (['"'] ++ (content.toList ++ '"' :: others)) _ opened :=
    .cons_delimiter (quote_isMark.takeFirst? _) hBehind
  simpa only [chars, List.cons_append, List.append_assoc, List.nil_append] using hAll

/-- Everything but a word is read from a delimiter on. -/
theorem exists_core {others : List Char} {tokens : List Token} {opened : Bool}
    (hValid : element.isValid = true) (hWord : element.isWord = false)
    (hOthers : element.mayPrecede others.head? = true)
    (hRest : SplitsUpTo delimiters (offset + utf8Len element.chars) others tokens opened) :
    ∃ core, SplitsUpTo delimiters offset (element.chars ++ others) (.placed offset [] ::
      (core ++ tokens)) opened ∧ element.ReadsAs core := by
  cases element with
  | blank text => exact exists_core_blank hValid hOthers hRest
  | piece text => exact exists_core_symbol hValid (by simpa [isWord] using hWord) hOthers hRest
  | tick =>
      exact exists_core_of_found (tick_isMark.takeFirst? others)
        (.of_quiet rfl (by decide) (by decide) (by decide) offset) hRest
  | character c => exact exists_core_character c hRest
  | string content => exact exists_core_string hValid hRest

/-- A word in front of what begins with a delimiter, and how it is read. -/
theorem exists_word {text : String} {others : List Char} {tokens : List Token} {opened : Bool}
    (hValid : (piece text).isValid = true) (hWord : text ∉ symbols)
    (hOthers : EndsWord delimiters others)
    (hRest : SplitsUpTo delimiters (offset + utf8Len text.toList) others tokens opened) :
    ∃ opened', SplitsUpTo delimiters offset (text.toList ++ others) (.placed offset text.toList ::
      tokens.tail)
      opened' := by
  simp only [isValid, List.contains_eq_mem, Bool.and_eq_true, decide_eq_true_eq, Bool.not_eq_true',
    decide_eq_false_iff_not] at hValid
  have hSpace : text ≠ " " := fun hSpace => hValid.2 (by simp [hSpace])
  have hPiece : IsWord text := hValid.1 (by simp [PieceKind.of, hSpace, hWord])
  have hCut : cut? delimiters text.toList = none :=
    cutFrom?_plain [] fun c hc => plain_of_isWordChar (hPiece.isWordChar_of_mem hc)
  have hAlone : SplitsUpTo delimiters offset text.toList [.placed offset text.toList] true :=
    .last (by simpa using hPiece.1) hCut
  exact hAlone.append_word (by decide) delimiters_areBroken hOthers hRest

/-- A word is read as one, and a delimiter stands behind it. -/
theorem read_word {text : String} (hValid : (piece text).isValid = true) (hWord : text ∉ symbols)
    (hReader : reader.Behind false ticked) (offset : Nat) (rest : List Token) :
    (reader.read (.placed offset text.toList) rest).Behind true false ∧
      Event.AreQuiet [.placed offset text.toList]
        (reader.emitted (.placed offset text.toList) rest) := by
  simp only [isValid, List.contains_eq_mem, Bool.and_eq_true, decide_eq_true_eq, Bool.not_eq_true',
    decide_eq_false_iff_not] at hValid
  have hPlaced : (Token.placed offset text.toList).text = text := String.ofList_toList
  have hPlain : text ∉ ["--", "/*", "\"", "'"] := hValid.1.plain
  have hQuiet : IsQuietText text := by
    have hParentheses : text ≠ "(" ∧ text ≠ ")" := by
      constructor <;> (rintro rfl; exact hWord (by decide))
    simp_all [IsQuietText]
  rw [← hPlaced] at hPlain hQuiet
  obtain ⟨hMode, hEvents⟩ :=
    Reader.read_quiet hReader.mode
      (fun hMem => hPlain (List.mem_append_left ["'"] hMem)) hQuiet rest
  have hEmpty : (Token.placed offset text.toList).isEmpty = false := by
    simpa [Token.isEmpty, hPlaced] using hValid.1.ne_empty
  have hTick : (Token.placed offset text.toList).text ≠ "'" := by
    simp only [List.mem_cons, not_or] at hPlain
    exact hPlain.2.2.2.1
  refine ⟨⟨hMode, by rw [Reader.isTicked_read, decide_eq_false hTick], fun _ => ⟨?_, rfl⟩⟩, hEvents⟩
  rw [Reader.opensCharacter_read, hEmpty, Bool.and_false]

/-- An element has a first character, which is a tick only where the element begins with one. -/
theorem exists_head (hValid : element.isValid = true) :
    ∃ c chars, element.chars = c :: chars ∧ (c = '\'' → element.isTicked = true) := by
  cases element with
  | blank text =>
      simp only [isValid, Bool.or_eq_true, Bool.and_eq_true, decide_eq_true_eq,
        List.all_eq_true] at hValid
      obtain rfl | ⟨hSome, hGaps⟩ := hValid
      · exact ⟨'\n', [], rfl, by decide⟩
      · obtain ⟨c, chars, hChars⟩ :=
          List.exists_cons_of_ne_nil (l := text.toList) (by simpa using hSome)
        refine ⟨c, chars, hChars, ?_⟩
        rintro rfl
        cases (hGaps '\'' (by simp [hChars])).1
  | piece text =>
      simp only [isValid, Bool.and_eq_true, decide_eq_true_eq] at hValid
      obtain ⟨c, chars, hChars⟩ :=
        List.exists_cons_of_ne_nil (l := text.toList) (by simpa using hValid.1.ne_empty)
      refine ⟨c, chars, hChars, ?_⟩
      rintro rfl
      exfalso
      cases hKind : PieceKind.of text with
      | space =>
          rw [PieceKind.of_eq_space hKind] at hChars
          cases hChars
      | symbol =>
          have hSymbols : symbols.all fun symbol => symbol.toList.head? != some '\'' := by decide
          have hSymbol := List.all_eq_true.1 hSymbols text (PieceKind.of_eq_symbol hKind)
          simp [hChars] at hSymbol
      | word =>
          cases (hValid.1 hKind).isWordChar_of_mem (c := '\'') (by simp [hChars])
  | tick => exact ⟨'\'', [], rfl, fun _ => rfl⟩
  | character c => exact ⟨'\'', [c, '\''], rfl, fun _ => rfl⟩
  | string content => exact ⟨'"', _, rfl, fun hTick => absurd hTick (by decide)⟩

/-- Everything but a word begins with a delimiter. -/
theorem takeFirst?_ne_none (hValid : element.isValid = true) (hWord : element.isWord = false)
    (others : List Char) :
    Delimiter.takeFirst? delimiters (element.chars ++ others) ≠ none := by
  cases element with
  | blank text =>
      simp only [isValid, Bool.or_eq_true, Bool.and_eq_true, decide_eq_true_eq,
        List.all_eq_true] at hValid
      obtain rfl | ⟨hSome, hGaps⟩ := hValid
      · exact Delimiter.takeFirst?_white delimiters_areBroken rfl _
      · obtain ⟨c, chars, hChars⟩ :=
          List.exists_cons_of_ne_nil (l := text.toList) (by simpa using hSome)
        have hGap := (hGaps c (by simp [hChars])).1
        rw [LexicalElement.chars, hChars]
        exact Delimiter.takeFirst?_white delimiters_areBroken (Delimiter.isWhite_of_isGap hGap) _
  | piece text =>
      have hSymbol : text ∈ symbols := by simpa [isWord] using hWord
      have hSymbols : symbols.all fun symbol =>
          symbol.toList.head?.any fun c => delimiters.contains (.literal [c]) := by
        decide
      have hHead := List.all_eq_true.1 hSymbols text hSymbol
      obtain ⟨c, hc, hMem⟩ := (Option.any_eq_true ..).1 hHead
      obtain ⟨chars, hChars⟩ := List.head?_eq_some_iff.1 hc
      intro hNone
      have hTake := List.findSome?_eq_none_iff.1 hNone (.literal [c]) (by simpa using hMem)
      simp [LexicalElement.chars, hChars, Delimiter.take?] at hTake
  | tick => exact (tick_isMark.takeFirst? _).symm ▸ Option.some_ne_none 1
  | character c => exact (tick_isMark.takeFirst? _).symm ▸ Option.some_ne_none 1
  | string content => exact (quote_isMark.takeFirst? _).symm ▸ Option.some_ne_none 1

end LexicalElement

/-- A literal closes right behind a delimiter only where a tick comes first. -/
theorem closesCharacter_eq_false {chars : List Char} {tokens : List Token} {offset : Nat}
    {opened : Bool} (h : SplitsUpTo delimiters offset chars tokens opened)
    (hHead : ∃ c ∈ chars.head?, c ≠ '\'') (rest : List Token) :
    closesCharacter (tokens ++ rest) = false := by
  obtain ⟨c, hMem, hTick⟩ := hHead
  cases h with
  | done => cases hMem
  | @cut _ _ cut more _ hCut hRest =>
      obtain ⟨hParts, -, -⟩ := cut?_eq_some hCut
      rw [← Bool.not_eq_true]
      intro hCloses
      simp only [List.cons_append, closesCharacter, Token.isEmpty_placed, List.isEmpty_iff,
        Bool.and_eq_true, decide_eq_true_eq] at hCloses
      have hDelimiter : cut.delimiter = ['\''] := Token.eq_of_text_placed hCloses.2
      rw [hParts, hCloses.1, hDelimiter] at hMem
      exact hTick (Option.some.inj hMem).symm
  | last hChars _ =>
      rw [List.singleton_append, closesCharacter_cons, Token.isEmpty_placed]
      simp [hChars]

section Elements

variable {element : LexicalElement} {elements : List LexicalElement} {tokens rest : List Token}
  {reader : Reader} {inWord ticked : Bool} {depth : Nat}

/-- The tokens of elements, in front of which a word may be under way, are read so that their
parentheses match. -/
def ReadsBalanced (elements : List LexicalElement) (tokens : List Token) : Prop :=
  ∀ (inWord ticked : Bool) (reader : Reader) (rest : List Token), reader.Behind inWord ticked →
    (inWord = true → ∀ element ∈ elements.head?, element.isWord = false) →
    parenthesesApart ticked elements = true → closesCharacter rest = false →
    let here := if inWord then tokens.tail else tokens
    (reader.readOver here rest).mode = .code ∧
    (reader.emittedOver here rest).filterMap Event.token? = here ∧
      ∀ depth, isBalanced true depth (elements.map (·.mark)) = true →
        Event.Balanced depth (reader.emittedOver here rest)

/-- An element is read in front of others. -/
theorem LexicalElement.Gives.balanced {core : List Token} {events later : List Event}
    (h : element.Gives core events)
    (hBalanced : isBalanced true depth (element.mark :: elements.map (·.mark)) = true)
    (hLater : ∀ depth, isBalanced true depth (elements.map (·.mark)) = true →
      Event.Balanced depth later) :
    Event.Balanced depth (events ++ later) := by
  rw [isBalanced] at hBalanced
  cases hParenthesis : element.isParenthesis with
  | true =>
      obtain ⟨here, before, next, rfl, hSymbol⟩ := h.parenthesis hParenthesis
      split at hBalanced
      · next hOpen =>
        rw [hOpen] at hSymbol
        exact .opening hSymbol (hLater _ hBalanced)
      split at hBalanced
      · next hClose =>
        rw [hClose] at hSymbol
        rw [Bool.and_eq_true, bne_iff_ne] at hBalanced
        obtain ⟨inner, rfl⟩ := Nat.exists_eq_succ_of_ne_zero hBalanced.1
        exact .closing hSymbol (hLater _ hBalanced.2)
      · next hOpen hClose =>
        cases element <;> simp_all [isParenthesis, mark]
  | false =>
      have hMark : element.mark ≠ "(" ∧ element.mark ≠ ")" := by
        cases element <;> simp_all [isParenthesis, mark]
      rw [if_neg hMark.1, if_neg hMark.2, Bool.and_eq_true] at hBalanced
      exact .append_quiet (h.quiet hParenthesis) (hLater _ hBalanced.2)

/-- Where no parenthesis stands right between two ticks, the first element is none that does, and
there is none behind it. -/
theorem parenthesesApart_cons (h : parenthesesApart ticked (element :: elements) = true) :
    parenthesesApart element.isTicked elements = true ∧ (ticked = true → element.isString = false ∧
      (element.isParenthesis = true → ∀ next ∈ elements.head?, next.isTicked = false)) := by
  rw [parenthesesApart, Bool.and_eq_true] at h
  refine ⟨h.2, ?_⟩
  rintro rfl
  have hHere := h.1
  simp only [Bool.true_and, Bool.not_eq_true', Bool.or_eq_false_iff, Bool.and_eq_false_iff] at hHere
  refine ⟨hHere.1, fun hParenthesis next hNext => ?_⟩
  have hNone := hHere.2.resolve_left (by simp [hParenthesis])
  rw [hNext] at hNone
  exact hNone

/-- What stands behind an element may stand there. -/
theorem mayPrecede_chars (hValid : ∀ element ∈ elements, element.isValid = true)
    (hJoins : ∀ next ∈ elements.head?, element.meets next = true) :
    element.mayPrecede (elements.flatMap (·.chars)).head? = true := by
  cases elements with
  | nil => cases element <;> simp [mayPrecede]
  | cons next elements =>
      rw [List.forall_mem_cons] at hValid
      obtain ⟨c, chars, hChars, -⟩ := exists_head hValid.1
      have hMeets := hJoins next rfl
      rw [meets, Bool.and_eq_true, hChars] at hMeets
      rw [List.flatMap_cons, hChars]
      exact hMeets.1

/-- A word ends in front of what stands behind it. -/
theorem endsWord_chars (hValid : ∀ element ∈ elements, element.isValid = true)
    (hWords : ∀ next ∈ elements.head?, next.isWord = false) :
    EndsWord delimiters (elements.flatMap (·.chars)) := by
  cases elements with
  | nil => exact .inl rfl
  | cons next elements =>
      rw [List.forall_mem_cons] at hValid
      exact .inr (takeFirst?_ne_none hValid.1 (hWords next rfl) _)

/-- No literal closes behind a parenthesis that has no tick behind it. -/
theorem closesCharacter_elements {offset : Nat} {opened : Bool}
    (hSplits : SplitsUpTo delimiters offset (elements.flatMap (·.chars)) tokens opened)
    (hValid : ∀ element ∈ elements, element.isValid = true)
    (hTicks : ∀ next ∈ elements.head?, next.isTicked = false)
    (hRest : closesCharacter rest = false) :
    closesCharacter (tokens ++ rest) = false := by
  cases elements with
  | nil =>
      obtain ⟨rfl, -⟩ := hSplits.unique (.done offset)
      exact hRest
  | cons next elements =>
      rw [List.forall_mem_cons] at hValid
      obtain ⟨c, chars, hChars, hTick⟩ := exists_head hValid.1
      refine closesCharacter_eq_false hSplits ⟨c, by rw [List.flatMap_cons, hChars]; rfl,
        fun hc => ?_⟩ rest
      have hTicked := hTick hc
      rw [hTicks next rfl] at hTicked
      cases hTicked

/-- A word is read in front of what begins with a delimiter. -/
theorem ReadsBalanced.word {text : String} (h : ReadsBalanced elements tokens)
    (hValid : (piece text).isValid = true) (hWord : text ∉ symbols)
    (hWords : ∀ next ∈ elements.head?, next.isWord = false) (offset : Nat) :
    ReadsBalanced (piece text :: elements) (.placed offset text.toList :: tokens.tail) := by
  intro inWord ticked reader rest hReader hFront hApart hRest
  cases inWord with
  | true =>
      have hNone : (piece text).isWord = false := hFront rfl _ rfl
      simp [isWord, hWord] at hNone
  | false =>
      obtain ⟨hBehind, hEvents⟩ := read_word hValid hWord hReader offset (tokens.tail ++ rest)
      have hParenthesis : (piece text).isParenthesis = false := by
        rw [← Bool.not_eq_true]
        intro hParenthesis
        simp only [isParenthesis, Bool.or_eq_true, beq_iff_eq] at hParenthesis
        rcases hParenthesis with rfl | rfl <;> exact hWord (by decide)
      have hGives : (piece text).Gives [.placed offset text.toList] _ :=
        .of_quiet hParenthesis hEvents
      obtain ⟨hMode, hTokens, hLater⟩ :=
        h true false _ rest hBehind (fun _ => hWords) (parenthesesApart_cons hApart).1 hRest
      refine ⟨hMode, ?_, fun depth hBalanced => hGives.balanced hBalanced hLater⟩
      have hAll := congrArg₂ (· ++ ·) hGives.tokens hTokens
      rw [← List.filterMap_append] at hAll
      exact hAll

/-- Everything else is read behind the empty word that may be in front of it. -/
theorem ReadsBalanced.core {core : List Token} {offset : Nat} {opened : Bool}
    (h : ReadsBalanced elements tokens)
    (hReads : element.ReadsAs core) (hValid : ∀ element ∈ elements, element.isValid = true)
    (hSplits : SplitsUpTo delimiters (offset + utf8Len element.chars)
      (elements.flatMap (·.chars)) tokens opened) :
    ReadsBalanced (element :: elements) (.placed offset [] :: (core ++ tokens)) := by
  intro inWord ticked reader rest hReader _ hApart hRest
  obtain ⟨hLaterApart, hHere⟩ := parenthesesApart_cons hApart
  set lead := SplitsUpTo.bridge inWord offset with hLead
  have hTokens : (if inWord = true then (Token.placed offset [] :: (core ++ tokens)).tail
      else .placed offset [] :: (core ++ tokens)) = lead ++ (core ++ tokens) := by
    cases inWord <;> rfl
  obtain ⟨hAt, hFirst⟩ := hReader.atDelimiter offset (core ++ tokens ++ rest)
  set near := reader.readOver lead (core ++ tokens ++ rest) with hNear
  obtain ⟨hBehind, hGives⟩ := hReads.reads near ticked (tokens ++ rest) hAt fun hTicked =>
    ⟨(hHere hTicked).1, fun hParenthesis =>
      closesCharacter_elements hSplits hValid ((hHere hTicked).2 hParenthesis) hRest⟩
  obtain ⟨hMode, hLaterTokens, hLater⟩ := h false _ _ rest hBehind (by simp) hLaterApart hRest
  have hRead : reader.readOver (lead ++ (core ++ tokens)) rest =
      (near.readOver core (tokens ++ rest)).readOver tokens rest := by
    rw [Reader.isReader.readOver_append, Reader.isReader.readOver_append]
  have hEvents : reader.emittedOver (lead ++ (core ++ tokens)) rest =
      reader.emittedOver lead (core ++ tokens ++ rest) ++ (near.emittedOver core (tokens ++ rest) ++
        (near.readOver core (tokens ++ rest)).emittedOver tokens rest) := by
    rw [Reader.isReader.emittedOver_append, Reader.isReader.emittedOver_append]
  dsimp only
  rw [hTokens, hRead, hEvents]
  refine ⟨hMode, ?_,
    fun depth hBalanced => .append_quiet hFirst.quiet (hGives.balanced hBalanced hLater)⟩
  rw [List.filterMap_append, List.filterMap_append, hFirst.tokens, hGives.tokens]
  exact congrArg (fun later => lead ++ (core ++ later)) hLaterTokens

/-- The elements of an expression are split into tokens that are read so that their parentheses
match. -/
theorem exists_tokens (hValid : ∀ element ∈ elements, element.isValid = true)
    (hJoins : elements.IsChain (·.meets ·)) (offset : Nat) :
    ∃ tokens opened, SplitsUpTo delimiters offset (elements.flatMap (·.chars)) tokens opened ∧
      ReadsBalanced elements tokens := by
  induction elements generalizing offset with
  | nil =>
      refine ⟨[], false, .done offset, fun inWord ticked reader rest hReader _ _ _ => ?_⟩
      have hNone : ∀ depth, isBalanced true depth [] = true → Event.Balanced depth [] := by
        intro depth hBalanced
        obtain rfl : depth = 0 := by simpa [isBalanced] using hBalanced
        exact .nil
      cases inWord <;> exact ⟨hReader.mode, rfl, hNone⟩
  | cons element elements ih =>
      rw [List.forall_mem_cons] at hValid
      rw [List.isChain_cons] at hJoins
      obtain ⟨tokens, opened, hSplits, hReads⟩ :=
        ih hValid.2 hJoins.2 (offset + utf8Len element.chars)
      rw [List.flatMap_cons]
      cases hWord : element.isWord with
      | true =>
          obtain ⟨text, rfl⟩ : ∃ text, element = piece text := by
            cases element <;> simp_all [isWord]
          have hText : text ∉ symbols := by simpa [isWord] using hWord
          have hWords : ∀ next ∈ elements.head?, next.isWord = false := by
            intro next hNext
            have hMeets := hJoins.1 next hNext
            rw [meets, hWord, Bool.and_eq_true] at hMeets
            simpa using hMeets.2
          obtain ⟨opened', hBoth⟩ :=
            exists_word hValid.1 hText (endsWord_chars hValid.2 hWords) hSplits
          exact ⟨_, opened', hBoth, hReads.word hValid.1 hText hWords offset⟩
      | false =>
          obtain ⟨core, hBoth, hCore⟩ :=
            exists_core hValid.1 hWord (mayPrecede_chars hValid.2 hJoins.1) hSplits
          exact ⟨_, opened, hBoth, hReads.core hCore hValid.2 hSplits⟩

end Elements

end Vhdl

end HdlIndex

import HdlIndex.Proofs.Computed
import HdlIndex.Proofs.Token.Collected
import HdlIndex.Proofs.Vhdl.InterfaceRoundTrip
import HdlIndex.Proofs.Vhdl.LexicalElements
import HdlIndex.Proofs.Vhdl.EnclosedList

/-! Qualified expressions `type'(expression)`. Wherever parentheses are counted, as many are open
behind one as in front of it, and an interface list gives its text as a value, if no parenthesis in
it is taken for the character of a literal. -/
namespace HdlIndex

open String (utf8Len)

/-- No letter is an ASCII blank, in either case. -/
theorem Text.isAsciiBlank_toLower (c : Char) : isAsciiBlank c.toLower = isAsciiBlank c := by
  have hApart {d : Char} (hFrom : 65 ≤ d.toNat) : isAsciiBlank d = false := by
    rw [← Bool.not_eq_true]
    intro hBlank
    simp only [isAsciiBlank, Bool.or_eq_true, beq_iff_eq] at hBlank
    rcases hBlank with (((rfl | rfl) | rfl) | rfl) | rfl <;> exact absurd hFrom (by decide)
  obtain ⟨hLow, -, hLower⟩ | hSame := toLower_cases c
  · rw [hApart hLow, hApart (by omega)]
  · rw [hSame]

namespace Vhdl

open LexicalElement

section Walking

variable {base walk : Walk} {event : Event} {events : List Event} {here : Lexeme}
  {before next : Option Lexeme}
  {depth : Nat} {tokens : List Token} {list : InterfaceList} {kind : ObjectKind} {home : Home}
  {element : Element}
  {nesting : Nesting}

/-- What a walk counts parentheses by, as far as tokens were taken. -/
structure Walk.Counts (P : (depth : Nat) → List Token → Walk → Prop) : Prop where
  quiet {depth : Nat} {tokens : List Token} {walk : Walk} {event : Event} (h : P depth tokens walk)
    (hQuiet : event.IsQuiet) : P depth (tokens ++ event.token?.toList) (walk.step event)
  opening {depth : Nat} {tokens : List Token} {walk : Walk} {here : Lexeme}
    (h : P depth tokens walk) (before next : Option Lexeme) (hSymbol : here.symbol = .parenOpen) :
    P (depth + 1) (tokens ++ [here.token]) (walk.step (.word here before next))
  closing {depth : Nat} {tokens : List Token} {walk : Walk} {here : Lexeme}
    (h : P (depth + 1) tokens walk)
    (before next : Option Lexeme) (hSymbol : here.symbol = .parenClose) :
    P depth (tokens ++ [here.token]) (walk.step (.word here before next))

/-- Where parentheses match, as many are open behind them as in front. -/
theorem Walk.Counts.run {P : (depth : Nat) → List Token → Walk → Prop} (hCounts : Counts P)
    (tokens : List Token) (hEvents : Event.Balanced depth events) (h : P depth tokens walk) :
    P 0 (tokens ++ events.filterMap Event.token?) (walk.run events) := by
  induction hEvents generalizing walk tokens with
  | nil => simpa [Walk.run] using h
  | @quiet depth event events hQuiet _ ih =>
      have hRest := ih _ (hCounts.quiet h hQuiet)
      have hTokens : event.token?.toList ++ events.filterMap Event.token? =
          (event :: events).filterMap Event.token? := by
        rw [List.filterMap_cons]
        cases event.token? <;> rfl
      rwa [List.append_assoc, hTokens] at hRest
  | @opening depth here before next events hSymbol _ ih =>
      have hRest := ih _ (hCounts.opening h before next hSymbol)
      rwa [List.append_assoc] at hRest
  | @closing depth here before next events hSymbol _ ih =>
      have hRest := ih _ (hCounts.closing h before next hSymbol)
      rwa [List.append_assoc] at hRest

/-- A word is read where the walk stands. -/
theorem Walk.Stands.word {place place' : Place} (h : base.Stands place walk)
    (hRead : ∀ walk, base.Stands place walk → base.Stands place' (walk.read here before next)) :
    base.Stands place' (walk.step (.word here before next)) := by
  obtain ⟨notes, rfl⟩ := h
  exact hRead _ ⟨_, rfl⟩

theorem Walk.Stands.filler {place : Place} (h : base.Stands place walk) (token : Token) :
    base.Stands (place.absorb token) (walk.step (.filler token)) := by
  obtain ⟨notes, rfl⟩ := h
  exact ⟨notes, rfl⟩

/-- The maps of an instance count parentheses. -/
theorem Walk.counts_map (base : Walk) (outer : Nat) :
    Counts fun depth _ walk => base.Stands (.instanceMap (outer + depth)) walk where
  quiet {depth tokens walk event} h hQuiet := by
    cases event with
    | comment span => exact hQuiet.elim
    | filler token => exact h.filler token
    | word here before next =>
        refine h.word fun walk h => ?_
        obtain ⟨notes, rfl⟩ := h
        simp only [Event.IsQuiet, List.mem_cons, List.not_mem_nil, or_false, not_or] at hQuiet
        rw [read]
        dsimp only
        rw [readMap]
        split <;> first
          | exact ⟨notes, rfl⟩
          | simp_all
  opening h before next hSymbol := by
    refine h.word fun walk h => ?_
    obtain ⟨notes, rfl⟩ := h
    exact ⟨notes, by simp [read, readMap, hSymbol, goto, Nat.add_assoc]⟩
  closing h before next hSymbol := by
    refine h.word fun walk h => ?_
    obtain ⟨notes, rfl⟩ := h
    exact ⟨notes, by simp [read, readMap, hSymbol, goto]⟩

/-- Every word but the one that may end a process keeps the walk in its body. -/
theorem Walk.Stands.word_body {process : HdlProcess} {statement : Sequential}
    (h : base.Stands (.processBody process depth statement) walk)
    (hEnd : here.symbol ≠ .keyword .end) (before next : Option Lexeme) : ∃ process' statement',
      base.Stands (.processBody process' (depthAfter depth here.symbol) statement')
        (walk.step (.word here before next)) := by
  obtain ⟨notes, rfl⟩ := h
  rw [step]
  set walk : Walk :=
    ({ base with place := .processBody process depth statement, notes } : Walk).note
      (.visited (Place.processBody process depth statement).region.name here.text) with hWalk
  show ∃ process' statement',
    base.Stands (.processBody process' (depthAfter depth here.symbol) statement')
    (walk.readBody process depth statement here before next)
  have hNext (hPlain : depthAfter depth here.symbol = depth) : ∃ process' statement',
      base.Stands (.processBody process' (depthAfter depth here.symbol) statement')
        (walk.goto (.processBody process depth {})) :=
    ⟨process, {}, _, by rw [hPlain]; rfl⟩
  have hStay (ticked : Bool) : ∃ process' statement',
      base.Stands (.processBody process' (depthAfter depth here.symbol) statement')
        (walk.readBodyWord process depth statement here ticked) := by
    rw [Walk.readBodyWord]
    dsimp only
    split <;> exact ⟨_, _, _, rfl⟩
  have hMark (role : Role) (hPlain : depthAfter depth here.symbol = depth) (hOutside : depth = 0) :
      ∃ process' statement',
        base.Stands (.processBody process' (depthAfter depth here.symbol) statement')
        (walk.markTarget process statement role) := by
    rw [markTarget, hPlain, hOutside]
    split
    · exact ⟨_, _, _, rfl⟩
    · exact ⟨process, statement, _, by rw [hWalk, hOutside]; rfl⟩
  fun_cases Walk.readBody
  case case10 hDrives hOutside => exact hMark _ (by rw [hDrives]; rfl) hOutside
  case case12 hBecomes hOutside => exact hMark _ (by rw [hBecomes]; rfl) hOutside
  case case14 => contradiction
  case case8 hColon _ => exact hNext (by rw [hColon]; rfl)
  case case9 | case11 | case13 | case15 | case16 => exact hStay _
  all_goals
    next hHere => exact hNext (by rw [hHere]; rfl)

/-- So does the body of a process. -/
theorem Walk.counts_body (base : Walk) (outer : Nat) : Counts fun depth _ walk =>
    ∃ process statement, base.Stands (.processBody process (outer + depth) statement) walk where
  quiet {depth tokens walk event} h hQuiet := by
    obtain ⟨process, statement, h⟩ := h
    cases event with
    | comment span => exact hQuiet.elim
    | filler token => exact ⟨process, statement, h.filler token⟩
    | word here before next =>
        simp only [Event.IsQuiet, List.mem_cons, List.not_mem_nil, or_false, not_or] at hQuiet
        have hDepth : depthAfter (outer + depth) here.symbol = outer + depth := by
          simp [depthAfter, hQuiet.1, hQuiet.2.1]
        have hRead := h.word_body hQuiet.2.2.2.2 before next
        rwa [hDepth] at hRead
  opening {depth tokens walk here} h before next hSymbol := by
    obtain ⟨process, statement, h⟩ := h
    have hOther : here.symbol ≠ .keyword .end := by simp [hSymbol]
    have hRead := h.word_body hOther before next
    rwa [hSymbol] at hRead
  closing {depth tokens walk here} h before next hSymbol := by
    obtain ⟨process, statement, h⟩ := h
    have hOther : here.symbol ≠ .keyword .end := by simp [hSymbol]
    have hRead := h.word_body hOther before next
    rwa [hSymbol] at hRead

/-- The element in an expression, with a number of parentheses open and tokens added to what was
collected. -/
def Element.within (element : Element) (nesting : Nesting) (depth : Nat) (tokens : List Token) :
    Element :=
  { element with part := nesting.part depth, expr := element.expr.pushAll tokens }

/-- Where an element is read, parentheses are counted in its constraint and in its value. -/
theorem Walk.counts_element (inList : Bool) {P : Element → Walk → Prop}
    (hFiller : ∀ {held : Element} {walk : Walk} (token : Token), P held walk →
      P { held with expr := held.expr.absorb token } (walk.step (.filler token)))
    (hStay : ∀ {held later : Element} {walk : Walk} {here : Lexeme} (before next : Option Lexeme),
      P held walk → held.read inList here = .stay later →
      P later (walk.step (.word here before next)))
    (hActive : element.expr.active = true) {outer : Nat}
    (hNesting : nesting = .range false → outer ≠ 0) :
    Counts fun depth tokens walk => P (element.within nesting (outer + depth) tokens) walk := by
  have hPush (depth depth' : Nat) (tokens : List Token) (here : Lexeme) :
      { (element.within nesting depth tokens).push here with part := nesting.part depth' } =
        element.within nesting depth' (tokens ++ [here.token]) := by
    simp [Element.within, Element.push, Capture.pushAll]
  refine ⟨fun {depth tokens walk event} h hQuiet => ?_,
    fun {depth tokens walk here} h before next hSymbol => ?_,
    fun {depth tokens walk here} h before next hSymbol => ?_⟩
  · cases event with
    | comment span => exact hQuiet.elim
    | filler token =>
        have hAbsorb : (element.expr.pushAll tokens).absorb token =
            element.expr.pushAll (tokens ++ [token]) := by
          rw [Capture.absorb_of_active (by rw [Capture.active_pushAll, hActive])]
          simp [Capture.pushAll]
        have hRest := hFiller token h
        rw [Element.within] at hRest
        rwa [hAbsorb] at hRest
    | word here before next =>
        simp only [Event.IsQuiet, List.mem_cons, List.not_mem_nil, or_false, not_or] at hQuiet
        have hRead : (element.within nesting (outer + depth) tokens).read inList here =
            .stay ((element.within nesting (outer + depth) tokens).push here) :=
          Element.read_inside rfl hQuiet.1 hQuiet.2.1 (.inr ⟨hQuiet.2.2.1, hQuiet.2.2.2.1⟩)
        have hRest := hStay before next h hRead
        exact hPush (outer + depth) (outer + depth) tokens here ▸ hRest
  · have hRest := hStay before next h (Element.read_open rfl hSymbol)
    rwa [hPush] at hRest
  · have hInside (hRange : nesting = .range false) : outer + depth ≠ 0 := by
      have hOuter := hNesting hRange
      omega
    have hRest := hStay before next h (Element.read_close rfl hSymbol hInside)
    rwa [hPush] at hRest

/-- So they are in object declarations. -/
theorem Walk.counts_object (base : Walk) (kind : ObjectKind) (home : Home)
    (hActive : element.expr.active = true) {outer : Nat}
    (hNesting : nesting = .range false → outer ≠ 0) : Counts fun depth tokens walk =>
      base.Stands (.objectDeclaration kind home (element.within nesting (outer + depth) tokens))
        walk := by
  refine counts_element false
    (P := fun element walk => base.Stands (.objectDeclaration kind home element) walk)
    (fun token h => h.filler token)
    (fun before next h hRead => h.word fun walk h => ?_) hActive hNesting
  obtain ⟨notes, rfl⟩ := h
  rw [read]
  dsimp only
  rw [readObject, hRead]
  exact ⟨notes, rfl⟩

/-- And in interface lists. -/
theorem Walk.counts_interface {found : Findings} (rows : Declarations)
    (hActive : element.expr.active = true) {outer : Nat}
    (hNesting : nesting = .range false → outer ≠ 0) : Counts fun depth tokens walk =>
      walk.Fills list found ⟨element.within nesting (outer + depth) tokens, rows⟩ := by
  refine counts_element true (P := fun element walk => walk.Fills list found ⟨element, rows⟩)
    (fun token h => h.filler token)
    (fun {held later walk here} before next h hRead => ?_) hActive hNesting
  have hNoted : (walk.note (.visited walk.place.region.name here.text)).Fills list found
      ⟨held, rows⟩ :=
    ⟨h.place, h.found, h.generates⟩
  rw [step, read, hNoted.place]
  exact hNoted.readInterface (by rw [hRead]; rfl)

end Walking

section Value

variable {type : String} {elements expression : List LexicalElement} {depth : Nat}

/-- The elements of a qualified expression. -/
def qualified (type : String) (expression : List LexicalElement) : List LexicalElement :=
  piece type :: tick :: piece "(" :: (expression ++ [piece ")"])

/-- What parentheses stand around is balanced with them. -/
theorem isBalanced_enclosed {pieces : List String} (h : isBalanced true depth pieces = true) :
    isBalanced true (depth + 1) (pieces ++ [")"]) = true := by
  induction pieces generalizing depth with
  | nil =>
      obtain rfl : depth = 0 := by simpa [isBalanced] using h
      rfl
  | cons piece pieces ih =>
      rw [isBalanced] at h
      rw [List.cons_append, isBalanced]
      split at h
      · next hOpen =>
        rw [if_pos hOpen]
        exact ih h
      split at h
      · next hOpen hClose =>
        rw [Bool.and_eq_true, bne_iff_ne] at h
        obtain ⟨inner, rfl⟩ := Nat.exists_eq_succ_of_ne_zero h.1
        rw [if_neg hOpen, if_pos hClose]
        exact ih h.2
      · next hOpen hClose =>
        rw [Bool.and_eq_true] at h
        rw [if_neg hOpen, if_neg hClose]
        exact ih h.2

theorem IsWord.not_mem_symbols {text : String} (h : IsWord text) : text ∉ symbols := by
  intro hMem
  fin_cases hMem <;> exact absurd h (by decide)

/-- A word that is not reserved may stand in an expression. -/
theorem isValid_word {text : String} (hWord : IsWord text)
    (hReserved : Keyword.ofText? text = none) : (piece text).isValid = true := by
  simp only [isValid, List.contains_eq_mem, Bool.and_eq_true, decide_eq_true_eq, Bool.not_eq_true',
    decide_eq_false_iff_not, List.mem_cons, List.not_mem_nil, or_false, not_or]
  refine ⟨fun _ => hWord, ?_, ?_, ?_, ?_⟩ <;> rintro rfl
  all_goals first
    | exact absurd hWord (by decide)
    | exact absurd hReserved (by decide)

/-- Nothing behind a parenthesis makes a longer symbol of it. -/
theorem opening_meets (next : LexicalElement) : (piece "(").meets next = true := by
  have hApart (c : Char) : ¬ Merges "(" c := by
    intro hMerges
    have hMem := hMerges.mem
    fin_cases hMem <;> exact absurd hMerges (by decide)
  have hWord : (piece "(").isWord = false := by decide
  cases hHead : next.chars.head? <;> simp [meets, mayPrecede, hWord, hHead, hApart]

/-- And nothing in front of one does. -/
theorem meets_closing (element : LexicalElement) : element.meets (piece ")") = true := by
  have hApart (text : String) : ¬ Merges text ')' := fun hMerges => absurd hMerges.mem (by decide)
  have hWord : (piece ")").isWord = false := by decide
  have hHead : (piece ")").chars.head? = some ')' := by decide
  have hGap : Delimiter.isGap ')' = false := rfl
  cases element <;> simp [meets, mayPrecede, hWord, hHead, hApart, hGap]

/-- A type with an expression behind it is an expression. -/
theorem isExpression_qualified (hType : IsWord type ∧ Keyword.ofText? type = none)
    (h : IsExpression expression) :
    IsExpression (qualified type expression) where
  valid := by
    have hOpen : (piece "(").isValid = true := by decide
    have hClose : (piece ")").isValid = true := by decide
    rw [qualified, List.forall_mem_cons, List.forall_mem_cons, List.forall_mem_cons,
      List.forall_mem_append, List.forall_mem_singleton]
    exact ⟨isValid_word hType.1 hType.2, rfl, hOpen, h.valid, hClose⟩
  joins := by
    have hInner : (expression ++ [piece ")"]).IsChain (·.meets ·) :=
      List.isChain_append.2 ⟨h.joins, .singleton _, fun element _ _ hNext =>
        Option.some.inj hNext ▸ meets_closing element⟩
    have hTick : (piece type).meets tick = true := by
      simp [meets, mayPrecede, isWord, hType.1.not_mem_symbols]
    exact .cons_cons hTick
      (.cons_cons rfl (List.isChain_cons.2 ⟨fun next _ => opening_meets next, hInner⟩))
  balanced := by
    have hInner := isBalanced_enclosed h.balanced
    have hNames : type ≠ "(" ∧ type ≠ ")" := by
      constructor <;> (rintro rfl; exact absurd hType.1 (by decide))
    have hMarks : (qualified type expression).map (·.mark) =
        type :: "" :: "(" :: (expression.map (·.mark) ++ [")"]) := by
      simp [qualified, mark]
    rw [hMarks, isBalanced, if_neg hNames.1, if_neg hNames.2, isBalanced]
    exact hInner

/-- Vertical tabs, which are delimiters and no blanks, are in no expression. -/
theorem LexicalElement.tab_not_mem {element : LexicalElement} (h : element.isValid = true) :
    '\x0b' ∉ element.chars := by
  intro hMem
  cases element with
  | blank text =>
      simp only [isValid, Bool.or_eq_true, Bool.and_eq_true, decide_eq_true_eq,
        List.all_eq_true] at h
      obtain rfl | ⟨-, hBlank⟩ := h
      · exact absurd hMem (by decide)
      · cases (hBlank _ hMem).2
  | piece text =>
      simp only [isValid, List.contains_eq_mem, Bool.and_eq_true, decide_eq_true_eq,
        Bool.not_eq_true', decide_eq_false_iff_not, List.mem_cons, not_or] at h
      cases h.1.isBlank_of_mem h.2.1 hMem
  | tick => exact absurd hMem (by decide)
  | character c =>
      have hOther : c ≠ '\x0b' := by simpa [isValid] using h
      simp [chars, hOther.symm] at hMem
  | string content => simp_all [isValid, chars]

/-- Wherever the tokens stand outside of comments and strings, they are read to their end, and their
parentheses match. -/
def ReadsClosed (tokens : List Token) : Prop :=
  ∀ (reader : Reader) (rest : List Token), reader.mode = .code → closesCharacter rest = false →
    (reader.readOver tokens rest).mode = .code ∧
      (reader.emittedOver tokens rest).filterMap Event.token? = tokens ∧
      Event.Balanced 0 (reader.emittedOver tokens rest)

/-- The text begins with a letter of the type and ends with a parenthesis. -/
theorem exists_chars (hType : IsWord type) (expression : List LexicalElement) : ∃ c middle,
    (qualified type expression).flatMap (·.chars) = c :: (middle ++ [')']) ∧
    isWordChar c = true := by
  obtain ⟨c, letters, hLetters⟩ :=
    List.exists_cons_of_ne_nil (l := type.toList) (by simpa using hType.1)
  refine ⟨c, letters ++ '\'' :: '(' :: expression.flatMap (·.chars), ?_,
    hType.isWordChar_of_mem (by simp [hLetters])⟩
  simp [qualified, LexicalElement.chars, hLetters]

/-- What a qualified expression is read as, and what is collected from it. -/
theorem exists_qualified (hType : IsWord type ∧ Keyword.ofText? type = none)
    (h : IsExpression expression)
    (hApart : parenthesesApart false (qualified type expression) = true) (offset : Nat) :
    ∃ tokens, SplitsUpTo delimiters offset
      ((qualified type expression).flatMap (·.chars)) tokens false ∧
      ReadsClosed tokens ∧ (Capture.fresh.pushAll tokens).text =
        String.ofList (Text.collapse ((qualified type expression).flatMap (·.chars))) := by
  have hAll := isExpression_qualified hType h
  obtain ⟨tokens, opened, hSplits, hReads⟩ := exists_tokens hAll.valid hAll.joins offset
  obtain ⟨first, middle, hParts, hFirst⟩ := exists_chars hType.1 expression
  have hLast : ((qualified type expression).flatMap (·.chars)).getLast? = some ')' := by
    rw [hParts, ← List.cons_append, List.getLast?_concat]
  obtain rfl := hSplits.opened_of_mark delimiters_areMarks.2 hLast
  refine ⟨tokens, hSplits, fun reader rest hCode hRest => ?_, ?_⟩
  · -- A word stands first, so that it is nothing to it whether a tick is in front.
    have hHere : parenthesesApart reader.isTicked (qualified type expression) = true := by
      rw [qualified, parenthesesApart] at hApart ⊢
      have hNames : type ≠ "(" ∧ type ≠ ")" := by
        constructor <;> (rintro rfl; exact absurd hType.1 (by decide))
      simpa [isString, isParenthesis, hNames] using hApart
    obtain ⟨hMode, hTokens, hBalanced⟩ :=
      hReads false reader.isTicked reader rest ⟨hCode, rfl, by simp⟩ (by simp) hHere hRest
    exact ⟨hMode, hTokens, hBalanced 0 hAll.balanced⟩
  · have hTab : '\x0b' ∉ (qualified type expression).flatMap (·.chars) := by
      intro hMem
      obtain ⟨element, hElement, hChar⟩ := List.mem_flatMap.1 hMem
      exact LexicalElement.tab_not_mem (hAll.valid element hElement) hChar
    rw [hSplits.pushAll delimiters_areBroken hTab, Capture.text_foldl_pushChar]
    · intro c hHead
      rw [hParts] at hHead
      obtain rfl := Option.some.inj hHead
      rw [isWordChar, Bool.and_eq_true, Bool.not_eq_true'] at hFirst
      exact hFirst.1
    · intro c hEnd
      rw [hLast] at hEnd
      obtain rfl := Option.some.inj hEnd
      decide

end Value

section Segments

variable {reader : Reader} {token : Token} {tokens rest : List Token} {pieces : List String}

/-- A plain token is read as one event outside of comments and strings, where no literal closes
behind it. -/
theorem Reader.read_plain (hCode : reader.mode = .code) (hToken : Vhdl.IsPlain token)
    (hRest : closesCharacter rest = false) :
    (reader.read token rest).mode = .code ∧
      ∃ event, Event.OfPlain token event ∧ reader.emitted token rest = [event] := by
  simp only [Vhdl.IsPlain, List.mem_cons, List.not_mem_nil, or_false, not_or] at hToken
  have hRead : ∀ other : Reader, other.mode = .code → ∃ event before,
      other.read token rest =
        { other.emit event with before, passed := (some token, other.passed.1) } ∧
        Event.OfPlain token event := by
    intro other hMode
    have hCharacter : other.isCharacter rest = false := by
      rw [isCharacter_eq, hRest, Bool.and_false]
    rw [read, hMode]
    dsimp only
    rw [readCode, if_neg hToken.1, if_neg hToken.2.1, if_neg hToken.2.2.1, hCharacter]
    cases hBlank : token.isBlank with
    | true => exact ⟨_, other.before, by simp [emit], .filler hBlank⟩
    | false =>
        have hWord := Event.OfPlain.word hBlank other.before
          ((Token.nextSignificant comments none rest).map .ofToken)
        exact ⟨_, some (.ofToken token), by simp [emit], hWord⟩
  obtain ⟨_, _, hHere, -⟩ := hRead reader hCode
  obtain ⟨event, _, hThere, hEvent⟩ := hRead reader.forget hCode
  refine ⟨by rw [hHere]; exact hCode, event, hEvent, ?_⟩
  rw [emitted, hThere]
  simp [emit, forget]

/-- So are more of them. -/
theorem Reader.readOver_plain (hCode : reader.mode = .code)
    (hTokens : ∀ token ∈ tokens, Vhdl.IsPlain token)
    (hRest : leadsTick rest = false ∧ closesCharacter rest = false) :
    (reader.readOver tokens rest).mode = .code ∧
      List.Forall₂ Event.OfPlain tokens (reader.emittedOver tokens rest) := by
  induction tokens generalizing reader with
  | nil => exact ⟨hCode, .nil⟩
  | cons token tokens ih =>
      rw [List.forall_mem_cons] at hTokens
      have hNext : closesCharacter (tokens ++ rest) = false := by
        cases tokens with
        | nil => exact hRest.2
        | cons next tokens =>
            rw [List.cons_append, closesCharacter_cons]
            cases tokens with
            | nil => rw [List.nil_append, hRest.1, Bool.and_false]
            | cons other tokens =>
                have hOther := hTokens.2 other (by simp)
                simp only [Vhdl.IsPlain, List.mem_cons, not_or] at hOther
                simp [leadsTick, hOther.2.2.2.1]
      obtain ⟨hMode, event, hEvent, hEmitted⟩ := reader.read_plain hCode hTokens.1 hNext
      obtain ⟨hEnd, hLater⟩ := ih hMode hTokens.2
      refine ⟨hEnd, ?_⟩
      rw [emittedOver, hEmitted]
      exact .cons hEvent hLater

/-- A text that is written in pieces has them as its tokens, and none of them opens a comment or is
quoted. -/
theorem IsWritten.exists_tokens (h : IsWritten pieces) (offset : Nat) : ∃ tokens opened,
    SplitsUpTo delimiters offset (String.join pieces).toList tokens opened ∧
      (tokens.filter (! ·.isEmpty)).map (·.text) = pieces ∧ ∀ token ∈ tokens, IsPlain token := by
  obtain ⟨tokens, opened, hSplits⟩ := SplitsUpTo.total delimiters offset (String.join pieces).toList
  obtain ⟨tokens', hTokens', hFilter⟩ :=
    h.lexes.splitsInto true (List.forall_mem_nil _) (.inl rfl) offset
  have hSame : tokens ++ [] = tokens' := by
    have hClosing := hSplits.splitsInto true
    have hNone : SplitsUpTo.closing true opened (offset + utf8Len (String.join pieces).toList) =
        [] := by
      simp [SplitsUpTo.closing]
    rw [hNone] at hClosing
    exact (hClosing.unique hTokens').1
  rw [List.append_nil] at hSame
  subst hSame
  have hTexts : (tokens.filter (! ·.isEmpty)).map (·.text) = pieces := by
    rw [hFilter, Token.row, List.filter_cons_of_neg (by simp), Token.filter_row h.lexes.ne_nil,
      Token.text_row]
  refine ⟨tokens, opened, hSplits, hTexts, fun token hMem => ?_⟩
  cases hEmpty : token.isEmpty with
  | true =>
      have hText : token.text = "" := String.isEmpty_iff.1 hEmpty
      simp [IsPlain, hText]
  | false =>
      have hPiece : token.text ∈ pieces := by
        rw [← hTexts]
        exact List.mem_map_of_mem (List.mem_filter.2 ⟨hMem, by simp [hEmpty]⟩)
      exact (h.valid _ hPiece).plain

end Segments

section List

variable {before after : List InterfaceElement} {written : InterfaceElement} {element : Element}
  {rows : Declarations} {tokens : List Token} {kind : ListKind} {mode range value : String}
  {type : Word}

theorem Element.Ends.depth (h : element.Ends mode type range value) : element.depth = 0 := by
  rcases h.part with hPart | hPart | hPart <;> simp [Element.depth, hPart]

/-- What stands around the value of an element is written in pieces. -/
theorem isWritten_around (hBefore : ∀ element ∈ before, element.IsWellFormed)
    (h : written.IsWellFormed) (hAfter : ∀ element ∈ after, element.IsWellFormed) :
    IsWritten (leadingPieces before ++ ({ written with init := none }.pieces ++ [" ", ":=", " "])) ∧
      IsWritten (trailingPieces after) := by
  -- Any other value would do as well.
  have hFilled : { written with init := some ["x"] }.IsWellFormed :=
    { h with
      init := by
        rintro _ ⟨⟩
        decide }
  have hAll : IsWritten
      (interfacePieces (before ++ { written with init := some ["x"] } :: after)) := by
    apply isWritten_interfacePieces
    rw [List.forall_mem_append, List.forall_mem_cons]
    exact ⟨hBefore, hFilled, hAfter⟩
  rw [interfacePieces_append, InterfaceElement.pieces_eq_append] at hAll
  have hParts : leadingPieces before ++
      (({ written with init := none }.pieces ++ [" ", ":=", " ", "x"]) ++
      trailingPieces after) =
        (leadingPieces before ++ ({ written with init := none }.pieces ++ [" ", ":=", " "])) ++
        ("x" :: trailingPieces after) := by
    simp
  have hWhole : IsWritten
      ((leadingPieces before ++ ({ written with init := none }.pieces ++ [" ", ":=", " "])) ++
      ("x" :: trailingPieces after)) := hParts ▸ hAll
  obtain ⟨hFront, hBack, -⟩ := IsWritten.append_iff.1 hWhole
  exact ⟨hFront, (IsWritten.cons_iff.1 hBack).2.2⟩

namespace Filling

/-- The elements in front of a value are read, and the names of its own element wait for it. -/
theorem takeAll_upToValue (kind : ListKind) (hBefore : ∀ element ∈ before, element.IsWellFormed)
    (h : written.IsWellFormed)
    (hTokens : tokens.map (·.text) =
      leadingPieces before ++ ({ written with init := none }.pieces ++ [" ", ":=", " "])) :
    ∃ (words : List Word) (type : Word) (rows : Declarations),
      words.map (·.text) = written.names ∧ type.text = written.type ∧ rows.pending = words.toArray ∧
      rows.texts = before.flatMap (·.rows kind.defaultMode) ∧
      takeAll kind {} tokens = some ⟨⟨.value 0, written.mode.getD "", some type,
        (written.constraint.map (·.text)).getD "", .fresh⟩, rows⟩ := by
  obtain ⟨lead, _, rfl, hLead, hRest⟩ := List.map_eq_append_iff.1 hTokens
  obtain ⟨front, last, rfl, hFront, hLast⟩ := List.map_eq_append_iff.1 hRest
  obtain ⟨rows, hRows, hNone, hTexts⟩ := takeAll_leading kind hBefore hLead {} rfl
  obtain ⟨words, type, settled, hWords, hType, hSettles, hSettled⟩ :=
    takeAll_settled kind rows h hFront
  refine ⟨words, type, { rows with pending := rows.pending ++ words.toArray }, hWords, hType,
    by simp [hNone], ?_, ?_⟩
  · rw [Declarations.texts] at hTexts ⊢
    simpa [Declarations.texts] using hTexts
  · rw [takeAll_append hRows, takeAll_append hSettled, takeAll_becomes kind _ hSettles hLast]

/-- The elements behind one that can end are read. -/
theorem takeAll_trailing (rows : Declarations) (kind : ListKind)
    (hAfter : ∀ element ∈ after, element.IsWellFormed)
    (hTokens : tokens.map (·.text) = trailingPieces after)
    (hEnds : element.Ends mode type range value) :
    ∃ filling, takeAll kind ⟨element, rows⟩ tokens = some filling ∧ filling.element.depth = 0 ∧
      (filling.element.complete kind.defaultMode filling.list).texts =
        (element.complete kind.defaultMode rows).texts ++
          after.flatMap (·.rows kind.defaultMode) := by
  cases after with
  | nil =>
      obtain rfl : tokens = [] := by simpa [trailingPieces] using hTokens
      exact ⟨⟨element, rows⟩, rfl, hEnds.depth, by simp⟩
  | cons next after =>
      rw [trailingPieces_cons] at hTokens
      obtain ⟨semicolon, _, rfl, hSemicolon, hRest⟩ := List.map_eq_cons_iff.1 hTokens
      obtain ⟨space, rest, rfl, hSpace, hPieces⟩ := List.map_eq_cons_iff.1 hRest
      obtain ⟨filling, hFilling, hLast, hTexts⟩ :=
        takeAll_interface kind hAfter hPieces (element.complete kind.defaultMode rows) rfl
      refine ⟨filling, ?_, ?_, hTexts⟩
      · rw [takeAll_cons (take_semicolon hEnds hSemicolon),
          takeAll_cons (take_gap rfl hSpace), hFilling]
      · obtain hNew | ⟨_, _, _, _, hEnds⟩ := hLast
        · rw [hNew]
          rfl
        · exact hEnds.depth

end Filling

section Reading

variable {region : Region} {list : InterfaceList} {text type : String}
  {expression : List LexicalElement}

/-- The tokens of a text do not start with a tick: in front of a delimiter stands an empty one. -/
theorem leadsTick_eq_false {chars : List Char} {offset : Nat} {opened : Bool}
    (h : SplitsUpTo delimiters offset chars tokens opened) (hSome : chars ≠ [])
      (rest : List Token) :
    leadsTick (tokens ++ rest) = false := by
  have hTick : ∀ rest, Delimiter.takeFirst? delimiters ('\'' :: rest) ≠ none := fun rest =>
    (tick_isMark.takeFirst? rest).symm ▸ Option.some_ne_none 1
  have hOther (word : List Char) (start : Nat) (hWord : '\'' ∉ word) :
      (Token.placed start word).text ≠ "'" := by
    intro hText
    rw [Token.eq_of_text_placed hText] at hWord
    exact hWord (by decide)
  cases h with
  | done => exact absurd rfl hSome
  | cut hCut hRest => simp [leadsTick, hOther _ _ (not_mem_word hTick hCut)]
  | last hChars hCut => simp [leadsTick, hOther _ _ (not_mem_last hTick hCut)]

/-- Tokens that are pieces, those of an expression, and pieces again. -/
structure AreSegments (front back : List String) (collected : String)
    (first value last : List Token) : Prop where
  frontTexts : (first.filter (! ·.isEmpty)).map (·.text) = front
  frontPlain : ∀ token ∈ first, IsPlain token
  closed : ReadsClosed value
  collects : (Capture.fresh.pushAll value).text = collected
  backTexts : (last.filter (! ·.isEmpty)).map (·.text) = back
  backPlain : ∀ token ∈ last, IsPlain token
  frontApart : leadsTick (value ++ last) = false ∧ closesCharacter (value ++ last) = false
  backApart : closesCharacter last = false

/-- A word in front of a closing parenthesis, between a space and what is written behind it, is
split as it is alone. -/
theorem splits_between {front middle back : List Char} {c : Char} {first value last : List Token}
    {opensFirst opensLast : Bool} (hWordChar : isWordChar c = true)
    (hSpace : front.getLast? = some ' ')
    (hFirst : SplitsUpTo delimiters 0 front first opensFirst)
    (hValue : SplitsUpTo delimiters (0 + utf8Len front) (c :: (middle ++ [')'])) value false)
    (hLast : SplitsUpTo delimiters (0 + utf8Len front + utf8Len (c :: (middle ++ [')']))) back last
      opensLast) :
    SplitsUpTo delimiters 0 (front ++ (c :: (middle ++ [')']) ++ back)) (first ++ (value ++ last))
      opensLast := by
  have hBehind : SplitsUpTo delimiters (0 + utf8Len front)
      (c :: (middle ++ [')']) ++ back) (value ++ last) opensLast := by
    refine hValue.append_joint (fun before hEnd next _ => ?_) (by simp) hLast
    rw [← List.cons_append, List.getLast?_concat] at hEnd
    obtain rfl := Option.some.inj hEnd
    exact delimiters_areMarks.2.parts_left delimiters_areBroken.blank next
  obtain rfl : opensFirst = false := hFirst.opened_eq_false delimiters_areBroken fun c hEnd => by
    rw [hSpace] at hEnd
    obtain rfl := Option.some.inj hEnd
    rfl
  refine hFirst.append delimiters_areBroken (fun before hEnd next hHead => ?_) (by simp) hBehind
  rw [hSpace] at hEnd
  obtain rfl := Option.some.inj hEnd
  obtain rfl := Option.some.inj hHead
  refine ⟨.inl rfl, fun hGaps => ?_⟩
  rw [isGap_of_isWordChar hWordChar] at hGaps
  cases hGaps.2

/-- What closes a list without a sentinel adds no piece, and is plain. -/
theorem pieces_closing (opened : Bool) (size : Nat) (tokens : List Token) :
    (tokens ++ SplitsUpTo.closing false opened size).filter (! ·.isEmpty) =
        tokens.filter (! ·.isEmpty) ∧
      ∀ token ∈ SplitsUpTo.closing false opened size, IsPlain token := by
  cases opened <;> simp [SplitsUpTo.closing, Token.placed, Token.isEmpty, IsPlain]

/-- What is written without a tick in front ends no character literal. -/
theorem closesCharacter_written {chars : List Char} {offset : Nat} {opened : Bool}
    (h : SplitsUpTo delimiters offset chars tokens opened)
    (hMark : ∀ c ∈ chars.head?, c ≠ '\'') (size : Nat) :
    closesCharacter (tokens ++ SplitsUpTo.closing false opened size) = false := by
  cases hHead : chars.head? with
  | none =>
      rw [List.head?_eq_none_iff.1 hHead] at h
      obtain ⟨rfl, rfl⟩ := h.unique (.done _)
      rfl
  | some d => exact closesCharacter_eq_false h ⟨d, hHead, hMark d hHead⟩ _

/-- A qualified expression between a space and what is no tick is split as it is alone. -/
theorem exists_segments {front back : List String} (hFront : IsWritten front)
    (hSpace : (String.join front).toList.getLast? = some ' ') (hBack : IsWritten back)
    (hMark : ∀ c ∈ (String.join back).toList.head?, c ≠ '\'')
    (hType : IsWord type ∧ Keyword.ofText? type = none)
    (hExpression : IsExpression expression)
    (hApart : parenthesesApart false (qualified type expression) = true)
    (hText : (Text.foldCase text).toList = (String.join front).toList ++
      ((qualified type expression).flatMap (·.chars) ++ (String.join back).toList)) :
    ∃ first value last, (Vhdl.tokens none text).list = first ++ (value ++ last) ∧
      AreSegments front back
      (String.ofList (Text.collapse ((qualified type expression).flatMap (·.chars)))) first
      value last := by
  obtain ⟨first, opensFirst, hFirst, hFirstTexts, hFirstPlain⟩ := hFront.exists_tokens 0
  obtain ⟨value, hValue, hClosed, hCollects⟩ :=
    exists_qualified hType hExpression hApart (0 + utf8Len (String.join front).toList)
  obtain ⟨last, opensLast, hLast, hLastTexts, hLastPlain⟩ := hBack.exists_tokens
    (0 + utf8Len (String.join front).toList + utf8Len
      ((qualified type expression).flatMap (·.chars)))
  obtain ⟨c, middle, hChars, hWordChar⟩ := exists_chars hType.1 expression
  rw [hChars] at hValue hLast hText
  have hTick : c ≠ '\'' := by
    rintro rfl
    cases hWordChar
  have hAll := splits_between hWordChar hSpace hFirst hValue hLast
  rw [← hText] at hAll
  obtain ⟨hPieces, hPlain⟩ := pieces_closing opensLast text.utf8ByteSize last
  refine ⟨first, value, last ++ SplitsUpTo.closing false opensLast text.utf8ByteSize, ?_,
    hFirstTexts, hFirstPlain, hClosed, hCollects, ?_, ?_, ?_, ?_⟩
  · rw [list_tokens hAll, List.append_assoc, List.append_assoc]
  · rw [hPieces, hLastTexts]
  · exact List.forall_mem_append.2 ⟨hLastPlain, hPlain⟩
  · exact ⟨leadsTick_eq_false hValue (by simp) _, closesCharacter_eq_false hValue ⟨c, rfl, hTick⟩ _⟩
  · exact closesCharacter_written hLast hMark text.utf8ByteSize

/-- The segments of a text are read one after the other. -/
theorem AreSegments.reads {front back : List String} {collected : String}
    {first value last : List Token} (h : AreSegments front back collected first value last) :
    ∃ lead middle tail, (Reader.readOver {} (first ++ (value ++ last)) []).mode = .code ∧
      Reader.emittedOver {} (first ++ (value ++ last)) [] = lead ++ (middle ++ tail) ∧
      List.Forall₂ Event.OfPlain first lead ∧ middle.filterMap Event.token? = value ∧
      Event.Balanced 0 middle ∧
      List.Forall₂ Event.OfPlain last tail := by
  have hCode : Reader.mode {} = .code := rfl
  have hNone : leadsTick [] = false ∧ closesCharacter [] = false := ⟨rfl, rfl⟩
  obtain ⟨hFirst, hLead⟩ := Reader.readOver_plain hCode h.frontPlain h.frontApart
  obtain ⟨hValue, hTokens, hMiddle⟩ := h.closed _ last hFirst h.backApart
  obtain ⟨hLast, hTail⟩ := Reader.readOver_plain hValue h.backPlain hNone
  refine ⟨_, _, _, ?_, ?_, hLead, hTokens, hMiddle, hTail⟩
  · rw [Reader.isReader.readOver_append, Reader.isReader.readOver_append, List.append_nil,
      List.append_nil]
    exact hLast
  · rw [Reader.isReader.emittedOver_append, Reader.isReader.emittedOver_append, List.append_nil,
      List.append_nil]

/-- The text of a list that gives a qualified expression as a value is read to its end, and the list
has the rows of its elements. -/
theorem exists_filling (hStart : (Walk.start region).Fills list {} {})
    (hBefore : ∀ element ∈ before, element.IsWellFormed) (h : written.IsWellFormed)
    (hAfter : ∀ element ∈ after, element.IsWellFormed) {collected : String}
    {first value last : List Token}
    (hSegments : AreSegments (leadingPieces before ++ ({ written with init := none }.pieces ++
      [" ", ":=", " "])) (trailingPieces after) collected first value last)
    (hList : (Vhdl.tokens none text).list = first ++ (value ++ last)) :
    ∃ filling, (walkAt region none text).Fills list {} filling ∧ (readerAt none text).mode = .code ∧
      filling.element.depth = 0 ∧
      (filling.element.complete list.kind.defaultMode filling.list).texts =
        (before ++ { written with init := some [collected] } :: after).flatMap
          (·.rows list.kind.defaultMode) := by
  obtain ⟨lead, middle, tail, hMode, hEvents, hLead, hTokens, hMiddle, hTail⟩ := hSegments.reads
  obtain ⟨words, type, rows, hWords, hType, hPending, hTexts, hTake⟩ :=
    Filling.takeAll_upToValue list.kind hBefore h hSegments.frontTexts
  set opened : Element := ⟨.value 0, written.mode.getD "", some type,
    (written.constraint.map (·.text)).getD "", .fresh⟩ with hOpened
  have hOpens : ((Walk.start region).run lead).Fills list {}
      ⟨opened.within .value (0 + 0) [], rows⟩ :=
    hStart.run hLead hTake
  have hActive : opened.expr.active = true := rfl
  have hNesting : Nesting.value = .range false → 0 ≠ 0 := by simp
  have hCollects := (Walk.counts_interface rows hActive hNesting).run [] hMiddle hOpens
  rw [hTokens, List.nil_append] at hCollects
  have hEnds : (opened.within .value (0 + 0) value).Ends (written.mode.getD "") type
      ((written.constraint.map (·.text)).getD "") collected :=
    ⟨rfl, rfl, rfl, hSegments.collects, .inr (.inr rfl)⟩
  obtain ⟨filling, hTrailing, hDepth, hRest⟩ := Filling.takeAll_trailing rows list.kind hAfter
    hSegments.backTexts hEnds
  have hWalk : walkAt region none text = (((Walk.start region).run lead).run middle).run tail := by
    rw [walkAt, readerAt, hList, Reader.isReader.readAll_eq_readOver, ← Walk.run_append,
      ← Walk.run_append, ← hEvents, Reader.isReader.emittedOver_eq]
    rfl
  refine ⟨filling, ?_, ?_, hDepth, ?_⟩
  · rw [hWalk]
    exact hCollects.run hTail hTrailing
  · rw [readerAt, hList, Reader.isReader.readAll_eq_readOver]
    exact hMode
  · have hRows := hEnds.texts_complete { written with init := some [collected] } list.kind h.mode
      hWords hType hPending
    rw [hRest, hRows, hTexts, List.flatMap_append, List.flatMap_cons, List.append_assoc]

end Reading

end List

/-- The text of elements in lower case is that of the elements in lower case. -/
theorem toList_foldCase_elementsText (elements : List LexicalElement) :
    (Text.foldCase (elementsText elements)).toList = (elements.map (·.fold)).flatMap (·.chars) := by
  have hTick : Char.toLower '\'' = '\'' := rfl
  have hQuote : Char.toLower '"' = '"' := rfl
  have hChars (element : LexicalElement) : element.fold.chars = element.chars.map Char.toLower := by
    cases element <;> simp [LexicalElement.fold, LexicalElement.chars, hTick, hQuote]
  simp [elementsText, List.flatMap_map, List.map_flatMap, hChars]

/-- Folding a qualified expression folds its type and what stands in parentheses. -/
theorem fold_qualified (type : String) (expression : List LexicalElement) :
    (qualified type expression).map (·.fold) =
    qualified (Text.foldCase type) (expression.map (·.fold)) := by
  have hOpen : Text.foldCase "(" = "(" := rfl
  have hClose : Text.foldCase ")" = ")" := rfl
  simp [qualified, LexicalElement.fold, hOpen, hClose]

section Scanning

variable {before after : List InterfaceElement} {written : InterfaceElement}
  {elements : List LexicalElement}
  {region : Region} {list : InterfaceList} {text : String} {filling : Filling}

/-- The text of a list around the value of an element. -/
theorem toList_foldCase_interfaceText (before after : List InterfaceElement)
    (written : InterfaceElement) (elements : List LexicalElement) :
    (Text.foldCase (interfaceText
      (before ++ { written with init := some [elementsText elements] } :: after))).toList =
      (String.join (leadingPieces (before.map (·.fold)) ++
        ({ written.fold with init := none }.pieces ++ [" ", ":=", " "]))).toList ++
        ((elements.map (·.fold)).flatMap (·.chars) ++
          (String.join (trailingPieces (after.map (·.fold)))).toList) := by
  have hValue : { written with init := some [elementsText elements] }.fold.valuePieces =
      [" ", ":=", " "] ++ [Text.foldCase (elementsText elements)] := rfl
  have hBare : { { written with init := some [elementsText elements] }.fold with init := none } =
      { written.fold with init := none } := rfl
  rw [← interfaceText_fold, ← join_interfacePieces, List.map_append, List.map_cons,
    interfacePieces_append, InterfaceElement.pieces_eq_append, hValue, hBare,
    ← toList_foldCase_elementsText]
  simp

/-- What is found where the text ends in a list that is all of it. -/
theorem scan_filled (h : (walkAt region none text).Fills list {} filling)
    (hOwner : list.owner = .text) :
    (scan region none text).table.toFindings = (if list.kind = .generics
      then { Findings.modifyList {} list.kind
          (fun _ => filling.element.complete list.kind.defaultMode filling.list) with
        genericClause := some ⟨list.inside, text.utf8ByteSize⟩ }
      else Findings.modifyList {} list.kind
        fun _ => filling.element.complete list.kind.defaultMode filling.list) := by
  refine (settled_walkThrough region _ _).align_eq_self.trans ?_
  rw [walkThrough_eq, h.finish hOwner, Walk.found_closeList, h.found_completeElement]

/-- The rows of a list that gives a qualified expression as a value, where the list is the whole
text. -/
theorem exists_rows {region : Region} {list : InterfaceList} {type : String}
    {expression : List LexicalElement} (hStart : (Walk.start region).Fills list {} {})
    (hOwner : list.owner = .text) (hBefore : ∀ element ∈ before, element.fold.IsWellFormed)
    (hWritten : { written with init := none }.fold.IsWellFormed)
    (hAfter : ∀ element ∈ after, element.fold.IsWellFormed)
    (hType : IsWord (Text.foldCase type) ∧ Keyword.ofText? (Text.foldCase type) = none)
    (hExpression : IsExpression (expression.map (·.fold)))
    (hApart : parenthesesApart false ((qualified type expression).map (·.fold)) = true) :
    let value := elementsText (qualified type expression)
    let text := interfaceText (before ++ { written with init := some [value] } :: after)
    EndsInList region text ∧ ∃ rows : Declarations,
      rows.texts = (before ++
        { written with init := some [String.ofList (Text.collapse value.toList)] } ::
        after).flatMap (·.fold.rows list.kind.defaultMode) ∧
      (scan region none text).table.toFindings = (if list.kind = .generics
        then { Findings.modifyList {} list.kind (fun _ => rows) with
          genericClause := some ⟨list.inside, text.utf8ByteSize⟩ }
        else Findings.modifyList {} list.kind fun _ => rows) := by
  intro value text
  have hText := toList_foldCase_interfaceText before after written (qualified type expression)
  rw [fold_qualified] at hText hApart
  have hBare : { written.fold with init := none }.IsWellFormed := hWritten
  obtain ⟨hFront, hBack⟩ :=
    isWritten_around (List.forall_mem_map.2 hBefore) hBare (List.forall_mem_map.2 hAfter)
  have hSpace : (String.join (leadingPieces (before.map (·.fold)) ++
      ({ written.fold with init := none }.pieces ++ [" ", ":=", " "]))).toList.getLast? =
        some ' ' := by
    have hEnd : (String.join [" ", ":=", " "]).toList.getLast? = some ' ' := rfl
    rw [← List.append_assoc, String.join_append, String.toList_append, List.getLast?_append, hEnd]
    rfl
  have hMark : ∀ c ∈ (String.join (trailingPieces (after.map (·.fold)))).toList.head?,
      c ≠ '\'' := by
    cases after with
    | nil => simp [trailingPieces]
    | cons next after =>
        intro c hHead
        obtain rfl : ';' = c := by simpa [trailingPieces] using hHead
        decide
  obtain ⟨first, middle, last, hList, hSegments⟩ :=
    exists_segments hFront hSpace hBack hMark hType hExpression hApart hText
  obtain ⟨filling, hFills, hMode, hDepth, hRows⟩ :=
    exists_filling hStart (List.forall_mem_map.2 hBefore) hBare
      (List.forall_mem_map.2 hAfter) hSegments hList
  refine ⟨⟨hMode, ?_⟩, _, ?_, scan_filled hFills hOwner⟩
  · rw [hFills.place, Place.endsList, hDepth, hOwner]
    rfl
  · have hCollapsed : Text.foldCase (String.ofList (Text.collapse value.toList)) = String.ofList
        (Text.collapse ((qualified (Text.foldCase type) (expression.map (·.fold))).flatMap
          (·.chars))) := by
      rw [← fold_qualified, ← toList_foldCase_elementsText, Text.toList_foldCase,
        Text.collapse_map Text.isAsciiBlank_toLower rfl, Text.foldCase, String.toList_ofList]
    rw [hRows, ← hCollapsed]
    simp [List.flatMap_map, InterfaceElement.fold]

/-- A walk over the events of the tokens, in the maps of an instance, in the body of a process or in
an expression of an object declaration, has as many parentheses open behind them as in front. -/
structure KeepsDepth (tokens : List Token) (events : List Event) : Prop where
  map (walk : Walk) (depth : Nat) (hPlace : walk.place = .instanceMap depth) :
    walk.Stands (.instanceMap depth) (walk.run events)
  body (walk : Walk) (process : HdlProcess) (depth : Nat) (statement : Sequential)
    (hPlace : walk.place = .processBody process depth statement) :
    ∃ process' statement', walk.Stands (.processBody process' depth statement') (walk.run events)
  object (walk : Walk) (kind : ObjectKind) (home : Home) (element : Element) (nesting : Nesting)
    (depth : Nat)
    (hPlace : walk.place = .objectDeclaration kind home element) (hPart : element.part =
      nesting.part depth)
    (hActive : element.expr.active = true) (hNesting : nesting = .range false → depth ≠ 0) :
    walk.Stands (.objectDeclaration kind home { element with expr := element.expr.pushAll tokens })
      (walk.run events)

/-- Tokens with matching parentheses keep the depth wherever they are read. -/
theorem ReadsClosed.keepsDepth {tokens rest : List Token} {reader : Reader} (h : ReadsClosed tokens)
    (hCode : reader.mode = .code) (hRest : closesCharacter rest = false) :
    KeepsDepth tokens (reader.emittedOver tokens rest) := by
  obtain ⟨-, hTokens, hBalanced⟩ := h reader rest hCode hRest
  have hStands (walk : Walk) {place : Place} (hPlace : walk.place = place) :
      walk.Stands place walk :=
    ⟨walk.notes, by rw [← hPlace]⟩
  refine ⟨fun walk depth hPlace => ?_, fun walk process depth statement hPlace => ?_,
    fun walk kind home element nesting depth hPlace hPart hActive hNesting => ?_⟩
  · exact (walk.counts_map depth).run [] hBalanced (hStands walk hPlace)
  · exact (walk.counts_body depth).run [] hBalanced ⟨process, statement, hStands walk hPlace⟩
  · have hStart : walk.Stands
        (.objectDeclaration kind home (element.within nesting (depth + 0) [])) walk := by
      refine hStands walk (hPlace.trans ?_)
      rw [Element.within, Nat.add_zero, ← hPart]
      rfl
    have hRun := (walk.counts_object kind home hActive hNesting).run [] hBalanced hStart
    rw [hTokens, List.nil_append, Element.within, Nat.add_zero, ← hPart] at hRun
    exact hRun

theorem Declarations.texts_moved (move : Nat → Nat) (list : Declarations) :
    (list.moved move).texts = list.texts := by
  simp [Declarations.texts, Declarations.moved, Row.moved, Row.texts, Word.moved, Function.comp_def]

/-- A qualified expression whose parentheses do not stand right between two ticks. As the initial
value of an interface element it is recorded with one space for each run of blanks, with the
elements in front of it and behind it, and the generic clause ends with the list. Wherever it stands
in a text, it leaves the depth of the maps of an instance, of a process body and of an object
declaration as it was. -/
theorem scan_qualified (before after : List InterfaceElement) (written : InterfaceElement)
    (type : String) (expression : List LexicalElement) {lead : String} {entities : Words}
    (hLead : OpensList .generics lead entities)
    (hBefore : ∀ element ∈ before, element.fold.IsWellFormed)
    (hWritten : { written with init := none }.fold.IsWellFormed)
    (hAfter : ∀ element ∈ after, element.fold.IsWellFormed)
    (hType : IsWord (Text.foldCase type) ∧ Keyword.ofText? (Text.foldCase type) = none)
    (hExpression : IsExpression (expression.map (·.fold)))
    (hApart : parenthesesApart false ((qualified type expression).map (·.fold)) = true) :
    let value := elementsText (qualified type expression)
    let text := interfaceText (before ++ { written with init := some [value] } :: after)
    let rows (mode : String) :=
      (before ++ { written with init := some [String.ofList (Text.collapse value.toList)] } ::
        after).flatMap (·.fold.rows mode)
    let ports := (scan .portList none text).table
    let generics := (scan .genericList none text).table
    let unit := (scan .entityContext none (lead ++ text ++ "); end;")).table
    (ports.ports.texts = rows "in" ∧ generics.generics.texts = rows "" ∧
      unit.generics.texts = rows "" ∧
      generics.genericDefinition = text ∧ unit.genericDefinition = text) ∧
    ∀ (offset : Nat) (tokens : List Token) (opened : Bool),
      SplitsUpTo delimiters offset (Text.foldCase value).toList tokens opened →
      ∀ (reader : Reader) (rest : List Token), reader.mode = .code → closesCharacter rest = false →
        (reader.readOver tokens rest).mode = .code ∧
        KeepsDepth tokens (reader.emittedOver tokens rest) := by
  intro value text rows ports generics unit
  constructor
  · have hPorts : (Walk.start .portList).Fills ⟨.ports, .text, 0⟩ {} {} := ⟨rfl, rfl, rfl⟩
    have hGenerics : (Walk.start .genericList).Fills ⟨.generics, .text, 0⟩ {} {} := ⟨rfl, rfl, rfl⟩
    obtain ⟨-, portRows, hPortTexts, hPortTable⟩ :=
      exists_rows hPorts rfl hBefore hWritten hAfter hType hExpression hApart
    obtain ⟨hEnds, genericRows, hGenericTexts, hGenericTable⟩ :=
      exists_rows hGenerics rfl hBefore hWritten hAfter hType hExpression hApart
    obtain ⟨hLists, hDefinition⟩ := scan_listInEntity hEnds hLead rfl
    have hPortList : ports.ports = portRows := congrArg Findings.ports hPortTable
    have hGenericList : generics.generics = genericRows := congrArg Findings.generics hGenericTable
    have hUnitList : unit.generics = generics.generics.moved (lead.utf8ByteSize + ·) := by
      have hPairs : unit.lists = generics.lists.map _ := hLists
      simp only [Findings.lists, List.map_cons, List.cons.injEq, Prod.mk.injEq, true_and] at hPairs
      exact hPairs.2.1
    rw [hUnitList, Declarations.texts_moved, hPortList, hGenericList]
    exact ⟨hPortTexts, hGenericTexts, hGenericTexts, hDefinition rfl⟩
  · intro offset tokens opened hSplits reader rest hCode hRest
    have hClosed : ReadsClosed tokens := by
      rw [fold_qualified] at hApart
      obtain ⟨_, hSplits', hClosed, -⟩ := exists_qualified hType hExpression hApart offset
      rw [← fold_qualified, ← toList_foldCase_elementsText] at hSplits'
      rwa [(hSplits.unique hSplits').1]
    exact ⟨(hClosed reader rest hCode hRest).1, hClosed.keepsDepth hCode hRest⟩

/-- Parentheses as characters of literals and in a string, with blanks between them and those of the
expression. -/
theorem scan_qualified_literals :
    let written : InterfaceElement := { names := ["g"], type := "t" }
    let expression : List LexicalElement :=
      [.blank " ", .character '(', .blank "  ", .piece "&", .blank "\n", .string ") ;", .blank " "]
    let value := elementsText (qualified "Q" expression)
    let text :=
      interfaceText [{ written with init := some [value] }, { names := ["h"], type := "u" }]
    IsExpression (expression.map (·.fold)) ∧
    parenthesesApart false ((qualified "Q" expression).map (·.fold)) = true ∧
    text = "g : t := Q'( '('  &\n\") ;\" ); h : u" ∧
    (scan .genericList none text).table.generics.texts =
      [["g", "", "t", "", "q'( '(' & \") ;\" )"], ["h", "", "u", "", ""]] ∧
    (scan .entityContext none ("entity e is generic (" ++ text ++
      "); end;")).table.genericDefinition = text := by
  intro written expression value text
  have hExpression : IsExpression (expression.map (·.fold)) := by decide +kernel
  have hApart : parenthesesApart false ((qualified "Q" expression).map (·.fold)) = true := by
    decide +kernel
  have hWritten : { written with init := none }.fold.IsWellFormed := by decide +kernel
  have hAfter : ∀ element ∈ [({ names := ["h"], type := "u" } : InterfaceElement)],
      element.fold.IsWellFormed := by
    decide +kernel
  obtain ⟨⟨-, hGenerics, -, -, hDefinition⟩, -⟩ :=
    scan_qualified [] [{ names := ["h"], type := "u" }] written "Q"
      expression opensList_generics (by simp) hWritten hAfter (by decide +kernel) hExpression hApart
  refine ⟨hExpression, hApart, by decide +kernel, hGenerics.trans (by decide +kernel), hDefinition⟩

/-- A literal right behind the parenthesis of a qualified expression: the parenthesis is taken for
the character of a literal between the tick in front of it and the tick behind it. So the closing
one ends the list, and `h` is lost. -/
theorem scan_qualified_literalFirst :
    let value := elementsText (qualified "q" [.character 'a'])
    let text := interfaceText [{ names := ["g"], type := "t", init := some [value] },
      { names := ["h"], type := "u" }]
    let unit := (scan .entityContext none ("entity e is generic (" ++ text ++ "); end;")).table
    IsExpression [.character 'a'] ∧ text = "g : t := q'('a'); h : u" ∧
      unit.generics.texts = [["g", "", "t", "", "q'('a'"]] ∧
      unit.genericDefinition = "g : t := q'('a'" := by
  simp only [scan_computed]
  decide +kernel

end Scanning

end Vhdl

end HdlIndex

import HdlIndex.Proofs.Vhdl.InterfaceRun
import HdlIndex.Proofs.Vhdl.InterfaceText
import HdlIndex.Proofs.Vhdl.Phrase
import HdlIndex.Proofs.Vhdl.WordReading

/-! Reading back a written interface element. The tokens of its pieces are taken one part after the
other: the names, the mode and the type, the constraint, and the initial value. -/
namespace HdlIndex.Vhdl

variable {kind : ListKind} {element : Element} {written : InterfaceElement} {list : Declarations}
  {token : Token} {tokens : List Token}

namespace Element

/-- An identifier that is no object class is a declared name. -/
theorem readName_name (hName : isNameLike token.text = true) (hClass : token.text ∉ objectClasses) :
    element.readName true (.ofToken token) = .name (Lexeme.ofToken token).word := by
  have hSymbol := Symbol.ofText_of_isNameLike hName
  cases hWord : Keyword.ofText? token.text with
  | none =>
      rw [hWord] at hSymbol
      have hHere : (Lexeme.ofToken token).symbol = .name := hSymbol
      rw [readName, hHere]
  | some word =>
      rw [hWord] at hSymbol
      have hHere : (Lexeme.ofToken token).symbol = .keyword word := hSymbol
      rw [← Keyword.text_of_ofText? hWord] at hClass
      rw [readName, hHere]
      split <;> simp_all [objectClasses, Keyword.text]

end Element

/-- The parts of an element that take an expression. -/
inductive Nesting where
  | range (keyword : Bool)
  | value

/-- The part of an element in an expression with a number of open parentheses. -/
def Nesting.part : Nesting → (depth : Nat) → Part
  | range keyword, depth => .range keyword depth
  | value, depth => .value depth

namespace Element

variable {nesting : Nesting} {depth : Nat} {inList : Bool} {here : Lexeme}

theorem read_open (hPart : element.part = nesting.part depth) (hSymbol : here.symbol = .parenOpen) :
    element.read inList here =
      .stay { element.push here with part := nesting.part (depth + 1) } := by
  rw [read, hPart]
  cases nesting with
  | range keyword => simp [Nesting.part, readRange, hSymbol]
  | value => simp [Nesting.part, readValue, hSymbol]

/-- A closing parenthesis leaves the expression only where it ends a constraint in parentheses. -/
theorem read_close (hPart : element.part = nesting.part (depth + 1))
    (hSymbol : here.symbol = .parenClose) (hInside : nesting = .range false → depth ≠ 0) :
    element.read inList here = .stay { element.push here with part := nesting.part depth } := by
  rw [read, hPart]
  cases nesting with
  | range keyword => cases keyword <;> simp_all [Nesting.part, readRange]
  | value => simp [Nesting.part, readValue, hSymbol]

/-- Every other word is added, unless it ends the expression. -/
theorem read_inside (hPart : element.part = nesting.part depth) (hOpen : here.symbol ≠ .parenOpen)
    (hClose : here.symbol ≠ .parenClose)
    (hEnds : depth ≠ 0 ∨ (here.symbol ≠ .semicolon ∧ here.symbol ≠ .becomes)) :
    element.read inList here = .stay (element.push here) := by
  have hNotEnd (hDepth : depth = 0) : here.symbol ≠ .semicolon ∧ here.symbol ≠ .becomes :=
    hEnds.resolve_left (not_not.2 hDepth)
  rw [read, hPart]
  cases nesting with
  | range keyword =>
      simp only [Nesting.part, readRange]
      split <;> simp_all
  | value =>
      simp only [Nesting.part, readValue]
      split <;> simp_all

end Element

namespace Filling

open Element

variable {nesting : Nesting} {enclosed : Bool} {depth : Nat}

/-- A piece of a balanced expression is added to it. -/
theorem take_balanced (hNesting : nesting = .range false → enclosed = true)
    (hPiece : IsPiece token.text)
    (hBalanced : isBalanced enclosed depth (token.text :: tokens.map (·.text)) = true)
    (hPart : element.part = nesting.part (enclosed.toNat + depth))
    (hActive : element.expr.active = true) :
    ∃ next, isBalanced enclosed next (tokens.map (·.text)) = true ∧
      take kind ⟨element, list⟩ token = some ⟨{ element with
        part := nesting.part (enclosed.toNat + next), expr := element.expr.push token }, list⟩ := by
  have hBlank := hPiece.isBlank_token
  rw [isBalanced] at hBalanced
  by_cases hSpace : token.text = " "
  · refine ⟨depth, by simpa [hSpace] using hBalanced, ?_⟩
    rw [take_blank (by simp [hBlank, hSpace]), Capture.absorb_of_active hActive, ← hPart]
  have hWord : token.isBlank = false := by simp [hBlank, hSpace]
  split at hBalanced
  · next hOpen =>
    exact ⟨depth + 1, hBalanced, take_stay hWord (read_open hPart (Lexeme.symbol_ofToken hOpen))⟩
  split at hBalanced
  · next hOpen hClose =>
    rw [Bool.and_eq_true, bne_iff_ne] at hBalanced
    obtain ⟨next, rfl⟩ := Nat.exists_eq_succ_of_ne_zero hBalanced.1
    refine ⟨next, hBalanced.2, take_stay hWord (read_close hPart (Lexeme.symbol_ofToken hClose) ?_)⟩
    intro hRange
    simp [hNesting hRange]
  · next hOpen hClose =>
    rw [Bool.and_eq_true] at hBalanced
    refine ⟨depth, hBalanced.2, ?_⟩
    rw [← hPart]
    have hSymbol {text : String} {symbol : Symbol} (hText : token.text ≠ text)
        (hSpelling : symbol.spelling? = some text) : (Lexeme.ofToken token).symbol ≠ symbol := by
      rintro rfl
      exact hText (Symbol.eq_of_spelling? hSpelling)
    refine take_stay hWord (read_inside hPart (hSymbol hOpen rfl) (hSymbol hClose rfl) ?_)
    cases enclosed with
    | true => exact .inl (by simp)
    | false =>
        have hEnds : false.toNat + depth ≠ 0 ∨ (token.text ≠ ";" ∧ token.text ≠ ":=") := by
          simpa using hBalanced.1
        exact hEnds.imp id fun hTexts => ⟨hSymbol hTexts.1 rfl, hSymbol hTexts.2 rfl⟩

/-- A balanced expression is added as a whole. -/
theorem takeAll_balanced (nesting : Nesting) (hNesting : nesting = .range false → enclosed = true)
    (hPieces : ∀ token ∈ tokens, IsPiece token.text)
    (hBalanced : isBalanced enclosed depth (tokens.map (·.text)) = true) (element : Element)
    (hPart : element.part = nesting.part (enclosed.toNat + depth))
    (hActive : element.expr.active = true) :
    takeAll kind ⟨element, list⟩ tokens = some ⟨{ element with
      part := nesting.part enclosed.toNat, expr := element.expr.pushAll tokens }, list⟩ := by
  induction tokens generalizing element depth with
  | nil =>
      obtain rfl : depth = 0 := by simpa [isBalanced] using hBalanced
      rw [Nat.add_zero] at hPart
      rw [← hPart]
      rfl
  | cons token tokens ih =>
      rw [List.forall_mem_cons] at hPieces
      rw [List.map_cons] at hBalanced
      obtain ⟨next, hNext, hTake⟩ := take_balanced hNesting hPieces.1 hBalanced hPart hActive
      rw [takeAll_cons hTake, ih hPieces.2 hNext _ rfl (by rw [Capture.active_push, hActive])]
      rfl

theorem take_space (hText : token.text = " ") :
    take kind ⟨element, list⟩ token =
      some ⟨{ element with expr := element.expr.absorb token }, list⟩ :=
  take_blank (Token.isBlank_of_space hText)

/-- A space outside of expressions is passed over. -/
theorem take_gap (hIdle : element.expr.active = false) (hText : token.text = " ") :
    take kind ⟨element, list⟩ token = some ⟨element, list⟩ := by
  rw [take_space hText, Capture.absorb, hIdle]
  rfl

/-- A name in front of the colon waits for the attributes. -/
theorem take_name (hName : isNameLike token.text = true) (hClass : token.text ∉ objectClasses) :
    take kind ⟨{}, list⟩ token = some ⟨{}, list.pushName (Lexeme.ofToken token).word⟩ := by
  have hBlank := isBlank_of_isNameLike hName
  have hRead : Element.read {} true (.ofToken token) = .name (Lexeme.ofToken token).word :=
    readName_name hName hClass
  rw [take, hBlank, hRead]
  rfl

/-- A comma parts names. -/
theorem take_comma (hText : token.text = ",") :
    take kind ⟨{}, list⟩ token = some ⟨{}, list⟩ := by
  have hRead : Element.read {} true (.ofToken token) = .stay {} := by
    rw [Lexeme.ofToken, hText]
    rfl
  exact take_stay (isBlank_eq_false hText (by decide)) hRead

/-- The names of an element wait for their attributes. -/
theorem takeAll_names (kind : ListKind) (list : Declarations) {names : List String}
    (hNames : ∀ name ∈ names, isNameLike name = true ∧ name ∉ objectClasses)
    (hTokens : tokens.map (·.text) = List.intercalate [",", " "] (names.map ([·]))) :
    ∃ words : List Word, words.map (·.text) = names ∧
      takeAll kind ⟨{}, list⟩ tokens =
        some ⟨{}, { list with pending := list.pending ++ words.toArray }⟩ := by
  induction names generalizing tokens list with
  | nil =>
      obtain rfl : tokens = [] := by simpa using hTokens
      exact ⟨[], rfl, by simp [takeAll]⟩
  | cons name names ih =>
      rw [List.forall_mem_cons] at hNames
      obtain ⟨⟨hName, hClass⟩, hRest⟩ := hNames
      cases names with
      | nil =>
          simp only [List.map_cons, List.map_nil, List.intercalate_singleton,
            List.map_eq_singleton_iff] at hTokens
          obtain ⟨token, rfl, rfl⟩ := hTokens
          refine ⟨[(Lexeme.ofToken token).word], rfl, ?_⟩
          rw [takeAll_cons (take_name hName hClass)]
          rfl
      | cons next names =>
          simp only [List.map_cons, List.intercalate_cons_cons, List.cons_append, List.nil_append,
            List.map_eq_cons_iff] at hTokens
          obtain ⟨token, _, rfl, rfl, comma, _, rfl, hComma, space, rest, rfl, hSpace, hTokens⟩ :=
            hTokens
          obtain ⟨words, hWords, hTake⟩ :=
            ih (list.pushName (Lexeme.ofToken token).word) hRest hTokens
          refine ⟨(Lexeme.ofToken token).word :: words, by rw [List.map_cons, hWords]; rfl, ?_⟩
          rw [takeAll_cons (take_name hName hClass),
            takeAll_cons (take_comma hComma), takeAll_cons (take_gap rfl hSpace)]
          refine hTake.trans ?_
          simp [Declarations.pushName]

/-- A colon ends them, and the mode may follow. -/
theorem take_colon (hText : token.text = ":") :
    take kind ⟨{}, list⟩ token = some ⟨{ part := .mode }, list⟩ := by
  have hRead : Element.read {} true (.ofToken token) = .stay { part := .mode } := by
    rw [Lexeme.ofToken, hText]
    rfl
  exact take_stay (isBlank_eq_false hText (by decide)) hRead

/-- A mode is taken behind the colon, and the type is next. -/
theorem take_mode (hText : token.text ∈ modeTexts) :
    take kind ⟨{ part := .mode }, list⟩ token =
      some ⟨{ part := .type, mode := token.text }, list⟩ := by
  have hModes : ∃ word : Keyword, word.text = token.text ∧ isMode word = true ∧
      isNameLike word.text = true := by
    generalize token.text = text at hText
    fin_cases hText
    · exact ⟨.in, rfl, rfl, rfl⟩
    · exact ⟨.out, rfl, rfl, rfl⟩
    · exact ⟨.inout, rfl, rfl, rfl⟩
    · exact ⟨.buffer, rfl, rfl, rfl⟩
    · exact ⟨.linkage, rfl, rfl, rfl⟩
  obtain ⟨word, hWord, hMode, hName⟩ := hModes
  have hHere : (Lexeme.ofToken token).symbol = .keyword word := by
    have hSymbol := Symbol.ofText_of_isNameLike hName
    rwa [Keyword.ofText?_text, hWord] at hSymbol
  apply take_stay (isBlank_of_isNameLike (hWord ▸ hName))
  simp [Element.read, readMode, hHere, hMode]
  rfl

/-- The type settles an element, whether its mode is given or not. -/
theorem take_type (hPart : element.part = .mode ∨ element.part = .type)
    (hName : isNameLike token.text = true) (hReserved : Keyword.ofText? token.text = none) :
    take kind ⟨element, list⟩ token = some ⟨{ element with
      part := .settled, type := some (Lexeme.ofToken token).word }, list⟩ := by
  have hHere : (Lexeme.ofToken token).symbol = .name := by
    have hSymbol := Symbol.ofText_of_isNameLike hName
    rwa [hReserved] at hSymbol
  apply take_stay (isBlank_of_isNameLike hName)
  rcases hPart with hPart | hPart
  · simp [Element.read, hPart, readMode, readType, hHere]
  · simp [Element.read, hPart, readType, hHere]

/-- The mode of an element may be left out. -/
theorem takeAll_mode (kind : ListKind) (list : Declarations) (h : written.IsWellFormed)
    (hTokens : tokens.map (·.text) = written.modePieces) :
    ∃ part, (part = .mode ∨ part = .type) ∧
      takeAll kind ⟨{ part := .mode }, list⟩ tokens =
        some ⟨{ part, mode := written.mode.getD "" }, list⟩ := by
  rw [InterfaceElement.modePieces] at hTokens
  cases hMode : written.mode with
  | none =>
      obtain rfl : tokens = [] := by simpa [hMode] using hTokens
      exact ⟨.mode, .inl rfl, rfl⟩
  | some text =>
      simp only [hMode, List.map_eq_cons_iff, List.map_eq_nil_iff] at hTokens
      obtain ⟨token, _, rfl, rfl, space, _, rfl, hSpace, rfl⟩ := hTokens
      refine ⟨.type, .inr rfl, ?_⟩
      rw [takeAll_cons (take_mode (h.mode _ hMode)), takeAll_cons (take_gap rfl hSpace)]
      rfl

end Filling

/-- An element ends with its value. -/
theorem InterfaceElement.pieces_eq_append (element : InterfaceElement) :
    element.pieces = { element with init := none }.pieces ++ element.valuePieces := by
  simp [pieces, tailPieces, modePieces, constraintPieces, valuePieces]

/-- The element has its mode, its type and its constraint; a value may follow. -/
structure Element.Settles (element : Element) (mode : String) (type : Word) (range : String) :
    Prop where
  mode : element.mode = mode
  type : element.type = some type
  range : element.rangeText = range
  part : element.part = .settled ∨ element.part = .range true 0

/-- The element has all its attributes, and a semicolon ends it. -/
structure Element.Ends (element : Element) (mode : String) (type : Word) (range value : String) :
    Prop where
  mode : element.mode = mode
  type : element.type = some type
  range : element.rangeText = range
  value : element.valueText = value
  part : element.part = .settled ∨ element.part = .range true 0 ∨ element.part = .value 0

namespace Filling

open Element

variable {mode range : String} {type : Word}

/-- A constraint in parentheses is collected up to the closing one. -/
theorem takeAll_group {inside : List String} (hPart : element.part = .settled)
    (hExpr : element.expr.active = false) (hPieces : ∀ piece ∈ inside, IsPiece piece)
    (hBalanced : isBalanced true 0 inside = true)
    (hTokens : tokens.map (·.text) = (Constraint.group inside).pieces) :
    takeAll kind ⟨element, list⟩ tokens =
      some ⟨{ element with expr := Capture.fresh.pushAll tokens }, list⟩ := by
  simp only [Constraint.pieces, List.map_eq_cons_iff, List.map_eq_append_iff,
    List.map_eq_nil_iff] at hTokens
  obtain ⟨opener, _, rfl, hOpen, middle, _, rfl, rfl, closer, _, rfl, hClose, rfl⟩ := hTokens
  let opened : Element :=
    { element with part := .range false 1, expr := Capture.fresh.push opener }
  have hFirst : take kind ⟨element, list⟩ opener = some ⟨opened, list⟩ := by
    apply take_stay (isBlank_eq_false hOpen (by decide))
    rw [Element.read, hPart, readSettled, Lexeme.ofToken, hOpen, hExpr]
    rfl
  have hMiddle : takeAll kind ⟨opened, list⟩ middle =
      some ⟨{ opened with expr := opened.expr.pushAll middle }, list⟩ :=
    takeAll_balanced (.range false) (fun _ => rfl) (List.forall_mem_map.1 hPieces) hBalanced opened
      rfl Capture.active_push
  have hLast : take kind ⟨{ opened with expr := opened.expr.pushAll middle }, list⟩ closer =
      some ⟨{ element with expr := (opened.expr.pushAll middle).push closer }, list⟩ := by
    apply take_stay (isBlank_eq_false hClose (by decide))
    have hHere : (Lexeme.ofToken closer).symbol = .parenClose := Lexeme.symbol_ofToken hClose
    simp [Element.read, opened, readRange, hHere, Element.push, hPart]
    rfl
  rw [takeAll_cons hFirst, takeAll_append hMiddle, takeAll_cons hLast]
  simp [takeAll, Capture.pushAll, opened]

/-- A constraint that begins with `range` is collected up to the end of the element. -/
theorem takeAll_range {sequence : List String} (hPart : element.part = .settled)
    (hPieces : ∀ piece ∈ sequence, IsPiece piece)
    (hBalanced : isBalanced false 0 sequence = true)
    (hTokens : tokens.map (·.text) = (Constraint.range sequence).pieces) :
    takeAll kind ⟨element, list⟩ tokens =
      some ⟨{ element with part := .range true 0, expr := Capture.fresh.pushAll tokens },
        list⟩ := by
  simp only [Constraint.pieces, List.map_eq_cons_iff] at hTokens
  obtain ⟨opener, rest, rfl, hOpen, rfl⟩ := hTokens
  let opened : Element :=
    { element with part := .range true 0, expr := Capture.fresh.push opener }
  have hFirst : take kind ⟨element, list⟩ opener = some ⟨opened, list⟩ := by
    apply take_stay (isBlank_eq_false hOpen (by decide))
    rw [Element.read, hPart, readSettled, Lexeme.ofToken, hOpen]
    rfl
  rw [takeAll_cons hFirst]
  exact takeAll_balanced (.range true) (by simp)
    (List.forall_mem_map.1 hPieces) hBalanced opened rfl
    Capture.active_push

/-- The constraint of an element may be left out. -/
theorem takeAll_constraint (kind : ListKind) (list : Declarations) (mode : String) (type : Word)
    (h : written.IsWellFormed) (hTokens : tokens.map (·.text) = written.constraintPieces) :
    ∃ element : Element, element.Settles mode type ((written.constraint.map (·.text)).getD "") ∧
      takeAll kind ⟨{ part := .settled, mode, type := some type }, list⟩ tokens =
        some ⟨element, list⟩ := by
  rw [InterfaceElement.constraintPieces] at hTokens
  cases hConstraint : written.constraint with
  | none =>
      obtain rfl : tokens = [] := by simpa [hConstraint] using hTokens
      exact ⟨_, ⟨rfl, rfl, rfl, .inl rfl⟩, rfl⟩
  | some c =>
      obtain ⟨hPhrase, hBalanced⟩ := h.constraint c hConstraint
      rw [hConstraint] at hTokens
      obtain ⟨space, rest, rfl, hSpace, hRest⟩ := List.map_eq_cons_iff.1 hTokens
      have hText : (Capture.fresh.pushAll rest).text = c.text := by
        rw [Constraint.text, ← hRest]
        exact IsPhrase.text_pushAll (hRest ▸ hPhrase)
      rw [takeAll_cons (take_gap rfl hSpace)]
      cases c with
      | group inside =>
          have hPieces : ∀ piece ∈ inside, IsPiece piece := fun piece hMem =>
            hPhrase.valid piece (by simp [Constraint.pieces, hMem])
          refine ⟨_, ⟨rfl, rfl, ?_, .inl rfl⟩, takeAll_group rfl rfl hPieces hBalanced hRest⟩
          rw [rangeText]
          dsimp only
          rw [Capture.active_pushAll]
          exact hText
      | range sequence =>
          have hPieces : ∀ piece ∈ sequence, IsPiece piece := fun piece hMem =>
            hPhrase.valid piece (by simp [Constraint.pieces, hMem])
          refine ⟨_, ⟨rfl, rfl, ?_, .inr rfl⟩, takeAll_range rfl hPieces hBalanced hRest⟩
          exact hText

/-- A blank behind a constraint is not part of it. -/
theorem settles_absorb (hElement : element.Settles mode type range)
    (hBlank : token.isBlank = true) :
    Element.Settles { element with expr := element.expr.absorb token } mode type range := by
  refine ⟨hElement.mode, hElement.type, ?_, hElement.part⟩
  rw [← hElement.range]
  cases hActive : element.expr.active with
  | false =>
      have hExpr : element.expr.absorb token = element.expr := by simp [Capture.absorb, hActive]
      rw [hExpr]
  | true =>
      rw [Capture.absorb_of_active hActive]
      rcases hElement.part with hPart | hPart <;>
        simp [rangeText, hPart, Capture.active_push, hActive, Capture.text_push_blank hBlank]

/-- What gives a value ends the constraint, and a space behind it is not part of the value. -/
theorem takeAll_becomes (kind : ListKind) (list : Declarations)
    (hElement : element.Settles mode type range)
    (hTokens : tokens.map (·.text) = [" ", ":=", " "]) :
    takeAll kind ⟨element, list⟩ tokens =
      some ⟨⟨.value 0, mode, some type, range, .fresh⟩, list⟩ := by
  simp only [List.map_eq_cons_iff, List.map_eq_nil_iff] at hTokens
  obtain ⟨space, _, rfl, hSpace, becomes, _, rfl, hBecomes, second, _, rfl, hSecond, rfl⟩ := hTokens
  have hSettles := settles_absorb hElement (Token.isBlank_of_space hSpace)
  generalize hFirst : { element with expr := element.expr.absorb space } = settled at hSettles
  have hRead : take kind ⟨settled, list⟩ becomes = some ⟨settled.beginValue, list⟩ := by
    apply take_stay (isBlank_eq_false hBecomes (by decide))
    have hHere : (Lexeme.ofToken becomes).symbol = .becomes := Lexeme.symbol_ofToken hBecomes
    rcases hSettles.part with hPart | hPart <;>
      simp [Element.read, hPart, readSettled, readRange, hHere]
  have hFresh : Capture.fresh.absorb second = .fresh := by
    simp [Capture.absorb, Capture.push, Token.isEmpty, Token.isBlank, hSecond]
    decide
  have hBegins : settled.beginValue = ⟨.value 0, mode, some type, range, .fresh⟩ := by
    rw [beginValue, hSettles.mode, hSettles.type, hSettles.range]
  rw [takeAll_cons (take_space hSpace), hFirst, takeAll_cons hRead, hBegins,
    takeAll_cons (take_space hSecond), hFresh]
  rfl

/-- The initial value of an element may be left out. -/
theorem takeAll_value (kind : ListKind) (list : Declarations)
    (hElement : element.Settles mode type range) (h : written.IsWellFormed)
    (hTokens : tokens.map (·.text) = written.valuePieces) :
    ∃ next : Element, next.Ends mode type range ((written.init.map String.join).getD "") ∧
      takeAll kind ⟨element, list⟩ tokens = some ⟨next, list⟩ := by
  rw [InterfaceElement.valuePieces] at hTokens
  cases hInit : written.init with
  | none =>
      obtain rfl : tokens = [] := by simpa [hInit] using hTokens
      have hPart : element.part = .settled ∨ element.part = .range true 0 ∨
          element.part = .value 0 := hElement.part.imp_right .inl
      have hNoValue : element.valueText = "" := by
        rcases hElement.part with hPart | hPart <;> simp [valueText, hPart]
      exact ⟨element, ⟨hElement.mode, hElement.type, hElement.range, hNoValue, hPart⟩, rfl⟩
  | some pieces =>
      obtain ⟨hPhrase, hBalanced⟩ := h.init pieces hInit
      have hPieces : tokens.map (·.text) = [" ", ":=", " "] ++ pieces := by
        simpa [hInit] using hTokens
      obtain ⟨lead, rest, rfl, hLead, rfl⟩ := List.map_eq_append_iff.1 hPieces
      rw [takeAll_append (takeAll_becomes kind list hElement hLead)]
      refine ⟨_, ?_, takeAll_balanced .value (by simp)
        (List.forall_mem_map.1 hPhrase.valid) hBalanced _ rfl rfl⟩
      exact ⟨rfl, rfl, rfl, hPhrase.text_pushAll, .inr (.inr rfl)⟩

/-- The tokens of an element up to its value give names that wait, and the other attributes. -/
theorem takeAll_settled (kind : ListKind) (list : Declarations) (h : written.IsWellFormed)
    (hTokens : tokens.map (·.text) = { written with init := none }.pieces) :
    ∃ (words : List Word) (type : Word) (element : Element),
      words.map (·.text) = written.names ∧ type.text = written.type ∧
      element.Settles (written.mode.getD "") type ((written.constraint.map (·.text)).getD "") ∧
      takeAll kind ⟨{}, list⟩ tokens =
        some ⟨element, { list with pending := list.pending ++ words.toArray }⟩ := by
  simp only [InterfaceElement.pieces, InterfaceElement.tailPieces, InterfaceElement.valuePieces,
    List.append_nil, List.map_eq_append_iff, List.map_eq_cons_iff] at hTokens
  obtain ⟨nameTokens, _, rfl, hNames, space, _, rfl, hSpace, colon, _, rfl, hColon, second, _, rfl,
    hSecond, modeTokens, _, rfl, hMode, typeToken, constraintTokens, rfl, hType, hConstraint⟩ :=
    hTokens
  obtain ⟨words, hWords, hTakeNames⟩ :=
    takeAll_names kind list (fun name hMem => (h.names name hMem).2) hNames
  let named : Declarations := { list with pending := list.pending ++ words.toArray }
  obtain ⟨part, hPart, hTakeMode⟩ := takeAll_mode kind named h hMode
  obtain ⟨hWord, hName, hReserved⟩ := h.type
  rw [← hType] at hName hReserved
  let type := (Lexeme.ofToken typeToken).word
  obtain ⟨settled, hSettles, hTakeConstraint⟩ :=
    takeAll_constraint kind named (written.mode.getD "") type h hConstraint
  refine ⟨words, type, settled, hWords, hType, hSettles, ?_⟩
  rw [takeAll_append hTakeNames, takeAll_cons (take_gap rfl hSpace),
    takeAll_cons (take_colon hColon), takeAll_cons (take_gap rfl hSecond), takeAll_append hTakeMode,
    takeAll_cons (take_type hPart hName hReserved), hTakeConstraint]

/-- The tokens of a written element give its attributes, and names that wait for them. -/
theorem takeAll_element (kind : ListKind) (list : Declarations) (h : written.IsWellFormed)
    (hTokens : tokens.map (·.text) = written.pieces) :
    ∃ (words : List Word) (type : Word) (element : Element),
      words.map (·.text) = written.names ∧ type.text = written.type ∧
      element.Ends (written.mode.getD "") type ((written.constraint.map (·.text)).getD "")
        ((written.init.map String.join).getD "") ∧
      takeAll kind ⟨{}, list⟩ tokens =
        some ⟨element, { list with pending := list.pending ++ words.toArray }⟩ := by
  rw [InterfaceElement.pieces_eq_append] at hTokens
  obtain ⟨front, valueTokens, rfl, hFront, hValue⟩ := List.map_eq_append_iff.1 hTokens
  obtain ⟨words, type, settled, hWords, hType, hSettles, hTakeFront⟩ :=
    takeAll_settled kind list h hFront
  obtain ⟨element, hEnds, hTakeValue⟩ := takeAll_value kind _ hSettles h hValue
  exact ⟨words, type, element, hWords, hType, hEnds, (takeAll_append hTakeFront).trans hTakeValue⟩

end Filling

end HdlIndex.Vhdl

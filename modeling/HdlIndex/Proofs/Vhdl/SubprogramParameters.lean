import HdlIndex.Proofs.Computed
import HdlIndex.Proofs.Vhdl.ElementReading
import HdlIndex.Proofs.Vhdl.Passages
import HdlIndex.Proofs.Vhdl.ProcessExtent
import HdlIndex.Proofs.Vhdl.SubprogramText

/-! The walk through the heading of a subprogram. It reads the parameters, whatever their modes,
types and initial values are, and comes to the body. -/
namespace HdlIndex.Vhdl

/-- The number of open parentheses in what follows the type of an element. -/
def Part.depth? : Part → Option Nat
  | .settled => some 0
  | .range _ depth | .value depth => some depth
  | .names | .mode | .type => none

namespace Element

variable {element : Element} {word : Token}

/-- A word in front of the colon is a name, or it is passed over. -/
theorem read_front (hPart : element.part = .names) (hWord : word.text ∉ ["(", ")", ";", ":"]) :
    element.read true (.ofToken word) = .stay element ∨
      element.read true (.ofToken word) = .name (Lexeme.ofToken word).word := by
  have hText {spelling : String} (hSpelling : (Lexeme.ofToken word).symbol.spelling? =
      some spelling) : word.text = spelling := Symbol.eq_of_spelling? hSpelling
  rw [read, hPart]
  dsimp only
  rw [readName]
  split
  · next hSymbol => exact absurd (by rw [hText (by rw [hSymbol]; rfl)]; decide) hWord
  · next hSymbol => exact absurd (by rw [hText (by rw [hSymbol]; rfl)]; decide) hWord
  · next hSymbol => exact absurd (by rw [hText (by rw [hSymbol]; rfl)]; decide) hWord
  all_goals simp

/-- Behind the type the element is settled, or inside of an expression. -/
theorem part_of_depth? {part : Part} {depth : Nat} (h : part.depth? = some depth) :
    (part = .settled ∧ depth = 0) ∨ ∃ nesting : Nesting, part = nesting.part depth := by
  cases part with
  | names | mode | type => cases h
  | settled => exact .inl ⟨rfl, (Option.some.inj h).symm⟩
  | range keyword inside => exact .inr ⟨.range keyword, congrArg _ (Option.some.inj h)⟩
  | value inside => exact .inr ⟨.value, congrArg _ (Option.some.inj h)⟩

theorem depth?_part (nesting : Nesting) (depth : Nat) :
    (nesting.part depth).depth? = some depth := by
  cases nesting <;> rfl

/-- Behind the type an opening parenthesis is one more that is open. Where none is open it begins a
constraint. -/
theorem read_tail_open {depth : Nat} (hPart : element.part.depth? = some depth)
    (hWord : word.text = "(") :
    ∃ next, element.read true (.ofToken word) = .stay next ∧
      next.part.depth? = some (depth + 1) := by
  have hSymbol : (Lexeme.ofToken word).symbol = .parenOpen := Lexeme.symbol_ofToken hWord
  obtain ⟨hHere, rfl⟩ | ⟨nesting, hHere⟩ := part_of_depth? hPart
  · exact ⟨_, by simp only [read, hHere, readSettled, hSymbol]; rfl, rfl⟩
  · exact ⟨_, read_open hHere hSymbol, depth?_part nesting _⟩

/-- Behind the type a closing parenthesis closes one that is open. A constraint in parentheses ends
with it. -/
theorem read_tail_close {depth : Nat} (hPart : element.part.depth? = some (depth + 1))
    (hWord : word.text = ")") :
    ∃ next, element.read true (.ofToken word) = .stay next ∧ next.part.depth? = some depth := by
  have hSymbol : (Lexeme.ofToken word).symbol = .parenClose := Lexeme.symbol_ofToken hWord
  obtain ⟨-, hDepth⟩ | ⟨nesting, hHere⟩ := part_of_depth? hPart
  · cases hDepth
  · by_cases hEnds : nesting = .range false ∧ depth = 0
    · obtain ⟨rfl, rfl⟩ := hEnds
      exact ⟨_, by simp only [read, hHere, Nesting.part, readRange, hSymbol]; rfl, rfl⟩
    · exact ⟨_, read_close hHere hSymbol fun hRange hDepth => hEnds ⟨hRange, hDepth⟩,
        depth?_part nesting _⟩

/-- Behind the type every other word leaves the number of open parentheses as it is, unless it is a
semicolon outside of them. -/
theorem read_tail_other {depth : Nat} (hPart : element.part.depth? = some depth)
    (hOpen : (Lexeme.ofToken word).symbol ≠ .parenOpen)
    (hClose : (Lexeme.ofToken word).symbol ≠ .parenClose)
    (hInside : (Lexeme.ofToken word).symbol = .semicolon → depth ≠ 0) :
    ∃ next, element.read true (.ofToken word) = .stay next ∧ next.part.depth? = some depth := by
  rw [read]
  obtain ⟨hHere, rfl⟩ | ⟨keyword | _, hHere⟩ := part_of_depth? hPart
  · simp only [hHere]
    rw [readSettled]
    split
    · next hSymbol => exact absurd hSymbol hOpen
    · exact ⟨_, rfl, rfl⟩
    · exact ⟨_, rfl, rfl⟩
    · next hSymbol => exact absurd rfl (hInside hSymbol)
    · next hSymbol => exact absurd hSymbol hClose
    · exact ⟨_, rfl, by rw [hHere]; rfl⟩
  · simp only [hHere, Nesting.part]
    unfold readRange
    split
    · next hSymbol => exact absurd hSymbol hOpen
    · next hSymbol => exact absurd hSymbol hClose
    · next hSymbol => exact absurd hSymbol hClose
    · exact ⟨_, rfl, rfl⟩
    · next hSymbol => exact absurd rfl (hInside hSymbol)
    · exact ⟨_, rfl, by rw [push, hHere]; rfl⟩
  · simp only [hHere, Nesting.part]
    unfold readValue
    split
    · next hSymbol => exact absurd hSymbol hOpen
    · next hSymbol => exact absurd hSymbol hClose
    · next hSymbol => exact absurd hSymbol hClose
    · next hSymbol => exact absurd rfl (hInside hSymbol)
    · exact ⟨_, rfl, by rw [push, hHere]; rfl⟩

/-- What follows the type is read as far as parentheses match. -/
theorem read_tail {depth depth' : Nat} (hPart : element.part.depth? = some depth)
    (hDepth : clauseDepth depth word.text = some depth') :
    ∃ next, element.read true (.ofToken word) = .stay next ∧ next.part.depth? = some depth' := by
  have hText {spelling : String} (hSpelling : (Lexeme.ofToken word).symbol.spelling? =
      some spelling) : word.text = spelling := Symbol.eq_of_spelling? hSpelling
  obtain ⟨hOpen, rfl⟩ | ⟨hClose, rfl⟩ | ⟨hWord, hSemicolon, rfl⟩ := clauseDepth_cases hDepth
  · exact read_tail_open hPart hOpen
  · exact read_tail_close hPart hClose
  · refine read_tail_other hPart (fun hSymbol => ?_) (fun hSymbol => ?_) (fun hSymbol => ?_)
    · exact absurd (by rw [hText (by rw [hSymbol]; rfl)]; decide) hWord
    · exact absurd (by rw [hText (by rw [hSymbol]; rfl)]; decide) hWord
    · exact hSemicolon (hText (by rw [hSymbol]; rfl))

/-- Outside of parentheses a semicolon ends the element, and a closing parenthesis the list. -/
theorem read_end (hPart : element.part.depth? = some 0) :
    (word.text = ";" → element.read true (.ofToken word) = .done) ∧
      (word.text = ")" → element.read true (.ofToken word) = .close) := by
  refine ⟨fun hText => ?_, fun hText => ?_⟩
  · have hSymbol : (Lexeme.ofToken word).symbol = .semicolon := Lexeme.symbol_ofToken hText
    obtain ⟨hHere, -⟩ | ⟨keyword | _, hHere⟩ := part_of_depth? hPart
    all_goals simp [read, hHere, Nesting.part, readSettled, readRange, readValue, hSymbol]
  · have hSymbol : (Lexeme.ofToken word).symbol = .parenClose := Lexeme.symbol_ofToken hText
    obtain ⟨hHere, -⟩ | ⟨keyword | _, hHere⟩ := part_of_depth? hPart
    all_goals simp [read, hHere, Nesting.part, readSettled, readRange, readValue, hSymbol]

end Element

/-- The place is in the parameter list of a subprogram, in a part of an element. -/
def Place.InParameters (home : Home) (P : Part → Prop) (place : Place) : Prop :=
  ∃ offset element, place = .interfaceDeclaration ⟨.parameters, .subprogram home, offset⟩ element ∧
    P element.part

namespace Walk

/-- The walk is at a place of a kind. -/
def On (R : Place → Prop) : Option Lexeme → Walk → Prop := fun _ walk => R walk.place

variable {home : Home} {text : String} {texts : List String} {R R' : Place → Prop}
  {P P' : Part → Prop}

theorem On.isIdle (h : ∀ place token, R place → R (place.absorb token)) : IsIdle (On R) := by
  intro event last walk hEvent hPlace
  cases event with
  | comment span => exact hPlace
  | filler token => exact h _ _ hPlace
  | word here before next => exact hEvent.elim

theorem On.isIdle_lists (home : Home) (P : Part → Prop) :
    IsIdle (On (Place.InParameters home P)) := by
  refine On.isIdle ?_
  rintro _ token ⟨offset, element, rfl, hPart⟩
  exact ⟨offset, { element with expr := element.expr.absorb token }, rfl, hPart⟩

theorem On.isIdle_eq {place : Place} (h : ∀ token, place.absorb token = place) :
    IsIdle (On (· = place)) := by
  refine On.isIdle ?_
  rintro _ token rfl
  exact h token

/-- A word of a heading. -/
theorem brings_on (hIdle : IsIdle (On R)) (hIdle' : IsIdle (On R'))
    (hRead : ∀ (word : Token) (last next : Option Lexeme) (walk : Walk), word.text = text →
      R walk.place →
      R' (walk.read (.ofToken word) last next).place) : Brings [text] (On R) (On R') :=
  .one hIdle hIdle' fun word last next walk hText h =>
    hRead word last next (walk.note (.visited walk.place.region.name word.text)) hText h

/-- A word of a parameter list that belongs to an element. -/
theorem brings_element
    (hRead : ∀ (word : Token) (element : Element), word.text = text → P element.part →
      (∃ next, element.read true (.ofToken word) = .stay next ∧ P' next.part) ∨
        ∃ name, element.read true (.ofToken word) = .name name ∧ P' element.part) :
    Brings [text] (On (Place.InParameters home P)) (On (Place.InParameters home P')) := by
  refine brings_on (.isIdle_lists home P) (.isIdle_lists home P') ?_
  rintro word last next walk hText ⟨offset, element, hPlace, hPart⟩
  rw [read, hPlace]
  dsimp only
  rw [readInterface]
  obtain ⟨other, hMove, hOther⟩ | ⟨name, hMove, hSame⟩ := hRead word element hText hPart
  · rw [hMove]
    exact ⟨offset, other, rfl, hOther⟩
  · rw [hMove]
    exact ⟨offset, element, hPlace, hSame⟩

/-- The words in front of the colon. -/
theorem brings_front (hTexts : ∀ text ∈ texts, text ∉ ["(", ")", ";", ":"]) :
    Brings texts (On (Place.InParameters home (· = .names)))
      (On (Place.InParameters home (· = .names))) := by
  induction texts with
  | nil => exact .nil (.isIdle_lists home _)
  | cons text texts ih =>
      rw [List.forall_mem_cons] at hTexts
      show Brings ([text] ++ texts) _ _
      refine .append (brings_element fun word element hText hPart => ?_) (ih hTexts.2)
      obtain hStay | hName := Element.read_front hPart (hText ▸ hTexts.1)
      · exact .inl ⟨element, hStay, hPart⟩
      · exact .inr ⟨_, hName, hPart⟩

/-- The words behind the type. -/
theorem brings_tail {depth depth' : Nat} (hClause : texts.foldlM clauseDepth depth = some depth') :
    Brings texts (On (Place.InParameters home (·.depth? = some depth)))
      (On (Place.InParameters home (·.depth? = some depth'))) := by
  induction texts generalizing depth with
  | nil =>
      obtain rfl := Option.some.inj hClause
      exact .nil (.isIdle_lists home _)
  | cons text texts ih =>
      rw [List.foldlM_cons] at hClause
      obtain ⟨middle, hDepth, hRest⟩ := Option.bind_eq_some_iff.1 hClause
      have hText : Brings [text] (On (Place.InParameters home (·.depth? = some depth)))
          (On (Place.InParameters home (·.depth? = some middle))) :=
        brings_element fun word element hText hPart =>
          .inl (Element.read_tail hPart (hText ▸ hDepth))
      exact hText.append (ih hRest)

/-- Parameters are read up to what ends them. -/
theorem brings_parameter (home : Home) (parameter : Parameter) :
    Brings parameter.words (On (Place.InParameters home (· = .names)))
      (On (Place.InParameters home (·.depth? = some 0))) := by
  have hFront : ∀ text ∈ parameter.front, text ∉ ["(", ")", ";", ":"] := by
    intro text hText hMem
    refine parameter.isFront text hText ?_
    fin_cases hMem <;> decide
  have hMode : Brings parameter.mode.toList (On (Place.InParameters home (· = .mode)))
      (On (Place.InParameters home fun part => part = .mode ∨ part = .type)) := by
    cases hHere : parameter.mode with
    | none =>
        refine (Brings.nil (.isIdle_lists home _)).imp ?_
        rintro last walk ⟨offset, element, hPlace, hPart⟩
        exact ⟨offset, element, hPlace, .inl hPart⟩
    | some mode =>
        refine brings_element fun word element hText hPart => .inl ?_
        have hMem := parameter.isMode mode hHere
        rw [← hText] at hMem
        have hSymbol : (Lexeme.ofToken word).symbol = .ofText word.text := rfl
        rw [Element.read, hPart]
        dsimp only
        rw [Element.readMode, hSymbol]
        generalize word.text = text at hMem
        fin_cases hMem <;> exact ⟨_, rfl, .inr rfl⟩
  have hType : Brings [parameter.type.text]
      (On (Place.InParameters home fun part => part = .mode ∨ part = .type))
      (On (Place.InParameters home (·.depth? = some 0))) := by
    refine brings_element fun word element hText hPart => .inl ?_
    have hSymbol : (Lexeme.ofToken word).symbol = .name := by
      rw [Lexeme.symbol_ofToken rfl, symbol_of_isIdentifier (hText ▸ parameter.type.isIdentifier)]
    rw [Element.read]
    obtain hPart | hPart := hPart
    · rw [hPart]
      exact ⟨_, by simp only [Element.readMode, Element.readType, hSymbol]; rfl, rfl⟩
    · rw [hPart]
      exact ⟨_, by simp only [Element.readType, hSymbol]; rfl, rfl⟩
  refine (brings_front hFront).append (.append (Q := On (Place.InParameters home (· = .mode))) ?_
    (hMode.append (hType.append (brings_tail parameter.tail.isClosed))))
  refine brings_element fun word element hText hPart => .inl ?_
  have hSymbol : (Lexeme.ofToken word).symbol = .colon := Lexeme.symbol_ofToken hText
  rw [Element.read, hPart]
  exact ⟨_, by simp only [Element.readName, hSymbol]; rfl, rfl⟩

theorem isIdle_header (home : Home) : IsIdle (On (· = .subprogramHeader home)) :=
  On.isIdle_eq fun _ => rfl

/-- A parameter list leads back to the heading. -/
theorem brings_list (home : Home) (parameters : List Parameter) :
    Brings (SubprogramHeading.listWords parameters) (On (· = .subprogramHeader home))
      (On (· = .subprogramHeader home)) := by
  have hOthers (others : List Parameter) :
      Brings (others.flatMap fun next => [";"] ++ next.words)
        (On (Place.InParameters home (·.depth? = some 0)))
        (On (Place.InParameters home (·.depth? = some 0))) := by
    induction others with
    | nil => exact .nil (.isIdle_lists home _)
    | cons next others ih =>
        rw [List.flatMap_cons]
        refine .append (.append (Q := On (Place.InParameters home (· = .names))) ?_
          (brings_parameter home next)) ih
        refine brings_on (.isIdle_lists home _) (.isIdle_lists home _) ?_
        rintro word last next walk hText ⟨offset, element, hPlace, hPart⟩
        rw [read, hPlace]
        dsimp only
        rw [readInterface, (Element.read_end hPart).1 hText]
        exact ⟨offset, {}, rfl, rfl⟩
  cases parameters with
  | nil => exact .nil (isIdle_header home)
  | cons first others =>
      refine .append (Q := On (Place.InParameters home (· = .names))) ?_
        ((brings_parameter home first).append ((hOthers others).append ?_))
      · refine brings_on (isIdle_header home)
          (.isIdle_lists home _) fun word last next walk hText hPlace => ?_
        have hSymbol : (Lexeme.ofToken word).symbol = .parenOpen := Lexeme.symbol_ofToken hText
        rw [read, hPlace]
        simp only [readSubprogramHeader, hSymbol]
        exact ⟨_, {}, rfl, rfl⟩
      · refine brings_on (.isIdle_lists home _) (isIdle_header home) ?_
        rintro word last next walk hText ⟨offset, element, hPlace, hPart⟩
        rw [read, hPlace]
        dsimp only
        rw [readInterface, (Element.read_end hPart).2 hText]
        rfl

/-- A heading is read up to what follows it. -/
theorem brings_outerHeading (heading : SubprogramHeading) (home : Home) :
    Brings heading.words (On (·.Declares home)) (On (· = .subprogramHeader home)) := by
  have hResult : Brings (SubprogramHeading.resultWords heading.result)
      (On (· = .subprogramHeader home)) (On (· = .subprogramHeader home)) := by
    have hWord {text : String} (hNot : text ∉ ["(", ";", "is"]) :
        Brings [text] (On (· = .subprogramHeader home)) (On (· = .subprogramHeader home)) := by
      refine brings_on (isIdle_header home)
        (isIdle_header home) fun word last next walk hText hPlace => ?_
      have hSame {spelling : String} (hSpelling : (Lexeme.ofToken word).symbol.spelling? =
          some spelling) : text = spelling := hText ▸ Symbol.eq_of_spelling? hSpelling
      rw [read, hPlace]
      dsimp only
      rw [readSubprogramHeader]
      split
      · next hSymbol => exact absurd (by rw [hSame (by rw [hSymbol]; rfl)]; decide) hNot
      · next hSymbol => exact absurd (by rw [hSame (by rw [hSymbol]; rfl)]; decide) hNot
      · next hSymbol => exact absurd (by rw [hSame (by rw [hSymbol]; rfl)]; decide) hNot
      · exact hPlace
    cases heading.result with
    | none => exact .nil (isIdle_header home)
    | some type =>
        refine (hWord (show "return" ∉ _ by decide)).append (hWord fun hMem => type.not_mem ?_)
        generalize type.text = text at hMem
        fin_cases hMem <;> decide
  refine .append (Q := On (· = .subprogramName home)) ?_
    (.append (Q := On (· = .subprogramHeader home)) ?_
    ((brings_list home heading.parameters).append hResult))
  · refine brings_on (On.isIdle fun place token h => by rwa [h.absorb]) (On.isIdle_eq fun _ => rfl)
      fun word last next walk hText hPlace => ?_
    have hSymbol : (Lexeme.ofToken word).symbol = .keyword heading.kind.keyword :=
      Lexeme.symbol_keyword _ hText
    rw [read_declaration hPlace (by cases heading.kind <;> decide) hSymbol, readItem, hSymbol]
    cases heading.kind <;> rfl
  · refine brings_on (On.isIdle_eq fun _ => rfl)
      (isIdle_header home) fun word last next walk hText hPlace => ?_
    have hSymbol : (Lexeme.ofToken word).symbol = .name := by
      rw [Lexeme.symbol_ofToken rfl, symbol_of_isIdentifier (hText ▸ heading.name.isIdentifier)]
    rw [read, hPlace]
    simp only [readSubprogramName, hSymbol]
    rfl

end Walk

end HdlIndex.Vhdl

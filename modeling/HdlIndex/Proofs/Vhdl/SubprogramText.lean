import HdlIndex.Proofs.Vhdl.InterfaceText
import HdlIndex.Proofs.Vhdl.ProcessText
import HdlIndex.Vhdl.Place
import Mathlib.Tactic.FinCases

/-! The written form of subprograms: a heading, and a body of declarations and statements.
Subprograms are declared and written inside of each other, and statements are nested. Of a clause,
the words between what begins and what ends it, it matters only that parentheses match and that none
of them begins or ends a body. -/
namespace HdlIndex.Vhdl

/-- The number of open parentheses behind a word of a clause, with `depth` of them in front of it.
Semicolons stand inside of parentheses, and no word begins or ends a body. -/
def clauseDepth (depth : Nat) (word : String) : Option Nat :=
  if word = "(" then some (depth + 1)
  else if word = ")" then if depth = 0 then none else some (depth - 1)
  else if word ∈ ["function", "procedure", "end"] then none
  else if word = ";" ∧ depth = 0 then none
  else some depth

/-- The words of an expression, a condition, a simple statement and the like. -/
structure Clause where
  words : List String
  isClosed : words.foldlM clauseDepth 0 = some 0

/-- A name that can be declared. -/
structure Identifier where
  text : String
  isIdentifier : Vhdl.isIdentifier text = true
deriving DecidableEq

/-- The label of a statement, and whether the end of the statement repeats it. -/
structure Label where
  name : Identifier
  repeated : Bool

/-- The words of a label in front of a statement. -/
def labelWords : Option Label → List String
  | none => []
  | some label => [label.name.text, ":"]

/-- The words of the end of a statement. -/
def Compound.endWords (compound : Compound) : Option Label → List String
  | some ⟨name, true⟩ => ["end", compound.keyword.text, name.text, ";"]
  | _ => ["end", compound.keyword.text, ";"]

/-- What stands in a row: statements, the further branches of an `if`, or the choices of a
`case`. -/
inductive Layer where
  | statements
  | branches
  | choices

/-- The statements of a body, one after the other. -/
inductive Code : Layer → Type where
  | done {layer : Layer} : Code layer
  | simple (clause : Clause) (rest : Code .statements) : Code .statements
  | if (label : Option Label) (condition : Clause) (inside : Code .statements)
      (others : Code .branches) (rest : Code .statements) : Code .statements
  | case (label : Option Label) (selector : Clause) (choices : Code .choices)
      (rest : Code .statements) : Code .statements
  | loop (label : Option Label) (scheme : Clause) (inside rest : Code .statements) :
      Code .statements
  | elsif (condition : Clause) (inside : Code .statements) (others : Code .branches) :
      Code .branches
  | else (inside : Code .statements) : Code .branches
  | when (choice : Clause) (inside : Code .statements) (others : Code .choices) : Code .choices

/-- The words of statements. -/
def Code.words {layer : Layer} : Code layer → List String
  | done => []
  | simple clause rest => clause.words ++ ([";"] ++ rest.words)
  | «if» label condition inside others rest =>
    labelWords label ++
      (["if"] ++ (condition.words ++ (["then"] ++ (inside.words ++ (others.words ++
      (Compound.if.endWords label ++ rest.words))))))
  | case label selector choices rest =>
    labelWords label ++ (["case"] ++ (selector.words ++ (["is"] ++ (choices.words ++
      (Compound.case.endWords label ++ rest.words)))))
  | loop label scheme inside rest =>
    labelWords label ++ (scheme.words ++ (["loop"] ++ (inside.words ++
      (Compound.loop.endWords label ++ rest.words))))
  | elsif condition inside others =>
    ["elsif"] ++ (condition.words ++ (["then"] ++ (inside.words ++ others.words)))
  | «else» inside => ["else"] ++ inside.words
  | when choice inside others =>
      ["when"] ++ (choice.words ++ (["=>"] ++ (inside.words ++ others.words)))

/-- The two kinds of subprograms. -/
inductive SubprogramKind where
  | function
  | procedure
deriving DecidableEq, Repr

/-- The word that begins a subprogram. -/
def SubprogramKind.keyword : SubprogramKind → Keyword
  | function => .function
  | procedure => .procedure

/-- Parameters that are declared together. Behind their type there may be a constraint and a
value. -/
structure Parameter where
  /-- An object class and the names, with commas between them. -/
  front : List String
  mode : Option String
  type : Identifier
  tail : Clause
  isFront : ∀ word ∈ front, word ∉ ["(", ")", ";", ":", "is", "function", "procedure", "end"]
  isMode : ∀ text ∈ mode, text ∈ modeTexts
  isTail : "is" ∉ tail.words

/-- The words of parameters. -/
def Parameter.words (parameter : Parameter) : List String :=
  parameter.front ++
    ([":"] ++ (parameter.mode.toList ++ ([parameter.type.text] ++ parameter.tail.words)))

/-- The heading of a subprogram. -/
structure SubprogramHeading where
  kind : SubprogramKind
  name : Identifier
  parameters : List Parameter
  result : Option Identifier

namespace SubprogramHeading

/-- The words of a parameter list. -/
def listWords : List Parameter → List String
  | [] => []
  | first :: others =>
      ["("] ++ (first.words ++ (others.flatMap (fun next => [";"] ++ next.words) ++ [")"]))

/-- The words of the result. -/
def resultWords : Option Identifier → List String
  | none => []
  | some type => ["return", type.text]

variable (heading : SubprogramHeading)

/-- The words of a heading behind the name. -/
def tailWords : List String := listWords heading.parameters ++ resultWords heading.result

/-- The words of a heading. -/
def words : List String := [heading.kind.keyword.text] ++ ([heading.name.text] ++ heading.tailWords)

/-- The words behind the `end` of a body, which may repeat the kind and the name. -/
def closingWords (kind name : Bool) : List String :=
  (if kind then [heading.kind.keyword.text] else []) ++
    ((if name then [heading.name.text] else []) ++ [";"])

end SubprogramHeading

/-- The declarations in front of the statements of a body, one after the other. -/
inductive DeclarativePart where
  | done
  | object (kind : ObjectKind) (clause : Clause) (rest : DeclarativePart)
  | declaration (heading : SubprogramHeading) (rest : DeclarativePart)
  | body (heading : SubprogramHeading) (declarations : DeclarativePart) (code : Code .statements)
      (repeatsKind repeatsName : Bool) (rest : DeclarativePart)

/-- The words of declarations. -/
def DeclarativePart.words : DeclarativePart → List String
  | done => []
  | object kind clause rest => [kind.text] ++ (clause.words ++ ([";"] ++ rest.words))
  | declaration heading rest => heading.words ++ ([";"] ++ rest.words)
  | body heading declarations code repeatsKind repeatsName rest =>
    heading.words ++ (["is"] ++ (declarations.words ++ (["begin"] ++ (code.words ++
      (["end"] ++ (heading.closingWords repeatsKind repeatsName ++ rest.words))))))

/-- A subprogram and its body. -/
structure SubprogramBody where
  heading : SubprogramHeading
  declarations : DeclarativePart
  code : Code .statements
  repeatsKind : Bool
  repeatsName : Bool

/-- The words behind the `is` of a heading. -/
def SubprogramBody.words (body : SubprogramBody) : List String :=
  body.declarations.words ++ (["begin"] ++ (body.code.words ++
    (["end"] ++ body.heading.closingWords body.repeatsKind body.repeatsName)))

/-- An identifier is none of the words that matter to a subprogram. -/
theorem Identifier.not_mem (name : Identifier) :
    name.text ∉ ["(", ")", ";", ":", "is", "new", "function", "procedure", "end"] := by
  intro hMem
  have hName := name.isIdentifier
  generalize name.text = text at hMem hName
  fin_cases hMem <;> exact absurd hName (by decide)

theorem Identifier.clauseDepth (name : Identifier) (depth : Nat) :
    Vhdl.clauseDepth depth name.text = some depth := by
  have hName := name.not_mem
  simp only [List.mem_cons, List.not_mem_nil, or_false, not_or] at hName
  simp [Vhdl.clauseDepth, hName]

/-- Words that open and close nothing. -/
theorem foldlM_clauseDepth_self {depth : Nat} {words : List String}
    (h : ∀ word ∈ words, clauseDepth depth word = some depth) :
    words.foldlM clauseDepth depth = some depth := by
  induction words with
  | nil => rfl
  | cons word words ih =>
      rw [List.forall_mem_cons] at h
      rw [List.foldlM_cons, h.1]
      exact ih h.2

/-- What a word of a clause does. -/
theorem clauseDepth_cases {depth depth' : Nat} {word : String}
    (h : clauseDepth depth word = some depth') :
    (word = "(" ∧ depth' = depth + 1) ∨ (word = ")" ∧ depth = depth' + 1) ∨
      (word ∉ ["(", ")", "function", "procedure", "end"] ∧ (word = ";" → depth ≠ 0) ∧
        depth' = depth) := by
  rw [clauseDepth] at h
  split at h
  · next hOpen => exact .inl ⟨hOpen, (Option.some.inj h).symm⟩
  split at h
  · next hClose =>
    split at h
    · cases h
    next hDepth =>
    have hLess := Option.some.inj h
    exact .inr (.inl ⟨hClose, by omega⟩)
  split at h
  · cases h
  · next hOpen hClose hBody =>
    split at h
    · cases h
    next hSemicolon =>
    refine .inr (.inr ⟨?_, fun hText hDepth => hSemicolon ⟨hText, hDepth⟩,
      (Option.some.inj h).symm⟩)
    rw [List.mem_cons, List.mem_cons, not_or, not_or]
    exact ⟨hOpen, hClose, hBody⟩

/-- Inside of one more parenthesis the same words open and close the same. -/
theorem clauseDepth_succ {depth depth' : Nat} {word : String}
    (h : clauseDepth depth word = some depth') :
    clauseDepth (depth + 1) word = some (depth' + 1) := by
  obtain ⟨rfl, rfl⟩ | ⟨rfl, rfl⟩ | ⟨hWord, -, rfl⟩ := clauseDepth_cases h
  · rfl
  · rfl
  · simp only [List.mem_cons, List.not_mem_nil, or_false, not_or] at hWord
    simp [clauseDepth, hWord]

/-- What is balanced is balanced one level deeper as well. -/
theorem foldlM_clauseDepth_succ {depth depth' : Nat} {words : List String}
    (h : words.foldlM clauseDepth depth = some depth') :
    words.foldlM clauseDepth (depth + 1) = some (depth' + 1) := by
  induction words generalizing depth with
  | nil => rw [← Option.some.inj h]; rfl
  | cons word words ih =>
      rw [List.foldlM_cons] at h ⊢
      obtain ⟨middle, hDepth, hRest⟩ := Option.bind_eq_some_iff.1 h
      rw [clauseDepth_succ hDepth]
      exact ih hRest

/-- Clauses in a row. -/
theorem foldlM_clauseDepth_append {depth middle depth' : Nat} {words others : List String}
    (h : words.foldlM clauseDepth depth = some middle)
    (h' : others.foldlM clauseDepth middle = some depth') :
    (words ++ others).foldlM clauseDepth depth = some depth' := by
  rw [List.foldlM_append, h]
  exact h'

namespace Parameter

variable (parameter : Parameter)

/-- The parentheses of a parameter are balanced, so that its words do not close the list. -/
theorem foldlM_words : parameter.words.foldlM Vhdl.clauseDepth 1 = some 1 := by
  have hFront : parameter.front.foldlM Vhdl.clauseDepth 1 = some 1 :=
    foldlM_clauseDepth_self fun word hMem => by
      have hWord := parameter.isFront word hMem
      simp only [List.mem_cons, List.not_mem_nil, or_false, not_or] at hWord
      simp [Vhdl.clauseDepth, hWord]
  have hMode : parameter.mode.toList.foldlM Vhdl.clauseDepth 1 = some 1 :=
    foldlM_clauseDepth_self fun word hMem => by
      have hText := parameter.isMode word (Option.mem_toList.1 hMem)
      fin_cases hText <;> rfl
  have hType : [parameter.type.text].foldlM Vhdl.clauseDepth 1 = some 1 :=
    foldlM_clauseDepth_self fun word hMem => by
      rw [List.mem_singleton.1 hMem, parameter.type.clauseDepth]
  exact foldlM_clauseDepth_append hFront
    (foldlM_clauseDepth_append rfl (foldlM_clauseDepth_append hMode
    (foldlM_clauseDepth_append hType (foldlM_clauseDepth_succ parameter.tail.isClosed))))

/-- The word that ends a heading is in no parameter. -/
theorem not_mem_words : "is" ∉ parameter.words := by
  have hFront : "is" ∉ parameter.front := fun hMem => absurd (parameter.isFront _ hMem) (by decide)
  have hMode : "is" ∉ parameter.mode.toList := fun hMem =>
    absurd (parameter.isMode _ (Option.mem_toList.1 hMem)) (by decide)
  have hType : "is" ≠ parameter.type.text := fun hText => parameter.type.not_mem (by simp [← hText])
  simp only [words, List.mem_append, List.mem_singleton, not_or]
  exact ⟨hFront, by decide, hMode, hType, parameter.isTail⟩

end Parameter

/-- What follows the name in a heading is closed, and `is` is no part of it. -/
theorem SubprogramHeading.foldlM_tailWords (heading : SubprogramHeading) :
    heading.tailWords.foldlM Vhdl.clauseDepth 0 = some 0 ∧ "is" ∉ heading.tailWords := by
  have hOthers (others : List Parameter) :
      (others.flatMap fun next => [";"] ++ next.words).foldlM Vhdl.clauseDepth 1 = some 1 ∧
        "is" ∉ others.flatMap fun next => [";"] ++ next.words := by
    induction others with
    | nil => exact ⟨rfl, by simp⟩
    | cons next others ih =>
        rw [List.flatMap_cons, List.mem_append, List.mem_append, not_or, not_or]
        exact ⟨foldlM_clauseDepth_append (foldlM_clauseDepth_append rfl next.foldlM_words) ih.1,
          ⟨by decide, next.not_mem_words⟩, ih.2⟩
  have hList : (listWords heading.parameters).foldlM Vhdl.clauseDepth 0 = some 0 ∧
      "is" ∉ listWords heading.parameters := by
    cases heading.parameters with
    | nil => exact ⟨rfl, by decide⟩
    | cons first others =>
        simp only [listWords, List.mem_append, not_or]
        exact ⟨foldlM_clauseDepth_append rfl (foldlM_clauseDepth_append first.foldlM_words
          (foldlM_clauseDepth_append (hOthers others).1 rfl)),
          by decide, first.not_mem_words, (hOthers others).2, by decide⟩
  have hResult : (resultWords heading.result).foldlM Vhdl.clauseDepth 0 = some 0 ∧
      "is" ∉ resultWords heading.result := by
    cases heading.result with
    | none => exact ⟨rfl, by decide⟩
    | some type =>
        have hType : "is" ≠ type.text := fun hText => type.not_mem (by simp [← hText])
        refine ⟨foldlM_clauseDepth_self fun word hMem => ?_, by simp [resultWords, hType]⟩
        obtain rfl | hMem := List.mem_cons.1 hMem
        · rfl
        · rw [List.mem_singleton.1 hMem, type.clauseDepth]
  rw [tailWords, List.mem_append, not_or]
  exact ⟨foldlM_clauseDepth_append hList.1 hResult.1, hList.2, hResult.2⟩

end HdlIndex.Vhdl

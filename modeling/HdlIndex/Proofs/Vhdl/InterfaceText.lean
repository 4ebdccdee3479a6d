import HdlIndex.Proofs.Text.Folding
import HdlIndex.Proofs.Vhdl.Phrase
import HdlIndex.Symbols.Declarations

/-! The written form of interface elements, and the pieces that it is written in. -/
namespace HdlIndex.Vhdl

/-- Parentheses match, with `depth` of them open in front. Semicolons and `:=` stand inside of
parentheses only, which are around the whole where `enclosed` is set. -/
def isBalanced (enclosed : Bool) : (depth : Nat) → List String → Bool
  | depth, [] => depth == 0
  | depth, piece :: pieces =>
    if piece = "(" then isBalanced enclosed (depth + 1) pieces
    else if piece = ")" then depth != 0 && isBalanced enclosed (depth - 1) pieces
    else (enclosed || depth != 0 || (piece != ";" && piece != ":=")) &&
      isBalanced enclosed depth pieces

/-- What constrains the type of an element: a group in parentheses, or all that follows `range`. -/
inductive Constraint where
  | group (inside : List String)
  | range (sequence : List String)

namespace Constraint

/-- The pieces of a constraint. -/
def pieces : Constraint → List String
  | group inside => "(" :: (inside ++ [")"])
  | range sequence => "range" :: sequence

/-- The text of a constraint. -/
def text (constraint : Constraint) : String := String.join constraint.pieces

/-- The constraint in lower case. -/
def fold : Constraint → Constraint
  | group inside => group (inside.map Text.foldCase)
  | range sequence => range (sequence.map Text.foldCase)

/-- The parentheses of a constraint match. -/
def isBalanced : Constraint → Bool
  | group inside => Vhdl.isBalanced true 0 inside
  | range sequence => Vhdl.isBalanced false 0 sequence

end Constraint

/-- The words that stand in front of a declared name and are no names themselves. -/
def objectClasses : List String := ["signal", "constant", "variable", "file", "type", "shared"]

/-- The modes as they are written. -/
def modeTexts : List String := ["in", "out", "inout", "buffer", "linkage"]

/-- An interface element before it is written. -/
structure InterfaceElement where
  names : List String
  mode : Option String := none
  type : String
  constraint : Option Constraint := none
  /-- The pieces of the initial value. -/
  init : Option (List String) := none

namespace InterfaceElement

/-- The text of an element: `names : mode type constraint := init`. -/
def text (element : InterfaceElement) : String :=
  ", ".intercalate element.names ++ " : " ++ ((element.mode.map (· ++ " ")).getD "") ++
    element.type ++ ((element.constraint.map (" " ++ ·.text)).getD "") ++
    ((element.init.map (" := " ++ String.join ·)).getD "")

/-- The element in lower case, which it may be already. -/
def fold (element : InterfaceElement) : InterfaceElement where
  names := element.names.map Text.foldCase
  mode := element.mode.map Text.foldCase
  type := Text.foldCase element.type
  constraint := element.constraint.map (·.fold)
  init := element.init.map (·.map Text.foldCase)

/-- The element can be written: it declares something, its names and its type are identifiers, and
its expressions are phrases with matching parentheses. Only the type has to be no reserved word. -/
structure IsWellFormed (element : InterfaceElement) : Prop where
  declares : element.names ≠ []
  names : ∀ name ∈ element.names, IsWord name ∧ isNameLike name = true ∧ name ∉ objectClasses
  mode : ∀ mode ∈ element.mode, mode ∈ modeTexts
  type : IsWord element.type ∧ isNameLike element.type = true ∧ Keyword.ofText? element.type = none
  constraint : ∀ constraint ∈ element.constraint,
    IsPhrase constraint.pieces ∧ constraint.isBalanced = true
  init : ∀ value ∈ element.init, IsPhrase value ∧ isBalanced false 0 value = true

instance (element : InterfaceElement) : Decidable element.IsWellFormed :=
  decidable_of_iff (element.names ≠ [] ∧
      (∀ name ∈ element.names, IsWord name ∧ isNameLike name = true ∧ name ∉ objectClasses) ∧
      (∀ mode ∈ element.mode, mode ∈ modeTexts) ∧
      (IsWord element.type ∧ isNameLike element.type = true ∧
        Keyword.ofText? element.type = none) ∧
      (∀ constraint ∈ element.constraint,
        IsPhrase constraint.pieces ∧ constraint.isBalanced = true) ∧
      ∀ value ∈ element.init, IsPhrase value ∧ isBalanced false 0 value = true)
    ⟨fun h => ⟨h.1, h.2.1, h.2.2.1, h.2.2.2.1, h.2.2.2.2.1, h.2.2.2.2.2⟩,
      fun h => ⟨h.1, h.2, h.3, h.4, h.5, h.6⟩⟩

end InterfaceElement

/-- The text of an interface list. -/
def interfaceText (elements : List InterfaceElement) : String :=
  "; ".intercalate (elements.map (·.text))

variable {element : InterfaceElement} {elements : List InterfaceElement}

theorem IsWord.ne_space {text : String} (h : IsWord text) : text ≠ " " := by
  rintro rfl
  exact absurd (h.isWordChar_of_mem (List.mem_singleton_self ' ')) (by decide)

/-- Lists of pieces are written one after another with a comma or a semicolon between them. -/
theorem IsWritten.intercalate {mark : String} (hMark : mark ∈ [",", ";"])
    {lists : List (List String)}
    (hLists : ∀ list ∈ lists, IsWritten list ∧ ∃ first ∈ list.head?, first ≠ " ") :
    IsWritten (List.intercalate [mark, " "] lists) := by
  have hPieces : IsPiece mark ∧ mark ≠ " " := by fin_cases hMark <;> decide
  induction lists with
  | nil => exact .nil
  | cons list lists ih =>
      rw [List.forall_mem_cons] at hLists
      cases lists with
      | nil => simpa using hLists.1.1
      | cons next lists =>
          have hRest := ih hLists.2
          obtain ⟨first, hFirst, hSpace⟩ := (hLists.2 next (List.mem_cons_self ..)).2
          obtain ⟨rest, rfl⟩ : ∃ rest, next = first :: rest :=
            ⟨next.tail, (List.cons_head?_tail hFirst).symm⟩
          rw [List.intercalate_cons_cons_left] at hRest
          rw [List.intercalate_cons_cons, List.intercalate_cons_cons_left, List.append_assoc,
            List.cons_append, List.cons_append, List.nil_append, append_iff, cons_iff, cons_iff]
          refine ⟨hLists.1.1, ⟨hPieces.1, ?_, by decide, ?_, hRest⟩, ?_⟩
          · intro space hHead
            obtain rfl := Option.some.inj hHead
            exact Joins.space hPieces.2
          · intro piece hHead
            obtain rfl := Option.some.inj hHead
            exact Joins.of_space hSpace
          · intro piece _ other hHead
            obtain rfl := Option.some.inj hHead
            exact Joins.mark hMark

namespace InterfaceElement

/-- The pieces of a mode that is given. -/
def modePieces (element : InterfaceElement) : List String :=
  match element.mode with
  | none => []
  | some mode => [mode, " "]

/-- The pieces of a constraint that is given. -/
def constraintPieces (element : InterfaceElement) : List String :=
  match element.constraint with
  | none => []
  | some constraint => " " :: constraint.pieces

/-- The pieces of an initial value that is given. -/
def valuePieces (element : InterfaceElement) : List String :=
  match element.init with
  | none => []
  | some value => " " :: ":=" :: " " :: value

/-- The pieces behind the names. -/
def tailPieces (element : InterfaceElement) : List String :=
  " " :: ":" :: " " :: (element.modePieces ++
    element.type :: (element.constraintPieces ++ element.valuePieces))

/-- The pieces that an element is written in. -/
def pieces (element : InterfaceElement) : List String :=
  List.intercalate [",", " "] (element.names.map ([·])) ++ element.tailPieces

end InterfaceElement

/-- The pieces that an interface list is written in. -/
def interfacePieces (elements : List InterfaceElement) : List String :=
  List.intercalate [";", " "] (elements.map (·.pieces))

/-- The pieces of an element, joined, are its text. -/
theorem InterfaceElement.join_pieces (element : InterfaceElement) :
    String.join element.pieces = element.text := by
  have hNames : String.join [",", " "] = ", " := rfl
  rw [pieces, String.join_append, join_intercalate, hNames, text, ← String.toList_inj]
  obtain ⟨names, mode, type, constraint, init⟩ := element
  cases mode <;> cases constraint <;> cases init <;>
    simp [tailPieces, modePieces, constraintPieces, valuePieces, Constraint.text, Function.comp_def]

/-- And those of a list are the text of the list. -/
theorem join_interfacePieces (elements : List InterfaceElement) :
    String.join (interfacePieces elements) = interfaceText elements := by
  have hSeparator : String.join [";", " "] = "; " := rfl
  rw [interfacePieces, join_intercalate, hSeparator, interfaceText, List.map_map]
  simp [Function.comp_def, InterfaceElement.join_pieces]

namespace InterfaceElement.IsWellFormed

/-- The pieces of a default value are written as they are split, behind a space. -/
theorem valuePieces (h : element.IsWellFormed) :
    IsWritten element.valuePieces ∧ ∀ piece ∈ element.valuePieces.head?, piece = " " := by
  rw [InterfaceElement.valuePieces]
  cases hInit : element.init with
  | none => exact ⟨.nil, by simp⟩
  | some value =>
      obtain ⟨hPhrase, -⟩ := h.init value hInit
      have hBehind : IsWritten (":=" :: " " :: value) :=
        .cons_space (by decide) (by decide)
          (hPhrase.toIsWritten.space_cons hPhrase.starts) (by simp)
      exact ⟨hBehind.space_cons (by simp), by simp⟩

/-- So are those of a constraint, with a value behind it. -/
theorem constraintPieces (h : element.IsWellFormed) :
    IsWritten (element.constraintPieces ++ element.valuePieces) ∧
    ∀ piece ∈ (element.constraintPieces ++ element.valuePieces).head?, piece = " " := by
  obtain ⟨hValue, hSpace⟩ := h.valuePieces
  rw [InterfaceElement.constraintPieces]
  cases hConstraint : element.constraint with
  | none => exact ⟨hValue, hSpace⟩
  | some constraint =>
      obtain ⟨hPhrase, -⟩ := h.constraint constraint hConstraint
      have hBehind : IsWritten (constraint.pieces ++ element.valuePieces) := by
        refine IsWritten.append_iff.2 ⟨hPhrase.toIsWritten, hValue, ?_⟩
        intro last hLast next hNext
        obtain rfl := hSpace next hNext
        apply Joins.space
        rintro rfl
        exact hPhrase.ends hLast
      exact ⟨hBehind.space_cons (by cases constraint <;> simp [Constraint.pieces]), by simp⟩

/-- And all that stands behind the names. -/
theorem tailPieces (h : element.IsWellFormed) : IsWritten element.tailPieces := by
  obtain ⟨hConstraint, hSpace⟩ := h.constraintPieces
  have hType : IsWritten (element.type :: (element.constraintPieces ++ element.valuePieces)) :=
    .cons_space (fun _ => h.type.1) h.type.1.ne_space hConstraint hSpace
  have hMode : IsWritten (element.modePieces ++
        element.type :: (element.constraintPieces ++ element.valuePieces)) ∧
      (element.modePieces ++
        element.type :: (element.constraintPieces ++ element.valuePieces)).head? ≠ some " " := by
    rw [InterfaceElement.modePieces]
    cases hMode : element.mode with
    | none => exact ⟨hType, by simpa using h.type.1.ne_space⟩
    | some mode =>
        have hWord : IsPiece mode ∧ mode ≠ " " := by
          have hMem := h.mode mode hMode
          fin_cases hMem <;> decide
        have hBehind := hType.space_cons (by simpa using h.type.1.ne_space)
        exact ⟨.cons_space hWord.1 hWord.2 hBehind (by simp), by simpa using hWord.2⟩
  have hColon : IsWritten (":" :: " " :: (element.modePieces ++
      element.type :: (element.constraintPieces ++ element.valuePieces))) :=
    .cons_space (by decide) (by decide) (hMode.1.space_cons hMode.2) (by simp)
  exact hColon.space_cons (by simp)

/-- The pieces of names end with a name. -/
theorem mem_of_getLast? {names : List String} {last : String}
    (h : last ∈ (List.intercalate [",", " "] (names.map ([·]))).getLast?) : last ∈ names := by
  induction names with
  | nil => simp at h
  | cons name names ih =>
      cases names with
      | nil => simpa [eq_comm] using h
      | cons next names =>
          rw [List.map_cons, List.map_cons, List.intercalate_cons_cons] at h
          rw [List.getLast?_append_of_ne_nil _ (by simp)] at h
          exact List.mem_cons_of_mem _ (ih h)

/-- An element is written in its pieces, and begins with its first name. -/
theorem pieces (h : element.IsWellFormed) :
    IsWritten element.pieces ∧ ∃ first ∈ element.pieces.head?, first ≠ " " := by
  have hWords : ∀ name ∈ element.names, IsWord name := fun name hMem => (h.names name hMem).1
  have hNames : IsWritten (List.intercalate [",", " "] (element.names.map ([·]))) := by
    apply IsWritten.intercalate (by decide)
    rw [List.forall_mem_map]
    intro name hMem
    have hName := hWords name hMem
    exact ⟨.cons_space (fun _ => hName) hName.ne_space .nil (by simp), name, rfl, hName.ne_space⟩
  refine ⟨IsWritten.append_iff.2 ⟨hNames, h.tailPieces, ?_⟩, ?_⟩
  · intro last hLast next hNext
    obtain rfl := Option.some.inj hNext
    exact Joins.space (hWords last (mem_of_getLast? hLast)).ne_space
  · obtain ⟨name, names, hCons⟩ := List.exists_cons_of_ne_nil h.declares
    have hName : name ≠ " " := (hWords name (by simp [hCons])).ne_space
    exact ⟨name, by simp [InterfaceElement.pieces, hCons], hName⟩

end InterfaceElement.IsWellFormed

/-- The text of an interface list is written in the pieces of its elements. -/
theorem isWritten_interfacePieces (h : ∀ element ∈ elements, element.IsWellFormed) :
    IsWritten (interfacePieces elements) := by
  apply IsWritten.intercalate (by decide)
  rw [List.forall_mem_map]
  exact fun element hMem => (h element hMem).pieces

theorem Constraint.text_fold (constraint : Constraint) :
    constraint.fold.text = Text.foldCase constraint.text := by
  rw [text, text, Text.foldCase_join]
  have hOpen : Text.foldCase "(" = "(" := rfl
  have hClose : Text.foldCase ")" = ")" := rfl
  have hRange : Text.foldCase "range" = "range" := rfl
  cases constraint <;> simp [fold, pieces, hOpen, hClose, hRange]

/-- Folding the case of an element folds that of its text. -/
theorem InterfaceElement.text_fold (element : InterfaceElement) :
    element.fold.text = Text.foldCase element.text := by
  have hSpace : Text.foldCase " " = " " := rfl
  have hComma : Text.foldCase ", " = ", " := rfl
  have hColon : Text.foldCase " : " = " : " := rfl
  have hBecomes : Text.foldCase " := " = " := " := rfl
  obtain ⟨names, mode, type, constraint, init⟩ := element
  cases mode <;> cases constraint <;> cases init <;>
    simp [text, fold, Constraint.text_fold, hSpace, hComma, hColon, hBecomes]

/-- The text of a list in lower case is the list's text in lower case. -/
theorem interfaceText_fold (elements : List InterfaceElement) :
    interfaceText (elements.map (·.fold)) = Text.foldCase (interfaceText elements) := by
  have hSeparator : Text.foldCase "; " = "; " := rfl
  rw [interfaceText, interfaceText, Text.foldCase_intercalate, hSeparator, List.map_map,
    List.map_map]
  exact congrArg (String.intercalate "; ") (List.map_congr_left fun element _ => element.text_fold)

end HdlIndex.Vhdl

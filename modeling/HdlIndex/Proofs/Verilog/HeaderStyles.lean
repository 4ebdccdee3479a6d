import HdlIndex.Proofs.Symbols.Moved
import HdlIndex.Proofs.Verilog.ItemRoundTrip
import HdlIndex.Proofs.Verilog.ItemText

/-! The two ways to write the header of a module. Either its ports are declared in the header, or
the header names them and the body declares them: each in one declaration, or its direction in one
and its type in another one further down. Both give the same ports: each declaration in the body
adds what it says to the row of its port, and what it leaves out stays as it is. -/
namespace HdlIndex

namespace Verilog

namespace ItemText

/-- The text of an item with the range as it stands. -/
def written (item : ItemText) : String := String.join item.pieces

/-- The declaration of a port without its types. -/
def untyped (port : ItemText) : ItemText := { port with types := [] }

/-- The declaration that gives the types of a port, but not its direction. -/
def typed (port : ItemText) (type : Keyword) (types : List Keyword) : ItemText :=
  { port with lead := type, types }

/-- The ways to declare a port in the body. A port with types may be declared in two steps. -/
def declarations (port : ItemText) : List (List ItemText) :=
  match port.types with
  | [] => [[port]]
  | type :: types => [[port], [port.untyped, port.typed type types]]

/-- The words outside of the range, which each are one token. -/
def outerWords (item : ItemText) : List String :=
  item.lead.text :: item.name :: item.types.map (·.text)

/-- A declaration without a value that can be read back. Its range may be written in any way, but
not with comments or quotes. -/
def isPlain (item : ItemText) : Bool :=
  item.isReadable && item.value.isNone && item.outerWords.all isLexeme &&
    item.range.all (fun inside => inside.all isPlainText && isLexed delimiters inside)

/-- It begins with a direction or a type, and it can be read back. -/
def isDeclaration (item : ItemText) : Bool :=
  item.isPlain && (directions.contains item.lead || isDataType item.lead)

end ItemText

/-- The body declares each port, and nothing else. -/
structure DeclaresPorts (ports body : List ItemText) : Prop where
  each : ∀ port ∈ ports, body.filter (·.name == port.name) ∈ port.declarations
  only : ∀ item ∈ body, item.name ∈ ports.map (·.name)

/-- The text of a module without parameters. -/
def moduleText (name : String) (header body : List String) : String :=
  "module " ++ name ++ "(" ++ ", ".intercalate header ++ "); " ++
    String.join (body.map (· ++ "; ")) ++ "endmodule"

/-- The module with its ports declared in the header. -/
def ansiText (name : String) (ports : List ItemText) : String :=
  moduleText name (ports.map (·.written)) []

/-- The module with its ports named in the header and declared in the body. -/
def nonAnsiText (name : String) (ports body : List ItemText) : String :=
  moduleText name (ports.map (·.name)) (body.map (·.written))

/-- The pieces of a module without parameters. -/
def modulePieces (name : String) (header body : List (List String)) : List String :=
  ["module", " ", name] ++ "(" :: (List.intercalate [",", " "] header ++
    ")" :: ";" :: " " :: (body.flatMap (· ++ [";", " "]) ++ ["endmodule"]))

variable {name word : String} {words back : List String} {header body : List (List String)}
  {item port : ItemText} {ports items : List ItemText}

/-- The pieces are the tokens of their text, none of which is quoted or commented out. -/
structure IsWritten (pieces : List String) : Prop where
  lexed : IsLexed delimiters pieces
  solid : ∃ first ∈ pieces.head?, IsSolid first
  plain : ∀ piece ∈ pieces, isPlainText piece = true

/-- The pieces of a module, joined, are its text. -/
theorem join_modulePieces (name : String) (header body : List (List String)) :
    String.join (modulePieces name header body) =
      moduleText name (header.map String.join) (body.map String.join) := by
  have hSeparator : String.join [",", " "] = ", " := rfl
  have hBody : String.join (body.flatMap (· ++ [";", " "])) =
      String.join ((body.map String.join).map (· ++ "; ")) := by
    have hEnd : String.join [";", " "] = "; " := rfl
    induction body with
    | nil => rfl
    | cons pieces body ih =>
        rw [List.flatMap_cons, String.join_append, ih, String.join_append, hEnd, List.map_cons,
          List.map_cons, String.join_cons]
  have hClose (rest : String) : ")" ++ (";" ++ (" " ++ rest)) = "); " ++ rest := by
    rw [← String.append_assoc, ← String.append_assoc]
    rfl
  have hLead : "module" ++ (" " ++ name) = "module " ++ name := by
    rw [← String.append_assoc]
    rfl
  simp only [modulePieces, moduleText, String.join_append, String.join_cons, String.join_nil,
    String.append_empty, join_intercalate, hSeparator, hBody, hLead, String.append_assoc, hClose]

/-- Words with spaces in front of them may stand between others. -/
theorem isLexed_led (hWord : isLexeme word = true) (hWords : ∀ word ∈ words, isLexeme word = true)
    (hBack : IsLexed delimiters back) (hHead : ∀ word ∈ back.head?, IsSolid word) :
    IsLexed delimiters (word :: (led words ++ " " :: back)) := by
  induction words generalizing word with
  | nil =>
      exact .cons_space delimiters_areBroken (isSolid_of_isLexeme hWord) (isLexed_of_isLexeme hWord)
        hBack hHead
  | cons next words ih =>
      rw [List.forall_mem_cons] at hWords
      exact .cons_space delimiters_areBroken (isSolid_of_isLexeme hWord) (isLexed_of_isLexeme hWord)
        (ih hWords.1 hWords.2) (by simpa using isSolid_of_isLexeme hWords.1)

/-- The pieces of a declaration in front of its semicolon are its tokens. -/
theorem isLexed_pieces (h : item.isPlain = true) : IsLexed delimiters item.pieces := by
  simp only [ItemText.isPlain, Bool.and_eq_true, Option.isNone_iff_eq_none] at h
  obtain ⟨⟨⟨-, hValue⟩, hWords⟩, hRange⟩ := h
  rw [ItemText.outerWords, List.all_cons, List.all_cons, Bool.and_eq_true,
    Bool.and_eq_true] at hWords
  obtain ⟨hLead, hName, hTypes⟩ := hWords
  rw [ItemText.pieces, ItemText.tailPieces, ItemText.valueWords, hValue, led_nil]
  have hNamed := isLexed_of_isLexeme hName
  have hSolid := isSolid_of_isLexeme hName
  cases hInside : item.range with
  | none =>
      rw [ItemText.rangePieces, hInside]
      exact isLexed_led hLead (List.all_eq_true.1 hTypes) hNamed (by simpa using hSolid)
  | some inside =>
      rw [hInside, Option.all_some, Bool.and_eq_true] at hRange
      have hBrackets : IsLexed delimiters ("[" :: (inside ++ ["]"])) :=
        .mark_cons (c := '[') (by decide) rfl (.append_mark (c := ']') (by decide) rfl
          delimiters_areBroken.blank (.of_isLexed hRange.2) .nil)
      have hPieces : item.rangePieces = " " :: "[" :: (inside ++ ["]"]) := by
        rw [ItemText.rangePieces, hInside, ItemText.rangeWords, hInside]
      have hClose : ∀ word ∈ ("[" :: (inside ++ ["]"])).getLast?, IsSolid word := by
        rw [← List.cons_append, List.getLast?_concat]
        intro word hWord
        obtain rfl := Option.some.inj hWord
        exact isSolid_of_isLexeme (by decide +kernel)
      have hRanged : IsLexed delimiters ("[" :: (inside ++ ["]"]) ++ " " :: [item.name]) :=
        hBrackets.append_space delimiters_areBroken hClose hNamed (by simpa using hSolid)
      rw [hPieces]
      refine isLexed_led hLead (List.all_eq_true.1 hTypes) hRanged fun word hWord => ?_
      obtain rfl := Option.some.inj hWord
      exact isSolid_of_isLexeme (by decide +kernel)

theorem isSolid_pieces (h : item.isPlain = true) : ∃ first ∈ item.pieces.head?, IsSolid first := by
  simp only [ItemText.isPlain, Bool.and_eq_true] at h
  exact ⟨_, rfl, isSolid_of_isLexeme (List.all_eq_true.1 h.1.2 _ List.mem_cons_self)⟩

/-- The pieces of a module are its tokens. -/
theorem isLexed_modulePieces (hName : isLexeme name = true)
    (hHeader : ∀ pieces ∈ header, IsWritten pieces) (hBody : ∀ pieces ∈ body, IsWritten pieces) :
    IsLexed delimiters (modulePieces name header body) := by
  have hModule : isLexeme "module" = true := by decide +kernel
  have hEnd : isLexeme "endmodule" = true := by decide +kernel
  have hBlank := delimiters_areBroken.blank
  have hItems : IsLexed delimiters (body.flatMap (· ++ [";", " "]) ++ ["endmodule"]) ∧
      ∀ word ∈ (body.flatMap (· ++ [";", " "]) ++ ["endmodule"]).head?, IsSolid word := by
    induction body with
    | nil => exact ⟨isLexed_of_isLexeme hEnd, by simpa using isSolid_of_isLexeme hEnd⟩
    | cons pieces body ih =>
        rw [List.forall_mem_cons] at hBody
        obtain ⟨⟨hPieces, ⟨first, hFirst, hSolid⟩, -⟩, hBody⟩ := hBody
        obtain ⟨hRest, hHead⟩ := ih hBody
        rw [List.flatMap_cons, List.append_assoc, List.append_assoc]
        refine ⟨hPieces.append_mark (c := ';') (by decide) rfl hBlank
          (hRest.space_cons delimiters_areBroken hHead), ?_⟩
        rw [List.head?_append, hFirst]
        intro word hWord
        obtain rfl := Option.some.inj hWord
        exact hSolid
  have hFront : IsLexed delimiters ["module", " ", name] :=
    .cons_space delimiters_areBroken (isSolid_of_isLexeme hModule) (isLexed_of_isLexeme hModule)
      (isLexed_of_isLexeme hName) (by simpa using isSolid_of_isLexeme hName)
  refine hFront.append_mark (c := '(') (by decide) rfl hBlank
    (.append_mark (c := ')') (by decide) rfl hBlank
      (.intercalate isMark_comma rfl delimiters_areBroken fun pieces hMem =>
        ⟨(hHeader pieces hMem).lexed, (hHeader pieces hMem).solid⟩)
      (.mark_cons (c := ';') (by decide) rfl (hItems.1.space_cons delimiters_areBroken hItems.2)))

/-- None of the pieces is quoted or commented out. -/
theorem isPlainText_modulePieces (hName : isPlainText name = true)
    (hHeader : ∀ pieces ∈ header, IsWritten pieces) (hBody : ∀ pieces ∈ body, IsWritten pieces) :
    ∀ piece ∈ modulePieces name header body, isPlainText piece = true := by
  have hMarks : ∀ piece ∈ ["module", " ", "(", ")", ";", ",", "endmodule"],
      isPlainText piece = true := by
    decide +kernel
  simp only [List.forall_mem_cons] at hMarks
  obtain ⟨hModule, hSpace, hOpen, hClose, hSemicolon, hComma, hEnd, -⟩ := hMarks
  simp only [modulePieces, List.forall_mem_append, List.forall_mem_cons, List.forall_mem_flatMap]
  refine ⟨⟨hModule, hSpace, hName, nofun⟩, hOpen, fun piece hPiece => ?_, hClose,
    hSemicolon, hSpace,
    fun pieces hMem => ⟨(hBody pieces hMem).plain, hSemicolon, hSpace, nofun⟩, hEnd, nofun⟩
  rcases mem_of_mem_intercalate hPiece with hMem | ⟨pieces, hPieces, hMem⟩
  · simp only [List.mem_cons, List.not_mem_nil, or_false] at hMem
    rcases hMem with rfl | rfl <;> assumption
  · exact (hHeader pieces hPieces).plain piece hMem

/-- None of the pieces of a declaration is quoted or commented out. -/
theorem isPlainText_pieces (h : item.isPlain = true) :
    ∀ piece ∈ item.pieces, isPlainText piece = true := by
  simp only [ItemText.isPlain, Bool.and_eq_true, Option.isNone_iff_eq_none] at h
  obtain ⟨⟨⟨-, hValue⟩, hWords⟩, hRange⟩ := h
  have hSpace : isPlainText " " = true := by decide
  have hName : ∀ piece ∈ " " :: item.name :: led item.valueWords, isPlainText piece = true := by
    rw [ItemText.valueWords, hValue, led_nil]
    refine List.forall_mem_cons.2 ⟨hSpace, List.forall_mem_singleton.2 ?_⟩
    exact isPlainText_of_isLexeme (List.all_eq_true.1 hWords _ (by simp [ItemText.outerWords]))
  have hTypes : ∀ piece ∈ led (item.types.map (·.text)), isPlainText piece = true := by
    intro piece hPiece
    obtain ⟨word, hWord, hMem⟩ := List.mem_flatMap.1 hPiece
    simp only [List.mem_cons, List.not_mem_nil, or_false] at hMem
    rcases hMem with rfl | rfl
    · exact hSpace
    · exact isPlainText_of_isLexeme
        (List.all_eq_true.1 hWords _ (by simp [ItemText.outerWords, hWord]))
  have hInside : ∀ piece ∈ item.rangePieces, isPlainText piece = true := by
    cases hSome : item.range with
    | none => simp [ItemText.rangePieces, hSome]
    | some inside =>
        rw [hSome, Option.all_some, Bool.and_eq_true, List.all_eq_true] at hRange
        have hOpen : isPlainText "[" = true := by decide
        have hClose : isPlainText "]" = true := by decide
        simpa [ItemText.rangePieces, ItemText.rangeWords, hSome, hSpace, hOpen, hClose,
          or_imp, forall_and] using hRange.1
  have hLead : isPlainText item.lead.text = true :=
    isPlainText_of_isLexeme (List.all_eq_true.1 hWords _ List.mem_cons_self)
  simp only [ItemText.pieces, ItemText.tailPieces, List.forall_mem_cons, List.forall_mem_append]
  exact ⟨hLead, hTypes, hInside, List.forall_mem_cons.1 hName |>.imp id List.forall_mem_cons.1⟩

theorem ItemText.isWritten (h : item.isPlain = true) : IsWritten item.pieces :=
  ⟨isLexed_pieces h, isSolid_pieces h, isPlainText_pieces h⟩

/-- Each step of a port's declaration is a declaration. -/
theorem isDeclaration_of_mem (hPlain : port.isPlain = true) (hPort : port.isPort = true)
    (hItems : items ∈ port.declarations) (hItem : item ∈ items) : item.isDeclaration = true := by
  simp only [ItemText.isPort, Bool.and_eq_true, List.contains_iff_mem] at hPort
  have hWhole : port.isDeclaration = true := by simp [ItemText.isDeclaration, hPlain, hPort.1]
  unfold ItemText.declarations at hItems
  split at hItems
  · obtain rfl := List.mem_singleton.1 hItems
    obtain rfl := List.mem_singleton.1 hItem
    exact hWhole
  · next type types hTypes =>
    simp only [List.mem_cons, List.not_mem_nil, or_false] at hItems
    rcases hItems with rfl | rfl
    · obtain rfl := List.mem_singleton.1 hItem
      exact hWhole
    · simp only [ItemText.isPlain, ItemText.isReadable, ItemText.outerWords, hTypes,
        Bool.and_eq_true, List.all_cons, List.map_cons] at hPlain
      simp only [List.mem_cons, List.not_mem_nil, or_false] at hItem
      rcases hItem with rfl | rfl <;>
        simp only [ItemText.isDeclaration, ItemText.isPlain, ItemText.isReadable,
          ItemText.outerWords, ItemText.untyped, ItemText.typed, Bool.and_eq_true, Bool.or_eq_true,
          List.all_cons] <;>
        simp [hPlain, hPort]

end Verilog

section Declaring

namespace Declarations

theorem unlessEmpty_empty (new : String) : unlessEmpty new "" = new := by
  rw [unlessEmpty]
  split
  · next h => exact (String.isEmpty_iff.1 h).symm
  · rfl

theorem unlessEmpty_self (new : String) : unlessEmpty new new = new := by
  rw [unlessEmpty, ite_self]

end Declarations

namespace Verilog

open Declarations (unlessEmpty unlessEmpty_empty unlessEmpty_self)

/-- What is declared of a port. -/
structure Declared where
  mode : String := ""
  type : String := ""
  range : String := ""

/-- The row of a port with the name. -/
def Declared.row (declared : Declared) (name : String) : List String :=
  [name, declared.mode, declared.type, declared.range, ""]

/-- The rows of ports with the names. -/
def rowsOf (names : List String) (declared : String → Declared) : List (List String) :=
  names.map fun name => (declared name).row name

section Rows

variable {list : Declarations} {names : List String} {name mode range : String} {type : Option Word}
  {declared : String → Declared}

/-- A name whose row is listed is found there. -/
theorem Declared.exists_find? (hTexts : list.texts = rowsOf names declared)
    (hName : name ∈ names) : ∃ index, list.find? name = some index ∧ names[index]? = some name := by
  have hNames : list.rows.toList.map (·.name.text) = names := by
    have hHead := congrArg (List.map fun row => row.headD "") hTexts
    rw [Declarations.texts, rowsOf, List.map_map, List.map_map] at hHead
    exact hHead.trans (List.map_id _)
  rw [← hNames] at hName ⊢
  obtain ⟨row, hRow, hText⟩ := List.mem_map.1 hName
  cases hFound : list.rows.findIdx? (·.name.text == name) with
  | none =>
      have hOther := Array.findIdx?_eq_none_iff.1 hFound row (Array.mem_toList_iff.1 hRow)
      simp [hText] at hOther
  | some index =>
      refine ⟨index, by rw [Declarations.find?, hFound], ?_⟩
      obtain ⟨hIndex, hSame, -⟩ := Array.findIdx?_eq_some_iff_getElem.1 hFound
      rw [List.getElem?_map, Array.getElem?_toList, Array.getElem?_eq_getElem hIndex]
      exact congrArg some (beq_iff_eq.1 hSame)

/-- What is declared of a name is added to its row. -/
theorem Declared.texts_update (hTexts : list.texts = rowsOf names declared)
    (hNames : names.Nodup) {index : Nat} (hIndex : names[index]? = some name) :
    (list.update index mode type range "").texts = rowsOf names (Function.update declared name
      ⟨unlessEmpty mode (declared name).mode, (type.map (·.text)).getD (declared name).type,
        unlessEmpty range (declared name).range⟩) := by
  apply List.ext_getElem?
  intro place
  have hPlace := congrArg (·[place]?) hTexts
  simp only [Declarations.texts, rowsOf, List.getElem?_map, Array.getElem?_toList] at hPlace
  simp only [Declarations.texts, Declarations.update, rowsOf, List.getElem?_map,
    Array.getElem?_toList, Array.getElem?_modify]
  by_cases hSame : index = place
  · subst hSame
    rw [hIndex, Option.map_some] at hPlace
    obtain ⟨row, hRow, hRowTexts⟩ := Option.map_eq_some_iff.1 hPlace
    simp only [Row.texts, Declared.row, List.cons.injEq, and_true] at hRowTexts
    obtain ⟨hName, hMode, hType, hRange, hInit⟩ := hRowTexts
    rw [hRow, hIndex, if_pos rfl, Option.map_some, Option.map_some, Option.map_some,
      Function.update_self]
    cases type <;> simp [Row.texts, Declared.row, hName, hMode, hType, hRange, hInit,
      unlessEmpty_empty]
  · rw [if_neg hSame, hPlace]
    cases hOther : names[place]? with
    | none => rfl
    | some other =>
        have hNe : other ≠ name := by
          rintro rfl
          have hBound := (List.getElem?_eq_some_iff.1 hIndex).1
          exact hSame ((List.getElem?_inj hBound hNames).1 (hIndex.trans hOther.symm))
        rw [Option.map_some, Option.map_some, Function.update_of_ne hNe]

end Rows

namespace ItemText

/-- The words of the type that a declaration in the body gives. It may begin with one of them. -/
def declaredTypes (item : ItemText) : List Keyword :=
  if directions.contains item.lead then item.types else item.lead :: item.types

/-- The direction that it gives, if it gives one. -/
def declaredMode (item : ItemText) : String :=
  if directions.contains item.lead then item.lead.text else ""

/-- How it is recorded. -/
def bodyKind (item : ItemText) : ItemKind :=
  if directions.contains item.lead then .bodyPort else .bodyNet

end ItemText

/-- Adds what a declaration in the body says. -/
def Declared.add (declared : Declared) (item : ItemText) : Declared where
  mode := unlessEmpty item.declaredMode declared.mode
  type := (typeText? item.declaredTypes).getD declared.type
  range := unlessEmpty (collected item.rangeWords) declared.range

variable {kind : ItemKind} {item : Item} {text port : ItemText} {body ports : List ItemText}
  {token : Token} {tokens : List Token} {found : Findings} {names : List String} {walk : Walk}
  {declared : String → Declared} {after : Option Token}

/-- The ports that are found have the rows, and there are no objects. -/
structure Findings.HasPorts (rows : List (List String)) (found : Findings) : Prop where
  texts : found.ports.texts = rows
  settled : found.IsSettled
  objects : found.objects = {}

/-- The first word of a declaration in the body. -/
theorem exists_read_lead (hLead : (directions.contains text.lead || isDataType text.lead) = true)
    (hText : token.text = text.lead.text) : ∃ item' before,
      Item.read { kind := text.bodyKind } (.ofToken token) = .stay item' ∧
      item'.Holds text.bodyKind text.declaredMode before "" ∧
      before ++ text.types = text.declaredTypes := by
  have hHere := Lexeme.symbol_keyword text.lead hText
  rw [ItemText.bodyKind, ItemText.declaredMode, ItemText.declaredTypes]
  by_cases hDirection : directions.contains text.lead = true
  · rw [if_pos hDirection, if_pos hDirection, if_pos hDirection]
    obtain ⟨item', hRead, hHolds⟩ := Item.IsReady.read_direction
      (⟨rfl, rfl, rfl, rfl, rfl⟩ : Item.IsReady .bodyPort { kind := .bodyPort }) hHere
      (List.contains_iff_mem.1 hDirection)
    rw [← hText]
    exact ⟨item', [], hRead, hHolds, rfl⟩
  · rw [if_neg hDirection, if_neg hDirection, if_neg hDirection]
    rw [Bool.or_eq_true, or_iff_right hDirection] at hLead
    obtain ⟨item', hRead, hHolds⟩ := Item.Holds.read_type
      (⟨rfl, rfl, rfl, rfl, rfl, rfl, rfl, rfl⟩ : Item.Holds .bodyNet "" [] "" { kind := .bodyNet })
      hHere
      hText hLead
    exact ⟨item', [text.lead], hRead, hHolds, rfl⟩

/-- A declaration in the body adds what it says to the row of its port. -/
theorem Item.Declares.hasPorts (hFound : found.HasPorts (rowsOf names declared))
    (hNames : names.Nodup) (hName : text.name ∈ names) (hValue : text.value = none)
    (h : item.Declares text.bodyKind text.declaredMode { text with types := text.declaredTypes }) :
    (Walk.declare found item).HasPorts (rowsOf names
      (Function.update declared text.name ((declared text.name).add text))) := by
  obtain ⟨index, hIndex, hPlace⟩ := Declared.exists_find? hFound.texts hName
  obtain ⟨name, hItem, hText⟩ : ∃ name, item.name = some name ∧ name.text = text.name := by
    simpa using h.name
  have hDeclare : Walk.declare found item = { found with
      ports := found.ports.update index text.declaredMode item.type
        (collected text.rangeWords) "" } := by
    rw [Walk.declare, hItem, h.kind]
    rw [← hText] at hIndex
    have hRange := h.range
    have hMode := h.direction
    by_cases hDirection : directions.contains text.lead = true
    · rw [ItemText.declaredMode, if_pos hDirection] at hMode ⊢
      rw [ItemText.bodyKind, if_pos hDirection]
      simp only [Walk.declarePort, hIndex, hMode, hRange, ItemText.rangeWords]
    · have hNone : item.valueText = "" := by rw [h.value, hValue]; rfl
      rw [ItemText.declaredMode, if_neg hDirection]
      rw [ItemText.bodyKind, if_neg hDirection]
      simp only [Walk.declareNet, hIndex, hRange, hNone, ItemText.rangeWords]
  rw [hDeclare]
  refine ⟨?_, ⟨hFound.settled.ports, hFound.settled.parameters⟩, hFound.objects⟩
  rw [Declared.texts_update hFound.texts hNames hPlace, h.type]
  rfl

/-- The walk rests at a place and has found ports with the rows, and no objects. -/
def Walk.HasPorts (place : Place) (rows : List (List String)) (walk : Walk) : Prop :=
  ∃ found : Findings, walk.Rests place found ∧ found.HasPorts rows

/-- In the body of a module a declaration begins with its first word. -/
theorem Walk.Rests.begins (h : walk.Rests .moduleBody found)
    (hLead : (directions.contains text.lead || isDataType text.lead) = true)
    (hText : token.text = text.lead.text) (next : Option Lexeme) :
    walk.read (.ofToken token) next =
      walk.readDeclaration { kind := text.bodyKind } (.ofToken token) := by
  have hHere := Lexeme.symbol_keyword text.lead hText
  have hNone : walk.awaitsChoice = false := by rw [awaitsChoice, h.frames]
  rw [read, h.place]
  simp only [readItem, hNone, Bool.false_and, hHere]
  rw [ItemText.bodyKind]
  generalize text.lead = lead at hLead
  cases lead <;> first
    | rfl
    | cases hLead

/-- A declaration in the body is taken with the semicolon behind it. -/
theorem leads_declaration (h : text.isDeclaration = true) (hNames : names.Nodup)
    (hName : text.name ∈ names) (hTokens : tokens.map (·.text) = text.pieces ++ [";", " "]) :
    machine.Leads tokens after (Walk.HasPorts .moduleBody (rowsOf names declared))
      (Walk.HasPorts .moduleBody (rowsOf names
        (Function.update declared text.name ((declared text.name).add text)))) := by
  simp only [ItemText.isDeclaration, ItemText.isPlain, Bool.and_eq_true,
    Option.isNone_iff_eq_none] at h
  obtain ⟨⟨⟨⟨hReadable, hValue⟩, -⟩, -⟩, hLead⟩ := h
  simp only [ItemText.pieces, List.cons_append, List.map_eq_cons_iff, List.map_eq_append_iff,
    List.map_eq_nil_iff] at hTokens
  obtain ⟨lead, _, rfl, hLeadText, tail, _, rfl, hTail, semicolon, _, rfl, hSemicolon, space, _,
    rfl, hSpace, rfl⟩ := hTokens
  generalize hRows :
    rowsOf names (Function.update declared text.name ((declared text.name).add text)) = rows
  rintro events walk hReads ⟨found, hWalk, hFound⟩
  obtain ⟨item, before, hRead, hHolds, hTypes⟩ := exists_read_lead hLead hLeadText
  obtain ⟨last, hTake, hLast⟩ := Listing.takeAll_tail found hHolds hReadable hTail
  rw [hTypes] at hLast
  have hEnded : last.IsEnded text.bodyKind := ⟨hLast.kind, hLast.part⟩
  have hDeclared : (Walk.declare found last).HasPorts rows :=
    hRows ▸ hLast.hasPorts hFound hNames hName hValue
  have hSpaces : machine.Leads [space] after (Walk.Rests .moduleBody (Walk.declare found last))
      (Walk.HasPorts .moduleBody rows) :=
    .filler (Token.isBlank_of_space hSpace) (fun walk hWalk =>
      ⟨_, hWalk.filler (fun _ _ => rfl) (Token.isBlank_of_space hSpace), hDeclared⟩) .nil
  have hBack : machine.Leads [semicolon, space] after (Walk.Lists .body ⟨last, found⟩)
      (Walk.HasPorts .moduleBody rows) := by
    refine Walk.Rests.leads_word (isBlank_eq_false hSemicolon (by decide))
      (fun next walk hWalk => ?_) hSpaces
    rw [Walk.read, hWalk.place]
    simp only [ItemList.place, Walk.readDeclaration, hEnded.read_semicolon hSemicolon]
    have hFlushed : (walk.flush last).Rests (.declaration last) (Walk.declare found last) :=
      ⟨hWalk.place, congrArg (Walk.declare · last) hWalk.found, hWalk.label, hWalk.frames⟩
    exact hFlushed.backToBody
  have hAll : machine.Leads (lead :: (tail ++ [semicolon, space])) after
      (Walk.Rests .moduleBody found) (Walk.HasPorts .moduleBody rows) := by
    refine Walk.Rests.leads_word (Listing.isBlank_keyword hLeadText) (fun next walk hWalk => ?_)
      ((Walk.Lists.leads hTake).append hBack)
    rw [hWalk.begins hLead hLeadText, Walk.readDeclaration, hRead]
    exact hWalk.goto _
  exact hAll events walk hReads hWalk

/-- The declarations of a body add what they say, one after the other. -/
theorem leads_body (hBody : ∀ item ∈ body, item.isDeclaration = true ∧ item.name ∈ names)
    (hNames : names.Nodup) (hTokens : tokens.map (·.text) = body.flatMap (·.pieces ++ [";", " "])) :
    machine.Leads tokens after (Walk.HasPorts .moduleBody (rowsOf names declared))
      (Walk.HasPorts .moduleBody (rowsOf names fun name =>
        (body.filter (·.name == name)).foldl Declared.add (declared name))) := by
  induction body generalizing tokens declared with
  | nil =>
      obtain rfl : tokens = [] := by simpa using hTokens
      exact .nil
  | cons item body ih =>
      rw [List.forall_mem_cons] at hBody
      rw [List.flatMap_cons, List.map_eq_append_iff] at hTokens
      obtain ⟨front, back, rfl, hFront, hBack⟩ := hTokens
      have hState : (fun name =>
          ((item :: body).filter (·.name == name)).foldl Declared.add (declared name)) =
          fun name => (body.filter (·.name == name)).foldl Declared.add
            (Function.update declared item.name ((declared item.name).add item) name) := by
        funext name
        by_cases hName : item.name = name
        · subst hName
          rw [List.filter_cons_of_pos (by simp), List.foldl_cons, Function.update_self]
        · rw [List.filter_cons_of_neg (by simpa using hName), Function.update_of_ne (Ne.symm hName)]
      rw [hState]
      exact (leads_declaration hBody.1.1 hNames hBody.1.2 hFront).append (ih hBody.2 hBack)

/-- The text between the parentheses of a header gives ports with the rows. -/
def GivesPorts (header : List String) (rows : List (List String)) : Prop :=
  ∀ (tokens : List Token) (found : Findings), tokens.map (·.text) = header → found.IsSettled →
    ∃ (last : Listing) (ports : List Row),
      Listing.takeAll ⟨{ kind := .port }, found⟩ tokens = some last ∧ last.item.IsEnded .port ∧
        ports.map Row.texts = rows ∧ last.recorded = found.addRows .port ports

/-- The parenthesis and the semicolon at the end of a header lead into the body. -/
theorem leads_headerEnd {last : Listing} {rows : List (List String)}
    (hEnded : last.item.IsEnded .port) (hFound : last.recorded.HasPorts rows)
    (hTokens : tokens.map (·.text) = [")", ";", " "]) :
    machine.Leads tokens after (Walk.Lists (.ports .module) last)
      (Walk.HasPorts .moduleBody rows) := by
  simp only [List.map_eq_cons_iff, List.map_eq_nil_iff] at hTokens
  obtain ⟨closer, _, rfl, hClose, semicolon, _, rfl, hSemicolon, space, _, rfl, hSpace, rfl⟩ :=
    hTokens
  have hBlank := Token.isBlank_of_space hSpace
  have hBehind : machine.Leads [space] after (Walk.Rests .moduleBody last.recorded)
      (Walk.HasPorts .moduleBody rows) :=
    .filler hBlank (fun walk hWalk => ⟨_, hWalk.filler (fun _ _ => rfl) hBlank, hFound⟩) .nil
  have hEnd : machine.Leads [semicolon, space] after
      (Walk.Rests (.moduleHeader false) last.recorded)
      (Walk.HasPorts .moduleBody rows) := by
    refine Walk.Rests.leads_word (isBlank_eq_false hSemicolon (by decide))
      (fun next walk hWalk => ?_) hBehind
    have hHere : (Lexeme.ofToken semicolon).symbol = .semicolon := Lexeme.symbol_ofToken hSemicolon
    rw [Walk.read, hWalk.place]
    simp only [Walk.readModuleHeader, hHere]
    have hReset : Walk.Rests (.moduleHeader false) last.recorded { walk with blocks := 0 } :=
      ⟨hWalk.place, hWalk.found, hWalk.label, hWalk.frames⟩
    exact hReset.backToBody
  refine Walk.Rests.leads_word (isBlank_eq_false hClose (by decide))
    (fun next walk hWalk => ?_) hEnd
  rw [Walk.read, hWalk.place]
  simp only [ItemList.place, Walk.readPorts, hEnded.read_close rfl hClose]
  exact ⟨rfl, congrArg (Walk.declare · last.item) hWalk.found, hWalk.label, hWalk.frames⟩

/-- The header of a module is taken up to the semicolon at its end. -/
theorem leads_header {name : String} {header : List String} {rows : List (List String)}
    (hName : Symbol.ofText name = .name) (hHeader : GivesPorts header rows)
    (hTokens : tokens.map (·.text) = ["module", " ", name] ++ "(" :: (header ++ [")", ";", " "])) :
    machine.Leads tokens after (Walk.Rests .moduleContext {}) (Walk.HasPorts .moduleBody rows) := by
  generalize hTexts : [")", ";", " "] = texts at hTokens
  simp only [List.cons_append, List.nil_append, List.map_eq_cons_iff,
    List.map_eq_append_iff] at hTokens
  obtain ⟨module, _, rfl, hModule, space, _, rfl, hSpace, nameToken, _, rfl, hNameText, opener,
    _, rfl, hOpen, list, ending, rfl, hList, hEnding⟩ := hTokens
  rw [← hTexts] at hEnding
  let named : Findings := { modules := ⟨#[(Lexeme.ofToken nameToken).word]⟩ }
  obtain ⟨last, ports, hTake, hEnded, hRows, hRecorded⟩ := hHeader list named hList ⟨rfl, rfl⟩
  have hFound : last.recorded.HasPorts rows := by
    rw [hRecorded, ← hRows]
    exact ⟨by simp [Findings.addRows, named, Declarations.texts], ⟨rfl, rfl⟩, rfl⟩
  have hListed : machine.Leads (opener :: (list ++ ending)) after
      (Walk.Rests (.moduleHeader false) named) (Walk.HasPorts .moduleBody rows) := by
    refine Walk.Rests.leads_word (isBlank_eq_false hOpen (by decide)) (fun next walk hWalk => ?_)
      ((Walk.Lists.leads hTake).append (leads_headerEnd hEnded hFound hEnding))
    have hHere : (Lexeme.ofToken opener).symbol = .parenOpen := Lexeme.symbol_ofToken hOpen
    rw [Walk.read, hWalk.place]
    simp only [Walk.readModuleHeader, hHere]
    exact hWalk.goto _
  have hNamed : machine.Leads (nameToken :: opener :: (list ++ ending)) after
      (Walk.Rests .moduleName {}) (Walk.HasPorts .moduleBody rows) := by
    have hBlank : nameToken.isBlank = false :=
      isBlank_of_isNameLike (hNameText ▸ isNameLike_of_ofText hName)
    refine Walk.Rests.leads_word hBlank (fun next walk hWalk => ?_) hListed
    have hHere : (Lexeme.ofToken nameToken).symbol = .name :=
      (Lexeme.symbol_ofToken hNameText).trans hName
    rw [Walk.read, hWalk.place]
    simp only [Walk.readModuleName, hHere]
    let push (found : Findings) : Findings :=
      { found with modules := found.modules.push (Lexeme.ofToken nameToken).word }
    exact ⟨rfl, congrArg push hWalk.found, hWalk.label, hWalk.frames⟩
  refine Walk.Rests.leads_word (isBlank_eq_false hModule (by decide)) (fun next walk hWalk => ?_)
    (Walk.Rests.leads_filler (fun _ _ => rfl) (Token.isBlank_of_space hSpace) hNamed)
  have hHere : (Lexeme.ofToken module).symbol = .keyword .module :=
    Lexeme.symbol_keyword .module hModule
  rw [Walk.read, hWalk.place]
  simp only [Walk.readContext, hHere]
  exact hWalk.goto _

/-- The end of a module leads out of its body. -/
theorem leads_moduleEnd {rows : List (List String)}
    (hTokens : tokens.map (·.text) = ["endmodule"]) :
    machine.Leads tokens after (Walk.HasPorts .moduleBody rows)
      (Walk.HasPorts .moduleContext rows) := by
  obtain ⟨token, rfl, hText⟩ := List.map_eq_singleton_iff.1 hTokens
  rintro events walk hReads ⟨found, hWalk, hFound⟩
  have hHere : (Lexeme.ofToken token).symbol = .keyword .endmodule :=
    Lexeme.symbol_keyword .endmodule hText
  have hEnd : machine.Leads [token] after (Walk.Rests .moduleBody found)
      (Walk.Rests .moduleContext found) := by
    refine Walk.Rests.leads_word (isBlank_eq_false hText (by decide))
      (fun next walk hWalk => ?_) .nil
    have hNone : walk.awaitsChoice = false := by rw [Walk.awaitsChoice, hWalk.frames]
    rw [Walk.read, hWalk.place]
    simp only [Walk.readItem, hNone, Bool.false_and, hHere]
    exact ⟨rfl, hWalk.found, hWalk.label, rfl⟩
  exact ⟨found, hEnd events walk hReads hWalk, hFound⟩

/-- A body that is written in pieces changes the rows of the ports that are found. -/
def BodyLeads (body : List (List String)) (rows rows' : List (List String)) : Prop :=
  ∀ (tokens : List Token) (after : Option Token),
    tokens.map (·.text) = body.flatMap (· ++ [";", " "]) →
      machine.Leads tokens after (Walk.HasPorts .moduleBody rows) (Walk.HasPorts .moduleBody rows')

/-- A module is taken as a whole. -/
theorem leads_module {name : String} {header body : List (List String)}
    {rows rows' : List (List String)} (hName : Symbol.ofText name = .name)
    (hHeader : GivesPorts (List.intercalate [",", " "] header) rows)
    (hBody : BodyLeads body rows rows')
    (hTokens : tokens.map (·.text) = modulePieces name header body) :
    machine.Leads tokens after (Walk.Rests .moduleContext {})
      (Walk.HasPorts .moduleContext rows') := by
  have hPieces : modulePieces name header body =
      (["module", " ", name] ++ "(" :: (List.intercalate [",", " "] header ++ [")", ";", " "])) ++
        (body.flatMap (· ++ [";", " "]) ++ ["endmodule"]) := by
    simp [modulePieces]
  rw [hPieces, List.map_eq_append_iff] at hTokens
  obtain ⟨front, _, rfl, hFront, hTokens⟩ := hTokens
  obtain ⟨middle, back, rfl, hMiddle, hBack⟩ := List.map_eq_append_iff.1 hTokens
  exact (leads_header hName hHeader hFront).append
    ((hBody middle _ hMiddle).append (leads_moduleEnd hBack))

/-- The ports of a text that holds nothing but a module. -/
theorem scan_module {name : String} {header body : List (List String)}
    {rows rows' : List (List String)} (hName : Symbol.ofText name = .name)
    (hLexeme : isLexeme name = true) (hHeaderPieces : ∀ pieces ∈ header, IsWritten pieces)
    (hBodyPieces : ∀ pieces ∈ body, IsWritten pieces)
    (hHeader : GivesPorts (List.intercalate [",", " "] header) rows)
    (hBody : BodyLeads body rows rows') :
    let table := (scan .moduleContext none
      (moduleText name (header.map String.join) (body.map String.join))).table
    table.ports.texts = rows' ∧ table.ports.pending = #[] ∧ table.objects = {} ∧
    table.diagnostics = [] := by
  obtain ⟨last, ⟨found, hWalk, hFound⟩, hTable, hDiagnostics⟩ := scan_of_isLexed .moduleContext
    (isLexed_modulePieces hLexeme hHeaderPieces hBodyPieces)
    (isPlainText_modulePieces (isPlainText_of_isLexeme hLexeme) hHeaderPieces hBodyPieces)
    (fun tokens hTokens => leads_module hName hHeader hBody hTokens) ⟨rfl, rfl, rfl, rfl⟩
    (by rintro walk ⟨found, hWalk, -⟩; exact hWalk.frames)
  rw [Walk.flushAt_context hWalk.place, Walk.finish_context hWalk.place, hWalk.found,
    join_modulePieces] at hTable
  rw [join_modulePieces] at hDiagnostics
  exact ⟨(congrArg (·.ports.texts) hTable).trans hFound.texts,
    (congrArg (·.ports.pending) hTable).trans hFound.settled.ports,
    (congrArg (·.objects) hTable).trans hFound.objects, hDiagnostics⟩

/-- A declaration that begins with a direction adds its own attributes to those that are empty. -/
theorem Declared.add_port (declared : Declared) (text : ItemText)
    (hLead : directions.contains text.lead = true) :
    declared.add text =
      ⟨unlessEmpty text.lead.text declared.mode, (typeText? text.types).getD declared.type,
      unlessEmpty (collected text.rangeWords) declared.range⟩ := by
  rw [add, ItemText.declaredMode, ItemText.declaredTypes, if_pos hLead, if_pos hLead]

/-- A declaration that begins with a type gives no direction. -/
theorem Declared.add_net (declared : Declared) (text : ItemText)
    (hLead : isDataType text.lead = true) :
    declared.add text = ⟨declared.mode, " ".intercalate ((text.lead :: text.types).map (·.text)),
      unlessEmpty (collected text.rangeWords) declared.range⟩ := by
  have hOther : ¬ directions.contains text.lead = true := by
    rw [List.contains_iff_mem]
    exact fun hMem => isDataType_ne hLead (List.mem_cons_of_mem _ (List.mem_cons_of_mem _ hMem))
  rw [add, ItemText.declaredMode, ItemText.declaredTypes, if_neg hOther, if_neg hOther]
  rfl

/-- All declarations of a port together say what its declaration in the header says. -/
theorem foldl_add_declarations {items : List ItemText} (hPlain : port.isPlain = true)
    (hPort : port.isPort = true) (hItems : items ∈ port.declarations) :
    (items.foldl Declared.add {}).row port.name = port.collectedRow := by
  simp only [ItemText.isPort, Bool.and_eq_true, Option.isNone_iff_eq_none] at hPort
  obtain ⟨hLead, hValue⟩ := hPort
  have hMode : port.mode = port.lead.text := by
    rw [ItemText.mode, if_neg]
    rintro hParameter
    rw [hParameter] at hLead
    exact absurd hLead (by decide)
  have hNone : collected (led (port.value.getD [])) = "" := by rw [hValue]; rfl
  have hWhole : (Declared.add {} port).row port.name = port.collectedRow := by
    rw [Declared.add_port {} port hLead, ItemText.collectedRow, hMode, hNone, Declared.row,
      getD_typeText?, unlessEmpty_empty, unlessEmpty_empty]
    rfl
  unfold ItemText.declarations at hItems
  split at hItems
  · obtain rfl := List.mem_singleton.1 hItems
    exact hWhole
  · next type types hTypes =>
    simp only [List.mem_cons, List.not_mem_nil, or_false] at hItems
    rcases hItems with rfl | rfl
    · exact hWhole
    · have hType : isDataType type = true := by
        simp only [ItemText.isPlain, ItemText.isReadable, hTypes, List.all_cons,
          Bool.and_eq_true] at hPlain
        exact hPlain.1.1.1.1.1.1.1.1
      have hHead : Declared.add {} port.untyped =
          ⟨port.lead.text, "", collected port.rangeWords⟩ := by
        rw [Declared.add_port {} port.untyped hLead, unlessEmpty_empty, unlessEmpty_empty]
        rfl
      have hBoth : (Declared.add {} port.untyped).add (port.typed type types) =
          ⟨port.lead.text, port.typeText, collected port.rangeWords⟩ := by
        rw [hHead, Declared.add_net _ (port.typed type types) hType, ItemText.typeText, hTypes]
        exact congrArg (Declared.mk _ _) (unlessEmpty_self _)
      rw [List.foldl_cons, List.foldl_cons, List.foldl_nil, hBoth, ItemText.collectedRow,
        hMode, hNone]
      rfl

/-- Each declaration of a body belongs to a port. -/
theorem DeclaresPorts.isDeclaration (h : DeclaresPorts ports body)
    (hPorts : ∀ port ∈ ports, port.isPlain = true ∧ port.isPort = true) :
    ∀ item ∈ body, item.isDeclaration = true ∧ item.name ∈ ports.map (·.name) := by
  intro item hItem
  have hName := h.only item hItem
  refine ⟨?_, hName⟩
  obtain ⟨port, hPort, hSame⟩ := List.mem_map.1 hName
  have hMem : item ∈ body.filter (·.name == port.name) := List.mem_filter.2 ⟨hItem, by simp [hSame]⟩
  exact isDeclaration_of_mem (hPorts port hPort).1 (hPorts port hPort).2 (h.each port hPort) hMem

/-- Declared ports give their rows. -/
theorem givesPorts_pieces (hPorts : ∀ port ∈ ports, port.isPlain = true ∧ port.isPort = true) :
    GivesPorts (List.intercalate [",", " "] (ports.map (·.pieces)))
      (ports.map (·.collectedRow)) := by
  intro tokens found hTokens hSettled
  refine Listing.takeAll_items (fun port hMem => ⟨?_, (hPorts port hMem).2⟩)
    (⟨rfl, rfl, rfl, rfl, rfl⟩ : Item.IsReady .port { kind := .port }) nofun hSettled hTokens
  have hPlain := (hPorts port hMem).1
  simp only [ItemText.isPlain, Bool.and_eq_true] at hPlain
  exact hPlain.1.1.1

/-- Names without declarations give empty rows. -/
theorem givesPorts_names (hPorts : ∀ port ∈ ports, port.isPlain = true ∧ port.isPort = true) :
    GivesPorts (List.intercalate [",", " "] (ports.map ([·.name])))
      (rowsOf (ports.map (·.name)) fun _ => {}) := by
  intro tokens found hTokens hSettled
  have hNames : ∀ name ∈ ports.map (·.name), Symbol.ofText name = .name ∧ name ≠ "ref" := by
    rw [List.forall_mem_map]
    intro port hMem
    have hPlain := (hPorts port hMem).1
    simp only [ItemText.isPlain, ItemText.isReadable, Bool.and_eq_true, beq_iff_eq,
      bne_iff_ne] at hPlain
    exact ⟨hPlain.1.1.1.1.1.2, hPlain.1.1.1.1.1.1.2⟩
  refine Listing.takeAll_names hNames
    (⟨rfl, rfl, rfl, rfl, rfl, rfl, rfl, rfl⟩ : Item.Holds .port "" [] ""
    { kind := .port }) hSettled ?_
  rw [hTokens, List.map_map]
  rfl

/-- Both ways to write the header of a module give the same ports, in whatever order the body
declares them, and whether it declares one at once or in two steps. -/
theorem scan_headers (name : String) (ports body : List ItemText)
    (hName : Symbol.ofText name = .name) (hLexeme : isLexeme name = true)
    (hPorts : ∀ port ∈ ports, port.isPlain = true ∧ port.isPort = true)
    (hDistinct : (ports.map (·.name)).Nodup) (hBody : DeclaresPorts ports body) :
    let ansi := (scan .moduleContext none (ansiText name ports)).table
    let nonAnsi := (scan .moduleContext none (nonAnsiText name ports body)).table
    (ansi.ports.texts = ports.map (·.collectedRow) ∧ ansi.ports.pending = #[] ∧ ansi.objects = {} ∧
      ansi.diagnostics = []) ∧
    (nonAnsi.ports.texts = ansi.ports.texts ∧ nonAnsi.ports.pending = #[] ∧ nonAnsi.objects = {} ∧
      nonAnsi.diagnostics = []) := by
  intro ansi nonAnsi
  have hPieces : ∀ pieces ∈ ports.map (·.pieces), IsWritten pieces := by
    rw [List.forall_mem_map]
    exact fun port hMem => ItemText.isWritten (hPorts port hMem).1
  have hNamePieces : ∀ pieces ∈ ports.map ([·.name]), IsWritten pieces := by
    rw [List.forall_mem_map]
    intro port hMem
    have hPlain := (hPorts port hMem).1
    simp only [ItemText.isPlain, ItemText.outerWords, List.all_cons, Bool.and_eq_true] at hPlain
    have hWord := hPlain.1.2.2.1
    exact ⟨isLexed_of_isLexeme hWord, ⟨_, rfl, isSolid_of_isLexeme hWord⟩,
      List.forall_mem_singleton.2 (isPlainText_of_isLexeme hWord)⟩
  have hItems := hBody.isDeclaration hPorts
  have hBodyPieces : ∀ pieces ∈ body.map (·.pieces), IsWritten pieces := by
    rw [List.forall_mem_map]
    exact fun item hMem => ItemText.isWritten (Bool.and_eq_true_iff.1 (hItems item hMem).1).1
  have hEmpty : BodyLeads [] (ports.map (·.collectedRow)) (ports.map (·.collectedRow)) := by
    intro tokens after hTokens
    obtain rfl := List.map_eq_nil_iff.1 hTokens
    exact .nil
  have hDeclared : BodyLeads (body.map (·.pieces)) (rowsOf (ports.map (·.name)) fun _ => {})
      (ports.map (·.collectedRow)) := by
    intro tokens after hTokens
    have hRows : ports.map (·.collectedRow) = rowsOf (ports.map (·.name)) fun name =>
        (body.filter (·.name == name)).foldl Declared.add {} := by
      rw [rowsOf, List.map_map]
      exact List.map_congr_left fun port hMem =>
        (foldl_add_declarations (hPorts port hMem).1 (hPorts port hMem).2
          (hBody.each port hMem)).symm
    rw [hRows]
    exact leads_body hItems hDistinct (hTokens.trans (List.flatMap_map ..))
  have hAnsi :=
    scan_module hName hLexeme hPieces (List.forall_mem_nil _) (givesPorts_pieces hPorts) hEmpty
  have hNonAnsi :=
    scan_module hName hLexeme hNamePieces hBodyPieces (givesPorts_names hPorts) hDeclared
  have hNames : (ports.map ([·.name])).map String.join = ports.map (·.name) := by
    rw [List.map_map]
    exact List.map_congr_left fun port _ => by simp
  rw [List.map_map] at hAnsi
  rw [hNames, List.map_map] at hNonAnsi
  exact ⟨hAnsi, hNonAnsi.1.trans hAnsi.1.symm, hNonAnsi.2⟩

/-- A port is declared at once or in two steps, and in another order than the header names them. -/
theorem scan_headers_split :
    let ports : List ItemText :=
      [⟨.input, [.logic, .signed], some ["7", ":", "0"], "a", none⟩,
        ⟨.output, [.reg], none, "b", none⟩,
        ⟨.inout, [], some [" ", "W", "-", "1", ":", "0"], "c", none⟩]
    let body : List ItemText :=
      [⟨.inout, [], some [" ", "W", "-", "1", ":", "0"], "c", none⟩, ⟨.output, [], none, "b", none⟩,
        ⟨.input, [.logic, .signed], some ["7", ":", "0"], "a", none⟩, ⟨.reg, [], none, "b", none⟩]
    ansiText "m" ports =
        "module m(input logic signed [7:0] a, output reg b, inout [ W-1:0] c); endmodule" ∧
      nonAnsiText "m" ports body =
        "module m(a, b, c); inout [ W-1:0] c; output b; input logic signed [7:0] a; reg b; endmodule" ∧
      (scan .moduleContext none (nonAnsiText "m" ports body)).table.ports.texts =
        [["a", "input", "logic signed", "[7:0]", ""], ["b", "output", "reg", "", ""],
          ["c", "inout", "", "[ W-1:0]", ""]] := by
  intro ports body
  have hBody : DeclaresPorts ports body := ⟨by decide +kernel, by decide +kernel⟩
  obtain ⟨hAnsi, hNonAnsi⟩ := scan_headers "m" ports body (by decide +kernel) (by decide +kernel)
    (by decide +kernel) (by decide +kernel) hBody
  refine ⟨by decide +kernel, by decide +kernel, ?_⟩
  rw [hNonAnsi.1, hAnsi.1]
  decide +kernel

end Verilog

end Declaring

end HdlIndex

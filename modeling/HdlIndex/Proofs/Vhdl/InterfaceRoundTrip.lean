import HdlIndex.Proofs.Aligned
import HdlIndex.Proofs.Symbols.Gained
import HdlIndex.Proofs.Vhdl.ElementReading

/-! Written interface lists are read back. A text that holds nothing but a list of ports or generics
gives one row for each declared name, in order, with the attributes that were written. -/
namespace HdlIndex.Vhdl

/-- The rows that an element stands for, one for each name. -/
def InterfaceElement.rows (defaultMode : String) (element : InterfaceElement) :
    List (List String) :=
  element.names.map fun name => [name, element.mode.getD defaultMode, element.type,
    (element.constraint.map (·.text)).getD "", (element.init.map String.join).getD ""]

variable {kind : ListKind} {element : Element} {written : InterfaceElement}
  {elements : List InterfaceElement} {list : Declarations} {words : List Word} {type : Word}
  {token : Token} {tokens : List Token}

/-- An element that ends with the parts of a written one completes to rows with the texts of that
element, one for each of its names. -/
theorem Element.Ends.texts_complete (written : InterfaceElement) (kind : ListKind)
    (hGiven : ∀ mode ∈ written.mode, mode ∈ modeTexts)
    (h : element.Ends (written.mode.getD "") type ((written.constraint.map (·.text)).getD "")
      ((written.init.map String.join).getD ""))
    (hWords : words.map (·.text) = written.names) (hType : type.text = written.type)
    (hPending : list.pending = words.toArray) :
    (element.complete kind.defaultMode list).texts =
      list.texts ++ written.rows kind.defaultMode := by
  have hMode : (if element.mode.isEmpty then kind.defaultMode else element.mode) =
      written.mode.getD kind.defaultMode := by
    rw [h.mode]
    cases hWritten : written.mode with
    | none => rfl
    | some mode =>
        have hMem := hGiven mode hWritten
        fin_cases hMem <;> rfl
  rw [Element.complete, hMode, h.type, h.range, h.value]
  simp [Declarations.complete, Declarations.texts, hPending, InterfaceElement.rows, ← hWords,
    Declarations.completed, Row.texts, hType]

/-- The pieces of elements that others follow. -/
def leadingPieces (elements : List InterfaceElement) : List String :=
  elements.flatMap (·.pieces ++ [";", " "])

/-- The pieces of elements that follow others. -/
def trailingPieces (elements : List InterfaceElement) : List String :=
  elements.flatMap fun element => ";" :: " " :: element.pieces

theorem trailingPieces_cons (element : InterfaceElement) (elements : List InterfaceElement) :
    trailingPieces (element :: elements) = ";" :: " " :: interfacePieces (element :: elements) := by
  induction elements generalizing element with
  | nil => simp [trailingPieces, interfacePieces]
  | cons next elements ih =>
      have hRest := ih next
      rw [trailingPieces, List.flatMap_cons, ← trailingPieces, hRest]
      simp [interfacePieces, List.intercalate_cons_cons]

theorem interfacePieces_cons (element : InterfaceElement) (elements : List InterfaceElement) :
    interfacePieces (element :: elements) = element.pieces ++ trailingPieces elements := by
  have hAll := trailingPieces_cons element elements
  rw [trailingPieces, List.flatMap_cons, ← trailingPieces] at hAll
  simpa using hAll.symm

/-- An element of a list stands between what leads to it and what follows. -/
theorem interfacePieces_append (leading following : List InterfaceElement)
    (element : InterfaceElement) :
    interfacePieces (leading ++ element :: following) =
      leadingPieces leading ++ (element.pieces ++ trailingPieces following) := by
  induction leading with
  | nil => exact interfacePieces_cons element following
  | cons first leading ih =>
      have hBehind : trailingPieces (leading ++ element :: following) =
          ";" :: " " :: interfacePieces (leading ++ element :: following) := by
        cases leading <;> exact trailingPieces_cons ..
      rw [List.cons_append, interfacePieces_cons, hBehind, ih]
      simp [leadingPieces]

namespace Filling

/-- A semicolon ends an element, and the next one begins. -/
theorem take_semicolon {mode range value : String} (h : element.Ends mode type range value)
    (hText : token.text = ";") :
    take kind ⟨element, list⟩ token =
      some ⟨{}, element.complete kind.defaultMode list⟩ := by
  have hBlank := isBlank_eq_false hText (by decide)
  have hHere : (Lexeme.ofToken token).symbol = .semicolon := Lexeme.symbol_ofToken hText
  have hRead : element.read true (.ofToken token) = .done := by
    rcases h.part with hPart | hPart | hPart <;>
      simp [Element.read, hPart, Element.readSettled, Element.readRange, Element.readValue, hHere]
  rw [take, hBlank, hRead]
  rfl

/-- Elements with a semicolon behind each of them give their rows. -/
theorem takeAll_leading (kind : ListKind) (h : ∀ element ∈ elements, element.IsWellFormed)
    (hTokens : tokens.map (·.text) = leadingPieces elements) (list : Declarations)
    (hPending : list.pending = #[]) :
    ∃ rows : Declarations, takeAll kind ⟨{}, list⟩ tokens = some ⟨{}, rows⟩ ∧ rows.pending = #[] ∧
      rows.texts = list.texts ++ elements.flatMap (·.rows kind.defaultMode) := by
  induction elements generalizing tokens list with
  | nil =>
      obtain rfl : tokens = [] := by simpa [leadingPieces] using hTokens
      exact ⟨list, rfl, hPending, by simp⟩
  | cons written elements ih =>
      rw [List.forall_mem_cons] at h
      simp only [leadingPieces, List.flatMap_cons, List.append_assoc, List.cons_append,
        List.nil_append, List.map_eq_append_iff, List.map_eq_cons_iff] at hTokens
      obtain ⟨first, _, rfl, hFirst, semicolon, _, rfl, hSemicolon, space, rest, rfl, hSpace,
        hRest⟩ := hTokens
      obtain ⟨words, type, element, hWords, hType, hEnds, hTake⟩ :=
        takeAll_element kind list h.1 hFirst
      let waiting : Declarations := { list with pending := list.pending ++ words.toArray }
      have hWaiting : waiting.pending = words.toArray := by simp [waiting, hPending]
      obtain ⟨rows, hRows, hNone, hTexts⟩ :=
        ih h.2 hRest (element.complete kind.defaultMode waiting) rfl
      refine ⟨rows, ?_, hNone, ?_⟩
      · rw [takeAll_append hTake, takeAll_cons (take_semicolon hEnds hSemicolon),
          takeAll_cons (take_gap rfl hSpace), hRows]
      · rw [hTexts, hEnds.texts_complete _ kind h.1.mode hWords hType hWaiting, List.flatMap_cons,
            List.append_assoc]
        rfl

/-- The tokens of a written list give its rows, once the last element is completed too. -/
theorem takeAll_interface (kind : ListKind) (h : ∀ element ∈ elements, element.IsWellFormed)
    (hTokens : tokens.map (·.text) = interfacePieces elements) (list : Declarations)
    (hPending : list.pending = #[]) :
    ∃ filling, takeAll kind ⟨{}, list⟩ tokens = some filling ∧
      (filling.element = {} ∨ ∃ mode type range value, filling.element.Ends mode type range value) ∧
      (filling.element.complete kind.defaultMode filling.list).texts =
        list.texts ++ elements.flatMap (·.rows kind.defaultMode) := by
  obtain rfl | ⟨leading, written, rfl⟩ := List.eq_nil_or_concat' elements
  · obtain rfl : tokens = [] := by simpa [interfacePieces] using hTokens
    refine ⟨⟨{}, list⟩, rfl, .inl rfl, ?_⟩
    simp [Element.complete, Declarations.complete, Declarations.texts, hPending]
  · rw [List.forall_mem_append, List.forall_mem_singleton] at h
    rw [interfacePieces_append, trailingPieces, List.flatMap_nil, List.append_nil,
      List.map_eq_append_iff] at hTokens
    obtain ⟨first, last, rfl, hFirst, hLast⟩ := hTokens
    obtain ⟨rows, hRows, hNone, hTexts⟩ := takeAll_leading kind h.1 hFirst list hPending
    obtain ⟨words, type, element, hWords, hType, hEnds, hTake⟩ :=
      takeAll_element kind rows h.2 hLast
    refine ⟨_, (takeAll_append hRows).trans hTake, .inr ⟨_, _, _, _, hEnds⟩, ?_⟩
    rw [hEnds.texts_complete _ kind h.2.mode hWords hType (by simp [hNone]), List.flatMap_append,
      List.flatMap_singleton, ← List.append_assoc, ← hTexts]
    rfl

end Filling

/-- The tokens of a written list are its pieces. -/
theorem tokens_interfaceText (h : ∀ element ∈ elements, element.fold.IsWellFormed) :
    (Vhdl.tokens none (interfaceText elements)).scanned = (interfaceText elements).utf8ByteSize ∧
    ((Vhdl.tokens none (interfaceText elements)).list.filter (! ·.isEmpty)).map (·.text) =
      interfacePieces (elements.map (·.fold)) := by
  have hWritten : IsWritten (interfacePieces (elements.map (·.fold))) :=
    isWritten_interfacePieces (List.forall_mem_map.2 h)
  have hLexes := hWritten.lexes
  rw [join_interfacePieces, interfaceText_fold] at hLexes
  obtain ⟨hScanned, hList⟩ := hLexes.tokenize false
  rw [Text.utf8ByteSize_foldCase] at hScanned
  refine ⟨hScanned, ?_⟩
  rw [Vhdl.tokens, hList]
  simp [Token.text_row]

/-- Nothing in a written list opens a comment or is quoted. -/
theorem isPlain_interfaceText (h : ∀ element ∈ elements, element.fold.IsWellFormed) :
    ∀ token ∈ (Vhdl.tokens none (interfaceText elements)).list, IsPlain token := by
  intro token hMem
  cases hEmpty : token.isEmpty with
  | true =>
      have hText : token.text = "" := String.isEmpty_iff.1 hEmpty
      simp [IsPlain, hText]
  | false =>
      have hPiece : token.text ∈ interfacePieces (elements.map (·.fold)) := by
        rw [← (tokens_interfaceText h).2]
        exact List.mem_map_of_mem (List.mem_filter.2 ⟨hMem, by simp [hEmpty]⟩)
      have hWritten : IsWritten (interfacePieces (elements.map (·.fold))) :=
        isWritten_interfacePieces (List.forall_mem_map.2 h)
      exact (hWritten.valid _ hPiece).plain

/-- A text that holds nothing but a written list is read as its elements. No parenthesis closes the
list, so that the end of the text completes the last element. -/
theorem scan_interface {region : Region} {list : InterfaceList}
    (hStart : (Walk.start region).Fills list {} {}) (hOwner : list.owner = .text)
    (h : ∀ element ∈ elements, element.fold.IsWellFormed) :
    ∃ rows : Declarations,
      rows.texts = elements.flatMap (·.fold.rows list.kind.defaultMode) ∧ rows.pending = #[] ∧
      (scan region none (interfaceText elements)).table.toFindings = (if list.kind = .generics
        then { Findings.modifyList {} list.kind (fun _ => rows) with
          genericClause := some ⟨list.inside, (interfaceText elements).utf8ByteSize⟩ }
        else Findings.modifyList {} list.kind fun _ => rows) ∧
      (scan region none (interfaceText elements)).table.diagnostics = [] := by
  obtain ⟨hScanned, hPieces⟩ := tokens_interfaceText h
  obtain ⟨filling, hTake, -, hTexts⟩ :=
    Filling.takeAll_interface list.kind (List.forall_mem_map.2 h) hPieces {} rfl
  have hFills := hStart.run
    (readEvents_ofPlain (interfaceText elements).utf8ByteSize (isPlain_interfaceText h)) hTake
  rw [List.flatMap_map] at hTexts
  refine ⟨_, hTexts, rfl, ?_, ?_⟩
  · refine (settled_walkThrough region _ _).align_eq_self.trans ?_
    rw [walkThrough, hFills.finish hOwner, Walk.found_closeList, hFills.found_completeElement]
  · show diagnose _ _ _ = []
    rw [diagnose_walkThrough, hFills.generates, hScanned]
    simp

/-- Reading undoes writing: a written list of ports or of generics gives one row for each name, in
order, with the attributes of its element. The values are in lower case, as all of the table; the
generic definition is the text as it was written. -/
theorem scan_interfaceText (elements : List InterfaceElement)
    (h : ∀ element ∈ elements, element.fold.IsWellFormed) :
    let text := interfaceText elements
    let ports := (scan .portList none text).table
    let generics := (scan .genericList none text).table
    (ports.ports.texts = elements.flatMap (·.fold.rows "in") ∧ ports.ports.pending = #[] ∧
      ports.diagnostics = []) ∧
    (generics.generics.texts = elements.flatMap (·.fold.rows "") ∧
      generics.generics.pending = #[] ∧ generics.diagnostics = [] ∧
      generics.genericDefinition = text) := by
  intro text ports generics
  constructor
  · have hStart : (Walk.start .portList).Fills ⟨.ports, .text, 0⟩ {} {} := ⟨rfl, rfl, rfl⟩
    obtain ⟨rows, hTexts, hPending, hFound, hDiagnostics⟩ := scan_interface hStart rfl h
    have hPorts : ports.ports = rows := congrArg Findings.ports hFound
    rw [hPorts]
    exact ⟨hTexts, hPending, hDiagnostics⟩
  · have hStart : (Walk.start .genericList).Fills ⟨.generics, .text, 0⟩ {} {} := ⟨rfl, rfl, rfl⟩
    obtain ⟨rows, hTexts, hPending, hFound, hDiagnostics⟩ := scan_interface hStart rfl h
    have hGenerics : generics.generics = rows := congrArg Findings.generics hFound
    have hClause : generics.genericClause = some ⟨0, text.utf8ByteSize⟩ :=
      congrArg Findings.genericClause hFound
    have hAll : (⟨0, text.utf8ByteSize⟩ : Span).Covers text text := ⟨[], [], by simp, by simp⟩
    have hDefinition : generics.genericDefinition =
        (generics.genericClause.map (·.slice text)).getD "" := rfl
    rw [hGenerics, hDefinition, hClause, Option.map_some, hAll.slice_eq]
    exact ⟨hTexts, hPending, hDiagnostics, rfl⟩

/-- Two names share a mode, a constraint and a value; the last element has none of them. -/
theorem scan_interfaceText_shared :
    let elements : List InterfaceElement :=
      [⟨["a", "B"], some "inout", "integer", some (.range [" ", "0", " ", "to", " ", "f", "(", "1",
          ",", "(", "2", ")", ")"]), some ["2", " ", "**", " ", "N"]⟩,
        ⟨["c"], some "out", "bit_vector", some (.group ["3", " ", "downto", " ", "0"]), none⟩,
        ⟨["d"], none, "bit", none, none⟩]
    interfaceText elements = "a, B : inout integer range 0 to f(1,(2)) := 2 ** N; " ++
        "c : out bit_vector (3 downto 0); d : bit" ∧
      (scan .portList none (interfaceText elements)).table.ports.texts =
        [["a", "inout", "integer", "range 0 to f(1,(2))", "2 ** n"],
          ["b", "inout", "integer", "range 0 to f(1,(2))", "2 ** n"],
          ["c", "out", "bit_vector", "(3 downto 0)", ""], ["d", "in", "bit", "", ""]] := by
  intro elements
  have hRows : elements.flatMap (·.fold.rows "in") =
      [["a", "inout", "integer", "range 0 to f(1,(2))", "2 ** n"],
        ["b", "inout", "integer", "range 0 to f(1,(2))", "2 ** n"],
        ["c", "out", "bit_vector", "(3 downto 0)", ""], ["d", "in", "bit", "", ""]] := by
    decide +kernel
  have hElements : ∀ element ∈ elements, element.fold.IsWellFormed := by decide +kernel
  refine ⟨by decide +kernel, ?_⟩
  rw [(scan_interfaceText elements hElements).1.1, hRows]

end HdlIndex.Vhdl

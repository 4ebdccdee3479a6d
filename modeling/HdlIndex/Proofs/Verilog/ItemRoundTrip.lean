import HdlIndex.Proofs.Verilog.EnclosedList
import HdlIndex.Proofs.Verilog.ItemReading

/-! Lists of parameters and ports are recorded row by row. The comma behind an item records its
name; the last one is recorded where the list ends. A text that holds nothing but such a list gives
one row for each item, with the attributes that were written. -/
namespace HdlIndex.Verilog

section Rows

/-- The item can be part of a list of the kind. -/
def ItemText.fits (kind : ItemKind) (text : ItemText) : Bool :=
  match kind with
  | .parameterPort => text.isParameter
  | .port => text.isPort
  | _ => false

/-- The row that is collected from the pieces of an item. -/
def ItemText.collectedRow (text : ItemText) : List String :=
  [text.name, text.mode, text.typeText, collected text.rangeWords,
    collected (led (text.value.getD []))]

/-- Adds rows to the list that items of the kind are recorded in. -/
def Findings.addRows (kind : ItemKind) (rows : List Row) (found : Findings) : Findings :=
  match kind with
  | .port => { found with ports.rows := found.ports.rows ++ rows.toArray }
  | _ => { found with parameters.rows := found.parameters.rows ++ rows.toArray }

/-- No name waits for its attributes. -/
structure Findings.IsSettled (found : Findings) : Prop where
  ports : found.ports.pending = #[]
  parameters : found.parameters.pending = #[]

variable {kind : ItemKind} {item : Item} {found : Findings} {token : Token} {tokens : List Token}
  {text : ItemText} {texts items : List ItemText} {rows others : List Row}

theorem Findings.IsSettled.addRows (h : found.IsSettled) : (found.addRows kind rows).IsSettled := by
  cases kind <;> exact ⟨h.ports, h.parameters⟩

theorem Findings.addRows_nil : found.addRows kind [] = found := by
  cases kind <;> simp [addRows]

theorem Findings.addRows_append :
    (found.addRows kind rows).addRows kind others = found.addRows kind (rows ++ others) := by
  cases kind <;> simp [addRows]

/-- No bracket is open, so that a comma or a closing parenthesis ends the item. -/
structure Item.IsEnded (kind : ItemKind) (item : Item) : Prop where
  kind_eq : item.kind = kind
  part : item.part = .head ∨ item.part = .value 0

/-- The item stands in front of the next name. -/
structure Item.IsNameless (kind : ItemKind) (item : Item) : Prop extends item.IsEnded kind where
  name : item.name = none

/-- Recording the item adds a row with the texts. -/
structure Item.Gives (kind : ItemKind) (texts : List String) (item : Item) : Prop
    extends item.IsEnded kind where
  declare_eq : ∀ found : Findings, found.IsSettled →
    ∃ row : Row, row.texts = texts ∧ Walk.declare found item = found.addRows kind [row]

/-- A declared name gives the row of its attributes. -/
theorem Item.Declares.gives (h : item.Declares kind text.mode text)
    (hFits : text.fits kind = true) : item.Gives kind text.collectedRow where
  kind_eq := h.kind
  part := h.part
  declare_eq := by
    intro found hSettled
    obtain ⟨name, hName, hText⟩ : ∃ name, item.name = some name ∧ name.text = text.name := by
      simpa using h.name
    have hType : (item.type.map (·.text)).getD "" = text.typeText := by
      rw [h.type, getD_typeText?, ItemText.typeText]
    refine ⟨Declarations.completed text.mode item.type item.rangeText item.valueText name, ?_, ?_⟩
    · rw [Declarations.texts_completed, hText, hType, h.range, h.value, ItemText.collectedRow]
    · rw [Walk.declare, hName, h.kind]
      cases kind with
      | parameterPort =>
          have hMode : text.mode = "" := by
            simp only [ItemText.fits, ItemText.isParameter, Bool.and_eq_true, beq_iff_eq] at hFits
            rw [ItemText.mode, if_pos hFits.1]
          dsimp only
          rw [Declarations.pushRow_eq hSettled.parameters, hMode]
          simp [Findings.addRows]
      | port =>
          dsimp only
          rw [Declarations.pushRow_eq hSettled.ports, h.direction]
          simp [Findings.addRows]
      | _ => cases hFits

/-- Behind a name an item is ready for the next one. -/
theorem Item.Declares.isReady {mode : String} (h : item.Declares kind mode text) :
    item.afterName.IsReady kind := ⟨h.kind, rfl, rfl, h.qualifies, rfl⟩

theorem Item.IsReady.isNameless (h : item.IsReady kind) : item.IsNameless kind :=
  ⟨⟨h.kind, .inl h.part⟩, h.name⟩

/-- An item that is complete ends at the comma behind it. -/
theorem Item.IsEnded.read_comma (h : item.IsEnded kind) (hText : token.text = ",") :
    item.read (.ofToken token) = .next := by
  have hHere : (Lexeme.ofToken token).symbol = .comma := Lexeme.symbol_ofToken hText
  rw [Item.read]
  rcases h.part with hPart | hPart
  · rw [hPart]
    simp only [Item.readHead, hHere]
  · rw [hPart]
    simp only [Item.readValue, hHere]
    rfl

/-- The parenthesis of the list ends its last item. -/
theorem Item.IsEnded.read_close (h : item.IsEnded kind) (hKind : kind.isList = true)
    (hText : token.text = ")") : item.read (.ofToken token) = .close := by
  have hHere : (Lexeme.ofToken token).symbol = .parenClose := Lexeme.symbol_ofToken hText
  rw [Item.read]
  rcases h.part with hPart | hPart
  · rw [hPart]
    simp only [Item.readHead, hHere, h.kind_eq, hKind, if_true]
  · rw [hPart]
    simp only [Item.readValue, hHere, h.kind_eq, hKind]
    rfl

/-- A declaration ends at its semicolon. -/
theorem Item.IsEnded.read_semicolon (h : item.IsEnded kind) (hText : token.text = ";") :
    item.read (.ofToken token) = .done := by
  have hHere : (Lexeme.ofToken token).symbol = .semicolon := Lexeme.symbol_ofToken hText
  rw [Item.read]
  rcases h.part with hPart | hPart
  · rw [hPart]
    simp only [Item.readHead, hHere]
  · rw [hPart]
    simp only [Item.readValue, hHere]
    rfl

namespace Listing

/-- The first word of an item forgets what an earlier one has left. -/
theorem take_lead (found : Findings) (h : item.IsReady kind)
    (hMode : kind = .parameterPort → item.direction = "")
    (hFits : text.fits kind = true) (hText : token.text = text.lead.text) :
    ∃ item' : Item, take ⟨item, found⟩ token = some ⟨item', found⟩ ∧
      item'.Holds kind text.mode [] "" := by
  have hHere := Lexeme.symbol_keyword text.lead hText
  have hBlank := isBlank_keyword hText
  cases kind with
  | parameterPort =>
      simp only [ItemText.fits, ItemText.isParameter, Bool.and_eq_true, beq_iff_eq] at hFits
      rw [hFits.1] at hHere
      obtain ⟨item', hRead, hHolds⟩ := h.read_parameter hHere
      rw [hMode rfl] at hHolds
      refine ⟨item', take_stay hBlank hRead, ?_⟩
      rwa [ItemText.mode, if_pos hFits.1]
  | port =>
      simp only [ItemText.fits, ItemText.isPort, Bool.and_eq_true, List.contains_iff_mem] at hFits
      obtain ⟨item', hRead, hHolds⟩ := h.read_direction hHere hFits.1
      refine ⟨item', take_stay hBlank hRead, ?_⟩
      have hOther : text.lead ≠ .parameter := by
        intro hLead
        rw [hLead] at hFits
        exact absurd hFits.1 (by decide)
      rw [ItemText.mode, if_neg hOther, ← hText]
      exact hHolds
  | _ => cases hFits

/-- The pieces of one declarator are read back: an item that is ready for it becomes one that
declares it. -/
theorem takeAll_item (found : Findings) (h : item.IsReady kind)
    (hMode : kind = .parameterPort → item.direction = "")
    (hReadable : text.isReadable = true) (hFits : text.fits kind = true)
    (hTokens : tokens.map (·.text) = text.pieces) :
    ∃ item' : Item, takeAll ⟨item, found⟩ tokens = some ⟨item', found⟩ ∧
      item'.Declares kind text.mode text := by
  obtain ⟨lead, rest, rfl, hLead, hRest⟩ := List.map_eq_cons_iff.1 hTokens
  obtain ⟨middle, hTake, hHolds⟩ := take_lead found h hMode hFits hLead
  obtain ⟨last, hTakeAll, hLast⟩ := takeAll_tail found hHolds hReadable hRest
  exact ⟨last, by rw [takeAll_cons hTake, hTakeAll], hLast⟩

/-- A comma records an item, and the next one follows. -/
theorem take_comma (h : item.IsEnded kind) (hText : token.text = ",") :
    take ⟨item, found⟩ token = some ⟨item.afterName, Walk.declare found item⟩ :=
  take_next (isBlank_eq_false hText (by decide)) (h.read_comma hText)

/-- Where each element gives a row, the elements of a list give theirs in order, once the last one
is recorded too. -/
theorem takeAll_separated {α : Type} {P : Item → Prop} {pieces row : α → List String}
    {elements : List α} (hNameless : ∀ item, P item → item.IsNameless kind)
    (hEach : ∀ element ∈ elements, ∀ (item : Item) (found : Findings) (tokens : List Token),
      P item → tokens.map (·.text) = pieces element → ∃ item' : Item, takeAll ⟨item, found⟩ tokens =
        some ⟨item', found⟩ ∧ item'.Gives kind (row element) ∧ P item'.afterName)
    (hItem : P item) (hSettled : found.IsSettled)
    (hTokens : tokens.map (·.text) = List.intercalate [",", " "] (elements.map pieces)) :
    ∃ last rows, takeAll ⟨item, found⟩ tokens = some last ∧ last.item.IsEnded kind ∧
      rows.map Row.texts = elements.map row ∧ last.recorded = found.addRows kind rows := by
  induction elements generalizing tokens item found with
  | nil =>
      obtain rfl : tokens = [] := by simpa using hTokens
      have hEnded := hNameless item hItem
      refine ⟨⟨item, found⟩, [], rfl, hEnded.toIsEnded, rfl, ?_⟩
      rw [Findings.addRows_nil, recorded, Walk.declare, hEnded.name]
  | cons element elements ih =>
      rw [List.forall_mem_cons] at hEach
      cases elements with
      | nil =>
          have hPieces : tokens.map (·.text) = pieces element := by simpa using hTokens
          obtain ⟨last, hTake, hLast, -⟩ := hEach.1 item found tokens hItem hPieces
          obtain ⟨row', hRow, hDeclare⟩ := hLast.declare_eq found hSettled
          exact ⟨_, [row'], hTake, hLast.toIsEnded, by simp [hRow], hDeclare⟩
      | cons next elements =>
          simp only [List.map_cons, List.intercalate_cons_cons, List.append_assoc, List.cons_append,
            List.nil_append, List.map_eq_append_iff, List.map_eq_cons_iff] at hTokens
          obtain ⟨front, _, rfl, hFront, comma, _, rfl, hComma, space, rest, rfl, hSpace, hRest⟩ :=
            hTokens
          obtain ⟨middle, hTake, hMiddle, hNext⟩ := hEach.1 item found front hItem hFront
          obtain ⟨row', hRow, hDeclare⟩ := hMiddle.declare_eq found hSettled
          obtain ⟨last, rows, hTakeRest, hLast, hRows, hRecorded⟩ :=
            ih hEach.2 hNext (hSettled.addRows : (found.addRows kind [row']).IsSettled) hRest
          refine ⟨last, row' :: rows, ?_, hLast, by rw [List.map_cons, hRows, hRow]; rfl, ?_⟩
          · rw [takeAll_append hTake, takeAll_cons (take_comma hMiddle.toIsEnded hComma), hDeclare,
              takeAll_cons (take_gap rfl (Token.isBlank_of_space hSpace)), hTakeRest]
          · rw [hRecorded, Findings.addRows_append, List.singleton_append]

/-- The tokens of a written list give its rows. -/
theorem takeAll_items (h : ∀ text ∈ texts, text.isReadable = true ∧ text.fits kind = true)
    (hReady : item.IsReady kind) (hMode : kind = .parameterPort → item.direction = "")
    (hSettled : found.IsSettled)
    (hTokens : tokens.map (·.text) = List.intercalate [",", " "] (texts.map (·.pieces))) :
    ∃ last rows, takeAll ⟨item, found⟩ tokens = some last ∧ last.item.IsEnded kind ∧
      rows.map Row.texts = texts.map (·.collectedRow) ∧
      last.recorded = found.addRows kind rows := by
  -- A parameter has no word that would set the direction anew.
  let P (item : Item) := item.IsReady kind ∧ (kind = .parameterPort → item.direction = "")
  refine takeAll_separated (P := P) (fun item hItem => hItem.1.isNameless) ?_ ⟨hReady,
    hMode⟩ hSettled hTokens
  rintro text hMem item found tokens ⟨hReady, hMode⟩ hPieces
  obtain ⟨hReadable, hFits⟩ := h text hMem
  obtain ⟨last, hTake, hLast⟩ := takeAll_item found hReady hMode hReadable hFits hPieces
  refine ⟨last, hTake, hLast.gives hFits, hLast.isReady, ?_⟩
  rintro rfl
  simp only [ItemText.fits, ItemText.isParameter, Bool.and_eq_true, beq_iff_eq] at hFits
  exact hLast.direction.trans (by rw [ItemText.mode, if_pos hFits.1])

/-- The names of a list stand without attributes. -/
theorem takeAll_names {names : List String}
    (h : ∀ name ∈ names, Symbol.ofText name = .name ∧ name ≠ "ref")
    (hItem : item.Holds .port "" [] "") (hSettled : found.IsSettled)
    (hTokens : tokens.map (·.text) = List.intercalate [",", " "] (names.map ([·]))) :
    ∃ last rows, takeAll ⟨item, found⟩ tokens = some last ∧ last.item.IsEnded .port ∧
      rows.map Row.texts = names.map (fun name => [name, "", "", "", ""]) ∧
      last.recorded = found.addRows .port rows := by
  refine takeAll_separated (P := Item.Holds .port "" [] "")
    (fun item hItem => ⟨⟨hItem.kind, .inl hItem.part⟩, hItem.name⟩) ?_ hItem hSettled hTokens
  intro name hMem item found tokens hItem hPieces
  obtain ⟨hSymbol, hRef⟩ := h name hMem
  obtain ⟨token, rfl, hText⟩ := List.map_eq_singleton_iff.1 hPieces
  let word := (Lexeme.ofToken token).word
  refine ⟨{ item with name := some word }, ?_, ⟨⟨hItem.kind, .inl hItem.part⟩, ?_⟩, ?_⟩
  · rw [takeAll_cons (take_name hItem.part hItem.name hSymbol hRef hText)]
    rfl
  · intro found hSettled
    have hType : item.type = none := Option.map_eq_none_iff.1 hItem.type
    refine ⟨Declarations.completed "" none "" ""
      word, by rw [Declarations.texts_completed, ← hText]; rfl, ?_⟩
    simp only [Walk.declare, Item.rangeText, Item.valueText, hItem.kind, hItem.part,
      hItem.direction, hItem.range, hType, Declarations.pushRow_eq hSettled.ports]
    simp [Findings.addRows]
  · refine ⟨hItem.kind, rfl, hItem.direction, hItem.type, ?_, rfl, hItem.qualifies, rfl⟩
    simp only [Item.afterName, Item.rangeText, hItem.part, hItem.range]

end Listing

end Rows

section Texts

variable {kind : ItemKind} {text : ItemText} {items : List ItemText}

namespace ItemText

/-- Spaces in its range do not keep an item from being read back. -/
theorem isReadable_spacedRange (h : text.isReadable = true) :
    text.spacedRange.isReadable = true := by
  simp only [isReadable, Bool.and_eq_true] at h ⊢
  obtain ⟨⟨⟨⟨hTypes, hRef⟩, hSymbol⟩, hRange⟩, hValue⟩ := h
  refine ⟨⟨⟨⟨hTypes, hRef⟩, hSymbol⟩, ?_⟩, hValue⟩
  cases hInside : text.range with
  | none => simp [spacedRange, hInside]
  | some inside =>
      rw [hInside, Option.all_some, beq_iff_eq] at hRange
      have hLed : (led inside).foldlM squareDepth 0 = some 0 := foldlM_led (fun _ => rfl) hRange
      have hEnd : squareDepth 0 " " = some 0 := rfl
      simp [spacedRange, hInside, List.foldlM_append, hLed, hEnd]

theorem rangeWords_spacedRange (text : ItemText) :
    text.spacedRange.rangeWords = text.rangeWords.intersperse " " := by
  cases hInside : text.range with
  | none => simp [spacedRange, rangeWords, hInside]
  | some inside => simp [spacedRange, rangeWords, hInside, intersperse_cons]

/-- What is collected from words with spaces between them is their text. -/
theorem collectedRow_spacedRange (h : text.isWritable = true) :
    text.spacedRange.collectedRow = text.row := by
  have hWords : ∀ word ∈ text.words, IsSolid word := fun word hMem =>
    isSolid_of_isLexeme (List.all_eq_true.1 (Bool.and_eq_true_iff.1 h).2 word hMem)
  have hRange : collected text.spacedRange.rangeWords = " ".intercalate text.rangeWords := by
    rw [rangeWords_spacedRange]
    refine Capture.text_pushAll_intersperse (fun word hMem => hWords word ?_) ?_
    · simp [words, hMem]
    · rw [List.map_map]
      exact List.map_id _
  have hValue : collected (led (text.value.getD [])) = " ".intercalate (text.value.getD []) := by
    refine Capture.text_pushAll_led (fun word hMem => hWords word ?_) ?_
    · cases hSome : text.value with
      | none => simp [hSome] at hMem
      | some value => simp_all [words, valueWords]
    · rw [List.map_map]
      exact List.map_id _
  rw [collectedRow, hRange, row]
  exact congrArg _ (congrArg _ (congrArg _ (congrArg _ (congrArg (fun value => [value]) hValue))))

end ItemText

/-- The pieces of a list, joined, are its text. -/
theorem join_itemsPieces (items : List ItemText) :
    String.join (itemsPieces items) = itemsText items := by
  have hSeparator : String.join [",", " "] = ", " := rfl
  rw [itemsPieces, join_intercalate, hSeparator, itemsText, List.map_map]
  congr 2
  funext item
  exact join_intersperse item.words

/-- Every piece of a list that can be written is a plain text: none opens a comment or a string. -/
theorem isPlainText_itemsPieces (h : ∀ item ∈ items, item.isWritable = true) :
    ∀ piece ∈ itemsPieces items, isPlainText piece = true := by
  intro piece hPiece
  rcases mem_of_mem_intercalate hPiece with hMem | ⟨words, hWords, hMem⟩
  · fin_cases hMem <;> decide
  · obtain ⟨item, hItem, rfl⟩ := List.mem_map.1 hWords
    rcases mem_of_mem_intersperse hMem with rfl | hMem
    · decide
    · exact isPlainText_of_isLexeme
        (List.all_eq_true.1 (Bool.and_eq_true_iff.1 (h item hItem)).2 piece hMem)

/-- A header list that is the whole text. -/
def HeaderList.lone : HeaderList → ItemList
  | parameters => .parameters .text 0
  | ports => .ports .text

/-- The pieces of a written list lead a walk from its first item to its last one, which is yet to be
recorded. -/
theorem leads_itemsPieces {list : ItemList} {after : Option Token} {tokens : List Token}
    (h : ∀ item ∈ items, item.isWritable = true ∧ item.fits kind = true)
    (hTokens : tokens.map (·.text) = itemsPieces items) :
    machine.Leads tokens after (Walk.Lists list ⟨{ kind }, {}⟩) fun walk =>
      ∃ (rows : List Row) (listing : Listing), rows.map Row.texts = items.map (·.row) ∧
        walk.Lists list listing ∧ listing.recorded = Findings.addRows kind rows {} := by
  have hRows : (items.map (·.spacedRange)).map (·.collectedRow) = items.map (·.row) := by
    rw [List.map_map]
    exact List.map_congr_left fun item hMem => ItemText.collectedRow_spacedRange (h item hMem).1
  have hPieces : itemsPieces items = List.intercalate [",", " "]
      ((items.map (·.spacedRange)).map (·.pieces)) := by
    rw [itemsPieces, List.map_map]
    congr 2
    funext item
    exact item.intersperse_words
  have hTexts : ∀ text ∈ items.map (·.spacedRange), text.isReadable = true ∧
      text.fits kind = true := by
    rw [List.forall_mem_map]
    intro item hMem
    refine ⟨ItemText.isReadable_spacedRange (Bool.and_eq_true_iff.1 (h item hMem).1).1, ?_⟩
    have hFits := (h item hMem).2
    cases kind <;> exact hFits
  rw [hPieces] at hTokens
  obtain ⟨listing, rows, hTake, -, hTaken, hRecorded⟩ := Listing.takeAll_items hTexts
    (⟨rfl, rfl, rfl, rfl, rfl⟩ : Item.IsReady kind { kind }) (fun _ => rfl)
    (⟨rfl, rfl⟩ : Findings.IsSettled {}) hTokens
  intro events walk hReads hWalk
  exact ⟨rows, listing, hTaken.trans hRows,
    Walk.Lists.leads hTake events walk hReads hWalk, hRecorded⟩

/-- A text that holds nothing but a written list is read as its items. The end of the text records
the last one. -/
theorem scan_items (list : HeaderList)
    (h : ∀ item ∈ items, item.isWritable = true ∧ item.fits list.kind = true) :
    ∃ rows : List Row, rows.map Row.texts = items.map (·.row) ∧
      (scan list.region none (itemsText items)).table.toFindings =
        list.close 0 (itemsText items).utf8ByteSize (Findings.addRows list.kind rows {}) ∧
      (scan list.region none (itemsText items)).table.diagnostics = [] := by
  have hWritable : ∀ item ∈ items, item.isWritable = true := fun item hMem => (h item hMem).1
  have hStart : (Walk.start list.region).Lists list.lone ⟨{ kind := list.kind }, {}⟩ := by
    cases list <;> exact ⟨rfl, rfl, rfl, rfl⟩
  obtain ⟨last, ⟨rows, listing, hRows, hLists, hRecorded⟩, hFound, hDiagnostics⟩ :=
    scan_of_isLexed list.region (isLexed_itemsPieces hWritable) (isPlainText_itemsPieces hWritable)
      (fun _ => leads_itemsPieces h) hStart
      (by rintro walk ⟨-, listing, -, hLists, -⟩; exact hLists.frames)
  rw [join_itemsPieces] at hFound hDiagnostics
  have hPlace : last.place = list.place .text 0 listing.item := by
    rw [hLists.place]
    cases list <;> rfl
  refine ⟨rows, hRows, ?_, hDiagnostics⟩
  rw [hFound, Walk.flushAt_list hPlace, Walk.finish_context rfl, ← hRecorded, Listing.recorded,
    ← hLists.found]
  rfl

/-- Reading undoes writing: a written list of parameters or of ports gives one row for each item, in
order, with the attributes that were written. The generic definition is the text of the
parameters. -/
theorem scan_itemsText (parameters ports : List ItemText)
    (hParameters : ∀ item ∈ parameters, item.isWritable = true ∧ item.isParameter = true)
    (hPorts : ∀ item ∈ ports, item.isWritable = true ∧ item.isPort = true) :
    let parametersTable := (scan .parameterList none (itemsText parameters)).table
    let portsTable := (scan .portList none (itemsText ports)).table
    (parametersTable.parameters.texts = parameters.map (·.row) ∧
      parametersTable.parameters.pending = #[] ∧ parametersTable.diagnostics = [] ∧
      parametersTable.genericDefinition = itemsText parameters) ∧
    (portsTable.ports.texts = ports.map (·.row) ∧ portsTable.ports.pending = #[] ∧
      portsTable.diagnostics = []) := by
  intro parametersTable portsTable
  constructor
  · obtain ⟨rows, hRows, hFound, hDiagnostics⟩ := scan_items .parameters hParameters
    have hList : parametersTable.parameters = ⟨rows.toArray, #[]⟩ := by
      refine (congrArg Findings.parameters hFound).trans ?_
      simp [HeaderList.close, HeaderList.kind, Findings.addRows]
    have hClause : parametersTable.genericClause = some ⟨0, (itemsText parameters).utf8ByteSize⟩ :=
      congrArg Findings.genericClause hFound
    have hAll : (⟨0, (itemsText parameters).utf8ByteSize⟩ : Span).Covers (itemsText parameters)
        (itemsText parameters) := ⟨[], [], by simp, by simp⟩
    have hDefinition : parametersTable.genericDefinition =
        (parametersTable.genericClause.map (·.slice (itemsText parameters))).getD "" := rfl
    rw [hDefinition, hClause, Option.map_some, hAll.slice_eq, hList]
    exact ⟨hRows, rfl, hDiagnostics, rfl⟩
  · obtain ⟨rows, hRows, hFound, hDiagnostics⟩ := scan_items .ports hPorts
    have hList : portsTable.ports = ⟨rows.toArray, #[]⟩ := by
      refine (congrArg Findings.ports hFound).trans ?_
      simp [HeaderList.close, HeaderList.kind, Findings.addRows]
    rw [hList]
    exact ⟨hRows, rfl, hDiagnostics⟩

/-- The attributes of one item are gone at the next one, and a value may hold brackets of every
kind. -/
theorem scan_itemsText_mixed :
    let parameters : List ItemText :=
      [⟨.parameter, [.logic, .signed], some ["7", ":", "0"], "A",
          some ["f", "(", "x", ",", "\x7b", "y", "[", "1", "]", ",", "2", "\x7d", ")", "+", "W"]⟩,
        ⟨.parameter, [], none, "B", some ["8'hFF"]⟩, ⟨.parameter, [.int], none, "C", some []⟩]
    let ports : List ItemText :=
      [⟨.input, [.wire], some ["A", "[", "0", "]", ":", "0"], "a", none⟩,
        ⟨.output, [], none, "b", none⟩]
    (itemsText parameters =
        "parameter logic signed [ 7 : 0 ] A = f ( x , \x7b y [ 1 ] , 2 \x7d ) + W, " ++
          "parameter B = 8'hFF, parameter int C =" ∧
      (scan .parameterList none (itemsText parameters)).table.parameters.texts =
        [["A", "", "logic signed", "[ 7 : 0 ]", "f ( x , \x7b y [ 1 ] , 2 \x7d ) + W"],
          ["B", "", "", "", "8'hFF"], ["C", "", "int", "", ""]]) ∧
      (itemsText ports = "input wire [ A [ 0 ] : 0 ] a, output b" ∧
        (scan .portList none (itemsText ports)).table.ports.texts =
          [["a", "input", "wire", "[ A [ 0 ] : 0 ]", ""], ["b", "output", "", "", ""]]) := by
  intro parameters ports
  obtain ⟨⟨hParameters, -⟩, hPorts, -⟩ := scan_itemsText parameters ports (by decide +kernel)
    (by decide +kernel)
  refine ⟨⟨by decide +kernel, hParameters.trans ?_⟩, by decide +kernel, hPorts.trans ?_⟩
  · decide +kernel
  · decide +kernel

end Texts

end HdlIndex.Verilog

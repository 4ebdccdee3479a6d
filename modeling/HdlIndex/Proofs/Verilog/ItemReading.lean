import HdlIndex.Proofs.Symbols.Gained
import HdlIndex.Proofs.Verilog.GenerateFrames
import HdlIndex.Proofs.Verilog.ItemText

/-! The walk inside of a comma-separated list of declarations. As long as nothing ends the list, all
that a plain token changes is the item under way and what is found. A written parameter or port is
read back: its types, its range, its name and its value are taken one after the other, and what an
earlier name has left is forgotten at the first word. -/
namespace HdlIndex

namespace Verilog

/-- The lists that items are read in. -/
inductive ItemList where
  | parameters (owner : Owner) (inside : Nat)
  | ports (owner : Owner)
  | body

/-- Where a walk stands in the list. -/
def ItemList.place : ItemList → Item → Place
  | parameters owner inside, item => .parameterList owner inside item
  | ports owner, item => .portList owner item
  | body, item => .declaration item

/-- A list as far as it is read. -/
structure Listing where
  item : Item
  found : Findings := {}

namespace Listing

/-- What is found once the item under way is recorded. -/
def recorded (listing : Listing) : Findings := Walk.declare listing.found listing.item

/-- Takes a token. There is no result where it ends the list. -/
def take (listing : Listing) (token : Token) : Option Listing :=
  if token.isBlank then
    some { listing with item.expr := listing.item.expr.absorb token }
  else match listing.item.read (.ofToken token) with
    | .stay item => some { listing with item }
    | .next => some ⟨listing.item.afterName, listing.recorded⟩
    | .done | .close => none

/-- Takes tokens one after the other. -/
def takeAll : Listing → List Token → Option Listing
  | listing, [] => some listing
  | listing, token :: tokens => do (← listing.take token).takeAll tokens

variable {listing middle last : Listing} {item : Item} {found : Findings} {token : Token}
  {tokens others : List Token}

/-- Items are taken token by token, so that the tokens may be cut anywhere. -/
theorem takeAll_append (h : listing.takeAll tokens = some middle) :
    listing.takeAll (tokens ++ others) = middle.takeAll others := by
  induction tokens generalizing listing with
  | nil =>
      obtain rfl := Option.some.inj h
      rfl
  | cons token tokens ih =>
      rw [takeAll] at h
      obtain ⟨next, hTake, hRest⟩ := Option.bind_eq_some_iff.1 h
      rw [List.cons_append, takeAll, hTake]
      exact ih hRest

/-- A token is taken before those behind it. -/
theorem takeAll_cons (h : listing.take token = some middle) :
    listing.takeAll (token :: tokens) = middle.takeAll tokens := by
  rw [takeAll, h]
  rfl

theorem take_blank (h : token.isBlank = true) :
    take ⟨item, found⟩ token = some ⟨{ item with expr := item.expr.absorb token }, found⟩ := by
  rw [take, if_pos h]

/-- A word that the item takes is taken with it. -/
theorem take_stay (hBlank : token.isBlank = false) {item' : Item}
    (hRead : item.read (.ofToken token) = .stay item') :
    take ⟨item, found⟩ token = some ⟨item', found⟩ := by
  rw [take, hBlank, hRead]
  rfl

theorem take_next (hBlank : token.isBlank = false) (hRead : item.read (.ofToken token) = .next) :
    take ⟨item, found⟩ token = some ⟨item.afterName, Walk.declare found item⟩ := by
  rw [take, hBlank, hRead]
  rfl

end Listing

namespace Walk

variable {walk : Walk} {place : Place} {found : Findings} {list : ItemList} {listing last : Listing}
  {token : Token} {tokens : List Token} {after : Option Token}

/-- The walk rests at a place with what it has found. No condition is in force, and no label is
awaited. -/
structure Rests (place : Place) (found : Findings) (walk : Walk) : Prop where
  place : walk.place = place
  found : walk.found = found
  label : walk.label = .idle
  frames : walk.frames = []

/-- The walk stands in a list and read it so far. -/
def Lists (list : ItemList) (listing : Listing) : Walk → Prop :=
  Rests (list.place listing.item) listing.found

/-- A place that no blank changes is kept. -/
theorem Rests.filler (h : walk.Rests place found)
    (hPlace : ∀ token, token.isBlank = true → place.absorb token = place)
    (hBlank : token.isBlank = true) :
    (walk.step (.filler token)).Rests place found where
  place := (congrArg (·.absorb token) h.place).trans (hPlace token hBlank)
  found := h.found
  label := h.label
  frames := h.frames

theorem Rests.goto (h : walk.Rests place found) (place' : Place) :
    (walk.goto place').Rests place' found :=
  ⟨rfl, h.found, h.label, h.frames⟩

theorem Rests.note (h : walk.Rests place found) (note : Note) :
    (walk.note note).Rests place found :=
  ⟨h.place, h.found, h.label, h.frames⟩

/-- No condition ends with an item. -/
theorem Rests.backToBody (h : walk.Rests place found) :
    walk.backToBody.Rests .moduleBody found := by
  have hSelf : walk.backToBody = walk.goto .moduleBody := by
    rw [Walk.backToBody, endItem, leaveFrames_eq_self] <;> simp [Walk.goto, h.frames]
  rw [hSelf]
  exact h.goto .moduleBody

/-- A word is read where the walk rests. -/
theorem Rests.leads_word {Q R : Walk → Prop} (hBlank : token.isBlank = false)
    (hRead : ∀ (next : Option Lexeme) (walk : Walk), walk.Rests place found →
      Q (walk.read (.ofToken token) next))
    (hRest : machine.Leads tokens after Q R) :
    machine.Leads (token :: tokens) after (Rests place found) R := by
  refine .word hBlank (fun event walk hEvent hWalk => ?_) hRest
  obtain rfl : event = _ := hEvent
  exact (congrArg Q (step_word hWalk.label _ _)).mpr (hRead _ _ (hWalk.note _))

/-- A blank is passed over where the walk rests. -/
theorem Rests.leads_filler {R : Walk → Prop}
    (hPlace : ∀ token, token.isBlank = true → place.absorb token = place)
    (hBlank : token.isBlank = true) (hRest : machine.Leads tokens after (Rests place found) R) :
    machine.Leads (token :: tokens) after (Rests place found) R :=
  .filler hBlank (fun _ hWalk => hWalk.filler hPlace hBlank) hRest

/-- What a list takes changes the item under way and what is found, and nothing else. -/
theorem read_of_take (hPlace : walk.place = list.place listing.item)
    (hFound : walk.found = listing.found) (hBlank : token.isBlank = false)
    (hTake : listing.take token = some last) (next : Option Lexeme) :
    walk.read (.ofToken token) next =
      { walk with place := list.place last.item, found := last.found } := by
  obtain ⟨item, found⟩ := listing
  have hFlush : (walk.flush item).found = declare found item := congrArg (declare · item) hFound
  rw [Listing.take, hBlank] at hTake
  rw [read, hPlace]
  cases hRead : item.read (.ofToken token) with
  | stay item' =>
      rw [hRead] at hTake
      obtain rfl := Option.some.inj hTake
      rw [← show walk.found = found from hFound]
      cases list <;> simp only [ItemList.place, readParameters, readPorts, readDeclaration,
        hRead] <;> rfl
  | next =>
      rw [hRead] at hTake
      obtain rfl := Option.some.inj hTake
      simp only [Listing.recorded, ← hFlush]
      cases list <;> simp only [ItemList.place, readParameters, readPorts, readDeclaration,
        hRead] <;> rfl
  | done =>
      rw [hRead] at hTake
      cases hTake
  | close =>
      rw [hRead] at hTake
      cases hTake

/-- The walk follows the tokens that a list takes, whatever it has brought there. -/
theorem leads_takeAll (list : ItemList) (base : Walk) (h : listing.takeAll tokens = some last) :
    machine.Leads tokens after
      (Stands { base with found := listing.found } (list.place listing.item))
      (Stands { base with found := last.found } (list.place last.item)) := by
  induction tokens generalizing listing with
  | nil =>
      obtain rfl := Option.some.inj h
      exact .nil
  | cons token tokens ih =>
      rw [Listing.takeAll] at h
      obtain ⟨middle, hTake, hRest⟩ := Option.bind_eq_some_iff.1 h
      cases hBlank : token.isBlank with
      | true =>
          refine .filler hBlank (fun walk hWalk => ?_) (ih hRest)
          obtain rfl := Option.some.inj ((Listing.take_blank hBlank).symm.trans hTake)
          obtain ⟨notes, rfl⟩ := hWalk
          exact ⟨notes, by cases list <;> rfl⟩
      | false =>
          refine .word hBlank (fun event walk hEvent hWalk => ?_) (ih hRest)
          obtain rfl : event = _ := hEvent
          exact hWalk.reads fun notes => ⟨notes, read_of_take rfl rfl hBlank hTake _⟩

/-- The walk follows the tokens that the list takes. -/
theorem Lists.leads (h : listing.takeAll tokens = some last) :
    machine.Leads tokens after (Lists list listing) (Lists list last) := by
  intro events walk hReads hWalk
  have hStands : Stands { walk with found := listing.found } (list.place listing.item) walk :=
    ⟨walk.notes, by rw [← hWalk.place, ← hWalk.found, ← hWalk.label]⟩
  obtain ⟨notes, hEnd⟩ := leads_takeAll list walk h events walk hReads hStands
  rw [hEnd]
  exact ⟨rfl, rfl, rfl, hWalk.frames⟩

end Walk

end Verilog

section ReadingBack

namespace Capture

variable {capture : Capture} {token other : Token} {tokens others : List Token}

/-- What is collected does not depend on the places of the tokens. -/
theorem push_congr (h : token.text = other.text) : capture.push token = capture.push other := by
  rw [push, push, Token.isEmpty, Token.isBlank, pushText, h]
  rfl

/-- What is collected depends on the texts of tokens, and not on their places. -/
theorem pushAll_congr (h : tokens.map (·.text) = others.map (·.text)) :
    capture.pushAll tokens = capture.pushAll others := by
  induction tokens generalizing capture others with
  | nil =>
      obtain rfl : others = [] := by simpa using h.symm
      rfl
  | cons token tokens ih =>
      obtain ⟨other, others, rfl, hText, hRest⟩ := List.map_eq_cons_iff.1 h.symm
      rw [pushAll, pushAll, List.foldl_cons, List.foldl_cons, push_congr hText.symm]
      exact ih hRest.symm

end Capture

namespace Verilog

/-- The text that is collected from pieces. -/
def collected (pieces : List String) : String :=
  (Capture.fresh.pushAll (pieces.map (⟨·, .empty 0⟩))).text

/-- A fresh capture collects just the pieces it is given. -/
theorem text_pushAll {tokens : List Token} {pieces : List String}
    (h : tokens.map (·.text) = pieces) : (Capture.fresh.pushAll tokens).text =
      collected pieces := by
  let others : List Token := pieces.map (⟨·, .empty 0⟩)
  have hTexts : tokens.map (·.text) = others.map (·.text) := by
    rw [h, List.map_map]
    exact (List.map_id pieces).symm
  rw [collected, Capture.pushAll_congr hTexts]

/-- The text of the types, if there are any. -/
def typeText? (types : List Keyword) : Option String :=
  if types.isEmpty then none else some (" ".intercalate (types.map (·.text)))

theorem getD_typeText? (types : List Keyword) :
    (typeText? types).getD "" = " ".intercalate (types.map (·.text)) := by
  cases types <;> rfl

/-- One more type word is joined to the others with a space. -/
theorem typeText?_concat (types : List Keyword) (word : Keyword) :
    typeText? (types ++ [word]) = some (match typeText? types with
      | some text => text ++ " " ++ word.text
      | none => word.text) := by
  cases types with
  | nil => simp [typeText?]
  | cons first types =>
      have hSome : (first :: types).map Keyword.text ≠ [] := List.cons_ne_nil _ _
      have hAll :=
        String.intercalate_append_of_ne_nil (s := " ") hSome (List.cons_ne_nil word.text [])
      rw [← List.map_singleton (f := Keyword.text), ← List.map_append] at hAll
      simpa [typeText?] using hAll

/-- The item stands behind its first word, or further on in front of its name. -/
structure Item.Holds (kind : ItemKind) (mode : String) (types : List Keyword) (range : String)
    (item : Item) : Prop where
  kind : item.kind = kind
  part : item.part = .head
  direction : item.direction = mode
  type : item.type.map (·.text) = typeText? types
  range : item.range = range
  name : item.name = none
  qualifies : item.qualifies = false
  expr : item.expr = .idle

/-- The item is ready for its first word. -/
structure Item.IsReady (kind : ItemKind) (item : Item) : Prop where
  kind : item.kind = kind
  part : item.part = .head
  name : item.name = none
  qualifies : item.qualifies = false
  expr : item.expr = .idle

/-- The item declares a name with its attributes. -/
structure Item.Declares (kind : ItemKind) (mode : String) (text : ItemText)
    (item : Item) : Prop where
  kind : item.kind = kind
  part : item.part = .head ∨ item.part = .value 0
  direction : item.direction = mode
  type : item.type.map (·.text) = typeText? text.types
  range : item.rangeText = collected text.rangeWords
  name : item.name.map (·.text) = some text.name
  value : item.valueText = collected (led (text.value.getD []))
  qualifies : item.qualifies = false

variable {kind : ItemKind} {mode range : String} {types : List Keyword} {item : Item}
  {found : Findings} {token : Token} {tokens : List Token} {text : ItemText}

theorem isDataType_ne {word : Keyword} (h : isDataType word = true) :
    word ∉ [.parameter, .localparam, .input, .output, .inout] := by
  intro hMem
  simp only [List.mem_cons, List.not_mem_nil, or_false] at hMem
  rcases hMem with rfl | rfl | rfl | rfl | rfl <;> cases h

/-- A text without a meaning of its own may be a name. -/
theorem isNameLike_of_ofText {text : String} (h : Symbol.ofText text = .name) :
    isNameLike text = true := by
  unfold Symbol.ofText at h
  split at h
  all_goals first
    | cases h
    | skip
  split at h
  · cases h
  · split at h
    · assumption
    · cases h

/-- `ref` is the one direction that is no keyword. -/
theorem isDirection_of_name {text : String} (h : Symbol.ofText text = .name) :
    isDirection text = decide (text = "ref") := by
  rw [isDirection]
  cases hWord : Keyword.ofText? text with
  | none => rfl
  | some word =>
      rw [← Keyword.text_of_ofText? hWord, Symbol.ofText_keyword] at h
      cases h

namespace Item

/-- `parameter` may be written in front of a parameter. -/
theorem IsReady.read_parameter (h : item.IsReady kind) {here : Lexeme}
    (hHere : here.symbol = .keyword .parameter) :
    ∃ item', item.read here = .stay item' ∧ item'.Holds kind item.direction [] "" := by
  refine ⟨item.restart, ?_, h.kind, h.part, rfl, rfl, rfl, h.name, h.qualifies, h.expr⟩
  rw [read, h.part]
  simp only [readHead, hHere]

/-- A direction puts the attributes that are carried out of force. -/
theorem read_directionWord (hPart : item.part = .head) {here : Lexeme} {word : Keyword}
    (hHere : here.symbol = .keyword word) (hWord : word ∈ directions) :
    item.read here = .stay { item.restart with direction := here.text } := by
  rw [read, hPart]
  simp only [directions, List.mem_cons, List.not_mem_nil, or_false] at hWord
  rcases hWord with rfl | rfl | rfl <;> simp only [readHead, hHere]

/-- A direction starts a port. -/
theorem IsReady.read_direction (h : item.IsReady kind) {here : Lexeme} {word : Keyword}
    (hHere : here.symbol = .keyword word) (hWord : word ∈ directions) :
    ∃ item', item.read here = .stay item' ∧ item'.Holds kind here.text [] "" :=
  ⟨_, read_directionWord h.part hHere hWord, h.kind, h.part, rfl, rfl, rfl, h.name,
    h.qualifies, h.expr⟩

/-- A type word is pushed wherever it stands in the head. -/
theorem read_dataType (hPart : item.part = .head) {here : Lexeme} {word : Keyword}
    (hHere : here.symbol = .keyword word) (hWord : isDataType word = true) :
    item.read here = .stay (item.pushType here) := by
  have hOther := isDataType_ne hWord
  rw [read, hPart]
  simp only [readHead, hHere]
  split <;> simp_all

/-- A type word is added to those before it. -/
theorem type_pushType (hType : item.type.map (·.text) = typeText? types) {here : Lexeme}
    {word : Keyword} (hText : here.text = word.text) :
    (item.pushType here).type.map (·.text) = typeText? (types ++ [word]) := by
  rw [typeText?_concat, ← hType, pushType]
  cases hType : item.type with
  | none => simp [Lexeme.word, ← hText, Lexeme.text]
  | some type => simp [hText]

/-- A type word is added to the type. -/
theorem Holds.read_type (h : item.Holds kind mode types range) {here : Lexeme} {word : Keyword}
    (hHere : here.symbol = .keyword word) (hText : here.text = word.text)
    (hWord : isDataType word = true) :
    ∃ item', item.read here = .stay item' ∧ item'.Holds kind mode (types ++ [word]) range :=
  ⟨item.pushType here, read_dataType h.part hHere hWord, h.kind, h.part, h.direction,
    type_pushType h.type hText, h.range, h.name, h.qualifies, h.expr⟩

/-- A name without one before it is the name of the item. -/
theorem read_identifier (hPart : item.part = .head) (hNone : item.name = none) {here : Lexeme}
    (hHere : here.symbol = .name) (hRef : isDirection here.text = false) :
    item.read here = .stay { item with name := some here.word } := by
  have hHead : item.read here = item.readHead here := by rw [read, hPart]
  rw [hHead]
  simp only [readHead, hHere, hRef, pushName, hNone]
  rfl

/-- A bracket in the head opens a range. -/
theorem read_bracket (hPart : item.part = .head) {here : Lexeme}
    (hHere : here.symbol = .bracketOpen) :
    item.read here =
      .stay { item with part := .range 1, expr := Capture.fresh.push here.token } := by
  rw [read, hPart]
  simp only [readHead, hHere]

/-- What stands in the brackets of a range is added to it. -/
theorem read_inside {depth next : Nat} (hPart : item.part = .range (depth + 1))
    (hDepth : squareDepth depth token.text = some next) :
    item.read (.ofToken token) =
      .stay { item with part := .range (next + 1), expr := item.expr.push token } := by
  have hSpelling {symbol : Symbol} (h : (Lexeme.ofToken token).symbol = symbol) :
      ∀ text ∈ symbol.spelling?, token.text = text := by
    rintro text hText
    rw [← h] at hText
    exact Symbol.eq_of_spelling? hText
  rw [squareDepth] at hDepth
  rw [read, hPart]
  simp only [readRange]
  by_cases hOpen : token.text = "["
  · rw [if_pos hOpen] at hDepth
    obtain rfl := Option.some.inj hDepth
    have hHere : (Lexeme.ofToken token).symbol = .bracketOpen := Lexeme.symbol_ofToken hOpen
    simp only [hHere, push]
    rfl
  rw [if_neg hOpen] at hDepth
  by_cases hClose : token.text = "]"
  · rw [if_pos hClose] at hDepth
    have hHere : (Lexeme.ofToken token).symbol = .bracketClose := Lexeme.symbol_ofToken hClose
    cases depth with
    | zero => cases hDepth
    | succ depth =>
        obtain rfl := Option.some.inj hDepth
        simp [hHere, push]
        rfl
  · rw [if_neg hClose] at hDepth
    obtain rfl := Option.some.inj hDepth
    have hNotOpen : (Lexeme.ofToken token).symbol ≠ .bracketOpen :=
      fun h => hOpen (hSpelling h _ rfl)
    have hNotClose : (Lexeme.ofToken token).symbol ≠ .bracketClose :=
      fun h => hClose (hSpelling h _ rfl)
    split
    · contradiction
    · contradiction
    · rw [← hPart]
      rfl

/-- The outermost bracket closes a range. -/
theorem read_close (hPart : item.part = .range 1) (hText : token.text = "]") :
    item.read (.ofToken token) = .stay { item with
      part := .head, range := item.range ++ (item.expr.push token).text, expr := .idle } := by
  have hHere : (Lexeme.ofToken token).symbol = .bracketClose := Lexeme.symbol_ofToken hText
  rw [read, hPart]
  simp only [readRange, hHere]
  rfl

/-- The words of a value are added to it as long as its brackets match. -/
theorem read_value {depth next : Nat} (hPart : item.part = .value depth)
    (hDepth : bracketDepth Symbol.isValue depth token.text = some next) :
    item.read (.ofToken token) =
      .stay { item with part := .value next, expr := item.expr.push token } := by
  have hHere : (Lexeme.ofToken token).symbol = Symbol.ofText token.text := rfl
  rw [bracketDepth] at hDepth
  rw [read, hPart]
  simp only [readValue, hHere]
  generalize Symbol.ofText token.text = symbol at hDepth
  have hSelf : item.push (.ofToken token) = { item with expr := item.expr.push token } := rfl
  rw [hSelf]
  cases symbol <;>
    simp_all [Symbol.isOpener, Symbol.isCloser,
      Symbol.isValue] <;> cases depth <;> simp_all <;> omega

/-- A blank is no word of a value, and it closes no bracket. -/
theorem bracketDepth_of_isBlank {depth : Nat} (hBlank : token.isBlank = true) :
    bracketDepth Symbol.isValue depth token.text = some depth := by
  have hOther : Symbol.ofText token.text = .other := by
    have hNone : ∀ text ∈ (Symbol.ofText token.text).spelling?, token.text = text := fun text h =>
      Symbol.eq_of_spelling? h
    cases hSymbol : Symbol.ofText token.text with
    | other => rfl
    | name => rw [isBlank_of_isNameLike (isNameLike_of_ofText hSymbol)] at hBlank; cases hBlank
    | keyword word =>
        rw [hSymbol] at hNone
        rw [isBlank_of_isNameLike (hNone _ rfl ▸ word.isNameLike_text)] at hBlank
        cases hBlank
    | _ =>
        rw [hSymbol] at hNone
        rw [Token.isBlank, hNone _ rfl] at hBlank
        exact absurd hBlank (by decide)
  rw [bracketDepth, hOther]
  cases depth <;> rfl

end Item

namespace Listing

theorem isBlank_keyword {word : Keyword} (hText : token.text = word.text) : token.isBlank = false :=
  isBlank_of_isNameLike (hText ▸ word.isNameLike_text)

/-- A blank outside of ranges and values is passed over. -/
theorem take_gap (hExpr : item.expr = .idle) (hBlank : token.isBlank = true) :
    take ⟨item, found⟩ token = some ⟨item, found⟩ := by
  have hAbsorb : item.expr.absorb token = item.expr := by
    rw [hExpr]
    rfl
  rw [take_blank hBlank, hAbsorb]

/-- Type words are taken one after the other. -/
theorem takeAll_types (found : Findings) {before : List Keyword}
    (h : item.Holds kind mode before range) (hTypes : types.all isDataType = true)
    (hTokens : tokens.map (·.text) = led (types.map (·.text))) :
    ∃ item' : Item, takeAll ⟨item, found⟩ tokens = some ⟨item', found⟩ ∧
      item'.Holds kind mode (before ++ types) range := by
  induction types generalizing tokens item before with
  | nil =>
      obtain rfl : tokens = [] := by simpa [led] using hTokens
      exact ⟨item, rfl, by rwa [List.append_nil]⟩
  | cons word types ih =>
      rw [List.all_cons, Bool.and_eq_true_iff] at hTypes
      simp only [List.map_cons, led_cons, List.map_eq_cons_iff] at hTokens
      obtain ⟨space, _, rfl, hSpace, token, rest, rfl, hText, hRest⟩ := hTokens
      have hHere := Lexeme.symbol_keyword word hText
      obtain ⟨next, hRead, hNext⟩ := h.read_type hHere hText hTypes.1
      obtain ⟨last, hTake, hLast⟩ := ih hNext hTypes.2 hRest
      refine ⟨last, ?_, by rwa [List.append_assoc] at hLast⟩
      rw [takeAll_cons (take_gap h.expr (Token.isBlank_of_space hSpace)),
        takeAll_cons (take_stay (isBlank_keyword hText) hRead), hTake]

/-- The inside of a range is collected as a whole. -/
theorem takeAll_inside {depth next : Nat} (hPart : item.part = .range (depth + 1))
    (hActive : item.expr.active = true)
    (hDepth : (tokens.map (·.text)).foldlM squareDepth depth = some next) :
    takeAll ⟨item, found⟩ tokens = some ⟨{ item with
      part := .range (next + 1), expr := item.expr.pushAll tokens }, found⟩ := by
  induction tokens generalizing item depth with
  | nil =>
      obtain rfl : depth = next := by simpa using hDepth
      rw [← hPart]
      rfl
  | cons token tokens ih =>
      rw [List.map_cons, List.foldlM_cons] at hDepth
      obtain ⟨middle, hHead, hDepth⟩ := Option.bind_eq_some_iff.1 hDepth
      have hTake : take ⟨item, found⟩ token = some ⟨{ item with
          part := .range (middle + 1), expr := item.expr.push token }, found⟩ := by
        cases hBlank : token.isBlank with
        | false => exact take_stay hBlank (Item.read_inside hPart hHead)
        | true =>
            have hOpen : token.text ≠ "[" := by
              intro hText
              rw [Token.isBlank, hText] at hBlank
              exact absurd hBlank (by decide)
            have hClose : token.text ≠ "]" := by
              intro hText
              rw [Token.isBlank, hText] at hBlank
              exact absurd hBlank (by decide)
            rw [squareDepth, if_neg hOpen, if_neg hClose] at hHead
            obtain rfl := Option.some.inj hHead
            rw [take_blank hBlank, Capture.absorb_of_active hActive, ← hPart]
      rw [takeAll_cons hTake, ih rfl (by rw [Capture.active_push, hActive]) hDepth]
      rfl

/-- The words of a value are collected as a whole. -/
theorem takeAll_inValue {depth next : Nat} (hPart : item.part = .value depth)
    (hActive : item.expr.active = true)
    (hDepth : (tokens.map (·.text)).foldlM (bracketDepth Symbol.isValue) depth = some next) :
    takeAll ⟨item, found⟩ tokens = some ⟨{ item with
      part := .value next, expr := item.expr.pushAll tokens }, found⟩ := by
  induction tokens generalizing item depth with
  | nil =>
      obtain rfl : depth = next := by simpa using hDepth
      rw [← hPart]
      rfl
  | cons token tokens ih =>
      rw [List.map_cons, List.foldlM_cons] at hDepth
      obtain ⟨middle, hHead, hDepth⟩ := Option.bind_eq_some_iff.1 hDepth
      have hTake : take ⟨item, found⟩ token = some ⟨{ item with
          part := .value middle, expr := item.expr.push token }, found⟩ := by
        cases hBlank : token.isBlank with
        | false => exact take_stay hBlank (Item.read_value hPart hHead)
        | true =>
            obtain rfl := Option.some.inj ((Item.bracketDepth_of_isBlank hBlank).symm.trans hHead)
            rw [take_blank hBlank, Capture.absorb_of_active hActive, ← hPart]
      rw [takeAll_cons hTake, ih rfl (by rw [Capture.active_push, hActive]) hDepth]
      rfl

/-- A range is collected from bracket to bracket, and it is added to those before it. -/
theorem takeAll_bracketed {inside : List String} (hPart : item.part = .head)
    (hExpr : item.expr = .idle) (hInside : inside.foldlM squareDepth 0 = some 0)
    (hTokens : tokens.map (·.text) = "[" :: (inside ++ ["]"])) :
    takeAll ⟨item, found⟩ tokens =
      some ⟨{ item with range := item.range ++ collected ("[" :: (inside ++ ["]"])) }, found⟩ := by
  have hText := text_pushAll hTokens
  simp only [List.map_eq_cons_iff, List.map_eq_append_iff, List.map_eq_nil_iff] at hTokens
  obtain ⟨opener, _, rfl, hOpen, middle, _, rfl, rfl, closer, _, rfl, hClose, rfl⟩ := hTokens
  let opened : Item := { item with part := .range 1, expr := Capture.fresh.push opener }
  have hFirst : take ⟨item, found⟩ opener = some ⟨opened, found⟩ :=
    take_stay (isBlank_eq_false hOpen (by decide))
      (Item.read_bracket hPart (Lexeme.symbol_ofToken hOpen))
  have hMiddle : takeAll ⟨opened, found⟩ middle =
      some ⟨{ opened with expr := opened.expr.pushAll middle }, found⟩ :=
    takeAll_inside rfl Capture.active_push hInside
  have hLast : take ⟨{ opened with expr := opened.expr.pushAll middle }, found⟩ closer =
      some ⟨{ item with range := item.range ++ collected ("[" :: (middle.map (·.text) ++ ["]"])) },
        found⟩ := by
    apply take_stay (isBlank_eq_false hClose (by decide))
    rw [Item.read_close rfl hClose]
    have hAll : Capture.fresh.pushAll (opener :: (middle ++ [closer])) =
        (opened.expr.pushAll middle).push closer := by
      simp [opened, Capture.pushAll]
    simp [← hText, hAll, opened, hPart, hExpr]
  rw [takeAll_cons hFirst, takeAll_append hMiddle, takeAll_cons hLast]
  rfl

/-- A range is taken from bracket to bracket, nested ones included. -/
theorem takeAll_range {inside : List String} (h : item.Holds kind mode types "")
    (hInside : inside.foldlM squareDepth 0 = some 0)
    (hTokens : tokens.map (·.text) = "[" :: (inside ++ ["]"])) :
    takeAll ⟨item, found⟩ tokens =
      some ⟨{ item with range := collected ("[" :: (inside ++ ["]"])) }, found⟩ := by
  rw [takeAll_bracketed h.part h.expr hInside hTokens, h.range, String.empty_append]

/-- The range of an item may be left out. -/
theorem takeAll_rangeWords (found : Findings) (h : item.Holds kind mode types "")
    (hRange : text.range.all (fun inside => inside.foldlM squareDepth 0 == some 0) = true)
    (hTokens : tokens.map (·.text) = text.rangePieces) :
    ∃ item' : Item, takeAll ⟨item, found⟩ tokens = some ⟨item', found⟩ ∧
      item'.Holds kind mode types (collected text.rangeWords) := by
  cases hInside : text.range with
  | none =>
      obtain rfl : tokens = [] := by simpa [ItemText.rangePieces, hInside] using hTokens
      refine ⟨item, rfl, ?_⟩
      rw [ItemText.rangeWords, hInside]
      exact h
  | some inside =>
      simp only [hInside, Option.all_some, beq_iff_eq] at hRange
      have hWords : text.rangeWords = "[" :: (inside ++ ["]"]) := by
        rw [ItemText.rangeWords, hInside]
      have hPieces : text.rangePieces = " " :: text.rangeWords := by
        rw [ItemText.rangePieces, hInside]
      rw [hPieces, hWords] at hTokens
      obtain ⟨space, rest, rfl, hSpace, hRest⟩ := List.map_eq_cons_iff.1 hTokens
      refine ⟨{ item with range := collected text.rangeWords }, ?_, h.kind, h.part,
        h.direction, h.type, rfl, h.name, h.qualifies, h.expr⟩
      rw [takeAll_cons (take_gap h.expr (Token.isBlank_of_space hSpace)), hWords]
      exact takeAll_range h hRange hRest

/-- The value of a named item may be left out. -/
theorem takeAll_valueWords (found : Findings)
    (h : item.Holds kind mode text.types (collected text.rangeWords)) {name : Word}
    (hName : name.text = text.name)
    (hValue : text.value.all (fun value => value.foldlM (bracketDepth Symbol.isValue) 0 == some 0) =
      true)
    (hTokens : tokens.map (·.text) = led text.valueWords) :
    ∃ item' : Item, takeAll ⟨{ item with name := some name }, found⟩ tokens = some ⟨item', found⟩ ∧
      item'.Declares kind mode text := by
  cases hWords : text.value with
  | none =>
      obtain rfl : tokens = [] := by simpa [ItemText.valueWords, hWords, led] using hTokens
      refine ⟨_, rfl, h.kind, .inl h.part, h.direction, h.type, ?_, congrArg some hName, ?_,
        h.qualifies⟩
      · simp only [Item.rangeText, h.part, h.range]
      · simp only [Item.valueText, h.part, hWords]
        rfl
  | some value =>
      simp only [hWords, Option.all_some, beq_iff_eq] at hValue
      simp only [ItemText.valueWords, hWords, led_cons, List.map_eq_cons_iff] at hTokens
      obtain ⟨space, _, rfl, hSpace, equals, rest, rfl, hEquals, hRest⟩ := hTokens
      let opened : Item := { item with name := some name, part := .value 0, expr := .fresh }
      have hOpen : take ⟨{ item with name := some name }, found⟩ equals = some ⟨opened, found⟩ := by
        apply take_stay (isBlank_eq_false hEquals (by decide))
        have hHere : (Lexeme.ofToken equals).symbol = .equals := Lexeme.symbol_ofToken hEquals
        rw [Item.read, h.part]
        simp only [Item.readHead, hHere]
        rfl
      have hDepth : (rest.map (·.text)).foldlM (bracketDepth Symbol.isValue) 0 = some 0 := by
        rw [hRest]
        exact foldlM_led
          (fun _ => @Item.bracketDepth_of_isBlank .space _ (Token.isBlank_of_space rfl)) hValue
      refine ⟨{ opened with expr := opened.expr.pushAll rest }, ?_, h.kind, .inr rfl,
        h.direction, h.type, h.range, congrArg some hName, ?_, h.qualifies⟩
      · have hGap : take ⟨{ item with name := some name }, found⟩ space =
            some ⟨{ item with name := some name }, found⟩ :=
          take_gap h.expr (Token.isBlank_of_space hSpace)
        rw [takeAll_cons hGap, takeAll_cons hOpen]
        exact takeAll_inValue rfl rfl hDepth
      · rw [hWords]
        exact text_pushAll hRest

/-- An identifier becomes the name of the item. -/
theorem take_name (hPart : item.part = .head) (hNone : item.name = none) {name : String}
    (hSymbol : Symbol.ofText name = .name) (hRef : name ≠ "ref") (hName : token.text = name) :
    take ⟨item, found⟩ token =
      some ⟨{ item with name := some (Lexeme.ofToken token).word }, found⟩ := by
  have hHere : (Lexeme.ofToken token).symbol = .name := (Lexeme.symbol_ofToken hName).trans hSymbol
  have hDirection : isDirection (Lexeme.ofToken token).text = false := by
    show isDirection token.text = false
    rw [hName, isDirection_of_name hSymbol, decide_eq_false hRef]
  exact take_stay (isBlank_of_isNameLike (hName ▸ isNameLike_of_ofText hSymbol))
    (Item.read_identifier hPart hNone hHere hDirection)

/-- What is written behind the first word of an item is read back. Types in front of it count. -/
theorem takeAll_tail (found : Findings) {before : List Keyword} (h : item.Holds kind mode before "")
    (hText : text.isReadable = true) (hTokens : tokens.map (·.text) = text.tailPieces) :
    ∃ item' : Item, takeAll ⟨item, found⟩ tokens = some ⟨item', found⟩ ∧
      item'.Declares kind mode { text with types := before ++ text.types } := by
  simp only [ItemText.isReadable, Bool.and_eq_true, bne_iff_ne, beq_iff_eq] at hText
  obtain ⟨⟨⟨⟨hTypes, hRef⟩, hSymbol⟩, hRange⟩, hValue⟩ := hText
  simp only [ItemText.tailPieces, List.map_eq_append_iff, List.map_eq_cons_iff] at hTokens
  obtain ⟨typeTokens, _, rfl, hTypeTokens, rangeTokens, _, rfl, hRangeTokens, space, _, rfl, hSpace,
    nameToken, valueTokens, rfl, hName, hValueTokens⟩ := hTokens
  obtain ⟨typed, hTakeTypes, hTyped⟩ := takeAll_types found h hTypes hTypeTokens
  obtain ⟨ranged, hTakeRange, hRanged⟩ := takeAll_rangeWords found hTyped hRange hRangeTokens
  let full : ItemText := { text with types := before ++ text.types }
  have hFull : ranged.Holds kind mode full.types (collected full.rangeWords) := hRanged
  obtain ⟨last, hTakeValue, hLast⟩ := takeAll_valueWords found hFull
    (show (Lexeme.ofToken nameToken).word.text = full.name from hName) hValue hValueTokens
  refine ⟨last, ?_, hLast⟩
  rw [takeAll_append hTakeTypes, takeAll_append hTakeRange,
    takeAll_cons (take_gap hRanged.expr (Token.isBlank_of_space hSpace)),
    takeAll_cons (take_name hRanged.part hRanged.name hSymbol hRef hName), hTakeValue]

end Listing

end Verilog

end ReadingBack

end HdlIndex

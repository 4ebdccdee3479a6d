import HdlIndex.Proofs.Verilog.AlwaysExtent
import HdlIndex.Proofs.Verilog.ItemRoundTrip
import HdlIndex.Proofs.Verilog.WordOrder

/-! Names that are declared in one list, without values: the ports of a header, and the nets of a
body. Their direction, their types and their ranges carry over from one name to the next. What is
written for a name is added to what is carried, so that it holds for the names behind it too. -/
namespace HdlIndex.Verilog

/-- A part of a written list of names. -/
inductive ListPart where
  /-- A blank between two other parts. -/
  | gap (blank : String)
  | direction (word : Keyword)
  | type (word : Keyword)
  /-- A range with what stands in its brackets, blanks included. -/
  | range (inside : List String)
  | name (text : String)
  | comma
deriving DecidableEq

namespace ListPart

def isGap : ListPart → Bool
  | gap _ => true
  | _ => false

/-- The texts of the tokens of a part. -/
def pieces : ListPart → List String
  | gap blank => [blank]
  | direction word | type word => [word.text]
  | range inside => "[" :: (inside ++ ["]"])
  | name text => [text]
  | comma => [","]

/-- The types are built in, brackets match inside of a range, and a name is no direction. -/
def isReadable : ListPart → Bool
  | gap blank => blank.toList.all Text.isAsciiBlank
  | direction word => directions.contains word
  | type word => isDataType word
  | range inside => inside.all isPlainText && inside.foldlM squareDepth 0 == some 0
  | name text => isIdentifier text && text != "ref"
  | comma => true

/-- Nothing in a part is quoted or commented out. -/
theorem isPlainText_pieces {part : ListPart} (h : part.isReadable = true) :
    ∀ piece ∈ part.pieces, isPlainText piece = true := by
  have hKeyword (word : Keyword) : isPlainText word.text = true :=
    isPlainText_of_isKeyword (by rw [Symbol.ofText_keyword]; rfl)
  cases part with
  | gap blank => exact List.forall_mem_singleton.2 (@isPlainText_of_isBlank ⟨blank, .empty 0⟩ h)
  | direction word => exact List.forall_mem_singleton.2 (hKeyword word)
  | type word => exact List.forall_mem_singleton.2 (hKeyword word)
  | range inside =>
      simp only [isReadable, Bool.and_eq_true, List.all_eq_true] at h
      rw [pieces, List.forall_mem_cons, List.forall_mem_append, List.forall_mem_singleton]
      exact ⟨by decide, h.1, by decide⟩
  | name text =>
      simp only [isReadable, Bool.and_eq_true] at h
      exact List.forall_mem_singleton.2 (isPlainText_of_isIdentifier h.1)
  | comma => decide

theorem isBlank_of_isGap {part : ListPart} {token : Token} (h : part.isReadable = true)
    (hGap : part.isGap = true) (hToken : token.text ∈ part.pieces) : token.isBlank = true := by
  cases part with
  | gap blank =>
      obtain rfl := List.mem_singleton.1 hToken
      exact h
  | _ => cases hGap

end ListPart

/-- A name with what is written for it. -/
structure Declarator where
  /-- A direction in front of everything else. -/
  lead : Option Keyword := none
  types : List Keyword := []
  /-- What stands in the brackets of the range in front of the name. -/
  range : Option (List String) := none
  name : String
  /-- What stands in the brackets of the range behind the name. -/
  dimension : Option (List String) := none
deriving DecidableEq

namespace Declarator

/-- The parts of a declarator without the blanks between them. -/
def parts (declarator : Declarator) : List ListPart :=
  declarator.lead.toList.map .direction ++ (declarator.types.map .type ++
    (declarator.range.toList.map .range ++
      .name declarator.name :: declarator.dimension.toList.map .range))

/-- Neither types nor a range stand in front of the name. -/
def isBare (declarator : Declarator) : Bool :=
  declarator.types.isEmpty && declarator.range.isNone

end Declarator

/-- The parts of a list of declarators without the blanks between them. -/
def declaratorParts (declarators : List Declarator) : List ListPart :=
  List.intercalate [.comma] (declarators.map (·.parts))

/-- The attributes that hold for a name. A range is given by what stands in its brackets. -/
structure Attributes where
  direction : String := ""
  types : List Keyword := []
  ranges : List (List String) := []

namespace Attributes

/-- The first type word. -/
def keyword (attributes : Attributes) : String := (attributes.types.head?.map Keyword.text).getD ""

def typeText (attributes : Attributes) : String :=
  " ".intercalate (attributes.types.map (·.text))

/-- The ranges one behind the other. -/
def rangeText (attributes : Attributes) : String :=
  String.join (attributes.ranges.map fun inside => collected ("[" :: (inside ++ ["]"])))

/-- What is carried to the types of a declarator. A direction puts all other attributes out of
force. -/
def upTo (carried : Attributes) (declarator : Declarator) : Attributes :=
  match declarator.lead with
  | some word => { direction := word.text }
  | none => carried

/-- The attributes with what is written for a name added to them. -/
def add (carried : Attributes) (declarator : Declarator) : Attributes :=
  let begun := carried.upTo declarator
  { begun with
    types := begun.types ++ declarator.types
    ranges := begun.ranges ++ (declarator.range.toList ++ declarator.dimension.toList) }

/-- The attributes with what is written in front of a name in their place. -/
def replace (carried : Attributes) (declarator : Declarator) : Attributes :=
  let begun := carried.upTo declarator
  if declarator.isBare then begun
  else { begun with types := declarator.types, ranges := declarator.range.toList }

/-- The attributes of one name, with the range behind it. -/
def withDimension (attributes : Attributes) (declarator : Declarator) : Attributes :=
  { attributes with ranges := attributes.ranges ++ declarator.dimension.toList }

/-- Adding to what is carried makes no difference: types and ranges stand in front of a name only
where none are carried, and a range behind a name only in front of the next direction. -/
def keepsApart : Attributes → List Declarator → Bool
  | _, [] => true
  | carried, declarator :: rest =>
    (declarator.lead.isSome || declarator.isBare ||
      (carried.types.isEmpty && carried.ranges.isEmpty)) &&
    (declarator.dimension.isNone || rest.head?.all (·.lead.isSome)) &&
    (carried.add declarator).keepsApart rest

end Attributes

/-- The lists of names that are declared without values. -/
inductive DeclaratorList where
  | ports (owner : Owner)
  | nets

namespace DeclaratorList

def kind : DeclaratorList → ItemKind
  | ports _ => .port
  | nets => .bodyNet

/-- The list as the walk reads it. -/
def itemList : DeclaratorList → ItemList
  | ports owner => .ports owner
  | nets => .body

/-- Where the list begins. -/
def place : DeclaratorList → Place
  | ports owner => .portList owner { kind := .port }
  | nets => .moduleBody

/-- The mark that ends the list. -/
def closer : DeclaratorList → String
  | ports _ => ")"
  | nets => ";"

/-- The walk behind the list. -/
def leave (list : DeclaratorList) (walk : Walk) : Walk :=
  match list with
  | ports owner => walk.goto owner.place
  | nets => walk.endItem

/-- A declaration in a body begins with a type. -/
def begins (list : DeclaratorList) (declarators : List Declarator) : Bool :=
  match list with
  | ports _ => true
  | nets => declarators.head?.any fun first => first.lead.isNone && ! first.types.isEmpty

/-- The rows that names of the list are added to. -/
def declared (list : DeclaratorList) (found : Findings) : Declarations :=
  match list with
  | ports _ => found.ports
  | nets => found.objects

/-- Adds rows to them. -/
def extend (list : DeclaratorList) (rows : List Row) (found : Findings) : Findings :=
  match list with
  | ports _ => { found with ports.rows := found.ports.rows ++ rows.toArray }
  | nets => { found with objects.rows := found.objects.rows ++ rows.toArray }

/-- The name gets a row of its own. A declaration in the body that names a port does not. -/
def isNew (list : DeclaratorList) (found : Findings) (name : String) : Bool :=
  match list with
  | ports _ => true
  | nets => (found.ports.find? name).isNone

/-- The texts of the row of a name. The mode of a port is its direction, and that of a net its first
type word. -/
def row (list : DeclaratorList) (attributes : Attributes) (name : String) : List String :=
  let mode := match list with
    | ports _ => attributes.direction
    | nets => attributes.keyword
  [name, mode, attributes.typeText, attributes.rangeText, ""]

/-- The rows with what is written for each name added to what is carried. -/
def recordedRows (list : DeclaratorList) : Attributes → List Declarator → List (List String)
  | _, [] => []
  | carried, declarator :: rest =>
    list.row (carried.add declarator) declarator.name ::
      list.recordedRows (carried.add declarator) rest

/-- The rows with exactly what is written for each name: types and ranges in front of it take the
place of those that are carried, and the range behind it is its own. -/
def statedRows (list : DeclaratorList) : Attributes → List Declarator → List (List String)
  | _, [] => []
  | carried, declarator :: rest =>
    list.row ((carried.replace declarator).withDimension declarator) declarator.name ::
      list.statedRows (carried.replace declarator) rest

end DeclaratorList

variable {list : DeclaratorList} {carried other : Attributes} {declarator : Declarator}
  {declarators : List Declarator} {part : ListPart} {parts : List ListPart} {found : Findings}
  {rows others : List Row} {before : Walk}

namespace Attributes

/-- Replacing what is carried over and adding to it come to the same unless types or ranges are
carried over to a declarator that has none in front of its name. -/
theorem add_eq (h : declarator.lead.isSome || declarator.isBare ||
      (carried.types.isEmpty && carried.ranges.isEmpty)) :
    carried.add declarator = (carried.replace declarator).withDimension declarator := by
  have hBare : declarator.isBare = true → declarator.types = [] ∧ declarator.range = none := by
    simp [Declarator.isBare]
  simp only [add, replace, withDimension, upTo]
  cases hLead : declarator.lead with
  | some word =>
      cases hOwn : declarator.isBare with
      | true => simp [hBare hOwn]
      | false => simp
  | none =>
      cases hOwn : declarator.isBare with
      | true => simp [hBare hOwn]
      | false => simp_all

/-- A direction makes it irrelevant what is carried. -/
theorem replace_of_lead (h : declarator.lead.isSome = true) :
    carried.replace declarator = other.replace declarator := by
  obtain ⟨word, hWord⟩ := Option.isSome_iff_exists.1 h
  simp only [replace, upTo, hWord]

end Attributes

namespace DeclaratorList

/-- A list that starts with its own type takes nothing from what was carried over. -/
theorem statedRows_of_lead (h : declarators.head?.all (·.lead.isSome) = true) :
    list.statedRows carried declarators = list.statedRows other declarators := by
  cases declarators with
  | nil => rfl
  | cons declarator rest =>
      rw [statedRows, statedRows, Attributes.replace_of_lead (by simpa using h)]

/-- Where adding makes no difference, each name gets what is written for it. -/
theorem recordedRows_eq (h : carried.keepsApart declarators = true) :
    list.recordedRows carried declarators = list.statedRows carried declarators := by
  induction declarators generalizing carried with
  | nil => rfl
  | cons declarator rest ih =>
      simp only [Attributes.keepsApart, Bool.and_eq_true] at h
      obtain ⟨⟨hOwn, hDimension⟩, hRest⟩ := h
      rw [recordedRows, statedRows, ih hRest, Attributes.add_eq hOwn]
      congr 1
      rcases Bool.or_eq_true_iff.1 hDimension with hNone | hLead
      · have hNone : declarator.dimension = none := by simpa using hNone
        simp [Attributes.withDimension, hNone]
      · exact statedRows_of_lead hLead

theorem closer_eq : list.closer = ")" ∨ list.closer = ";" := by
  cases list with
  | ports owner => exact .inl rfl
  | nets => exact .inr rfl

theorem texts_extend (list : DeclaratorList) (rows : List Row) (found : Findings) :
    (list.declared (list.extend rows found)).texts =
      (list.declared found).texts ++ rows.map (·.texts) := by
  cases list <;> simp [declared, extend, Declarations.texts]

theorem extend_nil : list.extend [] found = found := by
  cases list <;> simp [extend]

theorem extend_extend :
    list.extend others (list.extend rows found) = list.extend (rows ++ others) found := by
  cases list <;> simp [extend]

end DeclaratorList

/-- A list as far as it is read: the attributes in force, the name under way, and the rows so
far. -/
structure Progress where
  attributes : Attributes
  name : Option String := none
  rows : List (List String) := []

namespace Progress

variable {progress next last : Progress}

/-- The rows once the name under way is recorded. -/
def recorded (list : DeclaratorList) (progress : Progress) : List (List String) :=
  progress.rows ++ (progress.name.map (list.row progress.attributes)).toList

/-- What a part does. There is no result for a second name in front of a comma. -/
def take? (list : DeclaratorList) (progress : Progress) : ListPart → Option Progress
  | .gap _ => some progress
  | .direction word => some { progress with attributes := { direction := word.text } }
  | .type word => some { progress with attributes.types := progress.attributes.types ++ [word] }
  | .range inside =>
      some { progress with attributes.ranges := progress.attributes.ranges ++ [inside] }
  | .name text => if progress.name.isSome then none else some { progress with name := some text }
  | .comma => some { progress with name := none, rows := progress.recorded list }

/-- Blanks make no difference. -/
theorem foldlM_filter :
    (parts.filter (! ·.isGap)).foldlM (take? list) progress =
      parts.foldlM (take? list) progress := by
  induction parts generalizing progress with
  | nil => rfl
  | cons part parts ih =>
      cases part with
      | gap blank =>
          rw [List.filter_cons_of_neg (by simp [ListPart.isGap]), List.foldlM_cons]
          exact ih
      | _ =>
          rw [List.filter_cons_of_pos (by simp [ListPart.isGap]), List.foldlM_cons,
            List.foldlM_cons]
          exact congrArg _ (funext fun next => ih)

/-- Type words are taken one after the other and joined with spaces. -/
theorem foldlM_types (types : List Keyword) :
    (types.map ListPart.type).foldlM (take? list) progress =
      some { progress with attributes.types := progress.attributes.types ++ types } := by
  induction types generalizing progress with
  | nil => simp
  | cons word types ih =>
      rw [List.map_cons, List.foldlM_cons, take?, Option.bind_eq_bind, Option.bind_some, ih]
      simp

theorem foldlM_range (range : Option (List String)) :
    (range.toList.map ListPart.range).foldlM (take? list) progress =
      some { progress with attributes.ranges := progress.attributes.ranges ++ range.toList } := by
  cases range <;> simp [take?]

/-- A declarator adds what is written for its name. -/
theorem foldlM_declarator {rows : List (List String)} :
    declarator.parts.foldlM (take? list) ⟨carried, none, rows⟩ =
      some ⟨carried.add declarator, some declarator.name, rows⟩ := by
  have hLead : (declarator.lead.toList.map ListPart.direction).foldlM (take? list) ⟨carried,
      none, rows⟩ = some ⟨carried.upTo declarator, none, rows⟩ := by
    rw [Attributes.upTo]
    cases declarator.lead <;> simp [take?]
  simp only [Declarator.parts, List.foldlM_append, hLead, foldlM_types, foldlM_range,
    List.foldlM_cons, take?, Option.bind_eq_bind, Option.bind_some, Option.isSome_none,
    Attributes.add, List.append_assoc, Bool.false_eq_true, if_false]

/-- A list of declarators gives its rows. -/
theorem foldlM_declaratorParts {rows : List (List String)} :
    ∃ last, (declaratorParts declarators).foldlM (take? list) ⟨carried, none, rows⟩ = some last ∧
      last.recorded list = rows ++ list.recordedRows carried declarators := by
  induction declarators generalizing carried rows with
  | nil => exact ⟨_, rfl, rfl⟩
  | cons declarator rest ih =>
      cases rest with
      | nil =>
          refine ⟨⟨carried.add declarator, some declarator.name, rows⟩, ?_, rfl⟩
          simpa [declaratorParts] using foldlM_declarator
      | cons next rest =>
          obtain ⟨last, hLast, hRows⟩ := @ih (carried.add declarator)
            (rows ++ [list.row (carried.add declarator) declarator.name])
          refine ⟨last, ?_, ?_⟩
          · rw [← hLast, declaratorParts, List.map_cons, List.map_cons, List.intercalate_cons_cons,
              List.append_assoc, List.foldlM_append, foldlM_declarator]
            rfl
          · rw [hRows, List.append_assoc]
            rfl

end Progress

/-- The list is read as far as the progress says, and its rows are found besides what was found
before. -/
structure Listing.Follows (list : DeclaratorList) (before : Findings) (progress : Progress)
    (listing : Listing) : Prop where
  kind : listing.item.kind = list.kind
  part : listing.item.part = .head
  direction : listing.item.direction = progress.attributes.direction
  keyword : listing.item.keyword = progress.attributes.keyword
  type : listing.item.type.map (·.text) = typeText? progress.attributes.types
  range : listing.item.range = progress.attributes.rangeText
  name : listing.item.name.map (·.text) = progress.name
  qualifies : listing.item.qualifies = false
  expr : listing.item.expr = .idle
  isNew : ∀ name ∈ progress.name, list.isNew before name = true
  found : ∃ rows : List Row, rows.map Row.texts = progress.rows ∧
    listing.found = list.extend rows before

/-- A type word is the keyword of an item only where it is the first. -/
theorem Item.keyword_pushType {item : Item} {here : Lexeme} {word : Keyword}
    (h : item.keyword = carried.keyword) (hText : here.text = word.text) :
    (item.pushType here).keyword =
      Attributes.keyword { carried with types := carried.types ++ [word] } := by
  have hSome (word : Keyword) : word.text.isEmpty = false := by cases word <;> rfl
  rw [Item.pushType, h, hText, Attributes.keyword, Attributes.keyword]
  cases carried.types with
  | nil => rfl
  | cons first types => simp [hSome first]

namespace Listing

variable {before : Findings} {progress next last : Progress} {listing : Listing} {item : Item}
  {token : Token} {tokens : List Token}

/-- A list begins without attributes. -/
theorem follows_start : Follows list before ⟨{}, none, []⟩ ⟨{ kind := list.kind }, before⟩ :=
  ⟨rfl, rfl, rfl, rfl, rfl, rfl, rfl, rfl, rfl, by simp, [], rfl, DeclaratorList.extend_nil.symm⟩

/-- Recording the name under way adds its row. -/
theorem Follows.recorded (h : listing.Follows list before progress)
    (hSettled : (list.declared before).pending = #[]) :
    ∃ rows : List Row, rows.map Row.texts = progress.recorded list ∧
      listing.recorded = list.extend rows before := by
  obtain ⟨rows, hRows, hFound⟩ := h.found
  have hName := h.name
  rw [Progress.recorded, ← hRows, Listing.recorded, hFound]
  cases hItem : listing.item.name with
  | none =>
      rw [hItem] at hName
      refine ⟨rows, by simp [← hName], by rw [Walk.declare, hItem]⟩
  | some name =>
      rw [hItem, Option.map_some] at hName
      have hType : (listing.item.type.map (·.text)).getD "" = progress.attributes.typeText := by
        rw [h.type, getD_typeText?, Attributes.typeText]
      have hRange : listing.item.rangeText = progress.attributes.rangeText := by
        rw [Item.rangeText, h.part, h.range]
      have hValue : listing.item.valueText = "" := by rw [Item.valueText, h.part]
      let mode := match list with
        | .ports _ => listing.item.direction
        | .nets => listing.item.keyword
      let row := Declarations.completed mode listing.item.type listing.item.rangeText "" name
      refine ⟨rows ++ [row], ?_, ?_⟩
      · rw [List.map_append, List.map_singleton, ← hName, Declarations.texts_completed,
          hType, hRange]
        simp only [mode, h.direction, h.keyword]
        rfl
      · rw [← DeclaratorList.extend_extend, Walk.declare, hItem, h.kind]
        cases list with
        | ports owner =>
            have hPending : (DeclaratorList.extend (.ports owner) rows before).ports.pending =
                #[] := hSettled
            simp only [DeclaratorList.kind, Declarations.pushRow_eq hPending, hValue]
            simp [DeclaratorList.extend, row, mode]
        | nets =>
            have hPending : (DeclaratorList.extend .nets rows before).objects.pending = #[] :=
              hSettled
            have hNone : (DeclaratorList.extend .nets rows before).ports.find? name.text = none :=
              Option.isNone_iff_eq_none.1 (h.isNew _ hName.symm)
            simp only [DeclaratorList.kind, Walk.declareNet, hNone,
              Declarations.pushRow_eq hPending, hValue]
            simp [DeclaratorList.extend, row, mode]

/-- A part is taken as the progress says. -/
theorem Follows.takeAll_part (h : listing.Follows list before progress)
    (hSettled : (list.declared before).pending = #[]) (hPart : part.isReadable = true)
    (hNew : ∀ name, part = .name name → list.isNew before name = true)
    (hNext : progress.take? list part = some next) (hTokens : tokens.map (·.text) = part.pieces) :
    ∃ last, listing.takeAll tokens = some last ∧ last.Follows list before next := by
  obtain ⟨item, found⟩ := listing
  cases part with
  | gap blank =>
      obtain rfl := Option.some.inj hNext
      obtain ⟨token, rfl, hText⟩ := List.map_eq_singleton_iff.1 hTokens
      have hBlank : token.isBlank = true := by rwa [Token.isBlank, hText]
      exact ⟨⟨item, found⟩, takeAll_cons (take_gap h.expr hBlank), h⟩
  | direction word =>
      obtain rfl := Option.some.inj hNext
      obtain ⟨token, rfl, hText⟩ := List.map_eq_singleton_iff.1 hTokens
      have hWord : word ∈ directions := List.contains_iff_mem.1 hPart
      have hRead : item.read (.ofToken token) =
          .stay { item.restart with direction := word.text } :=
        (Item.read_directionWord h.part (Lexeme.symbol_keyword word hText) hWord).trans
          (by rw [← hText]; rfl)
      exact ⟨_, takeAll_cons (take_stay (isBlank_keyword hText) hRead),
        h.kind, h.part, rfl, rfl, rfl, rfl, h.name, h.qualifies, h.expr, h.isNew, h.found⟩
  | type word =>
      obtain rfl := Option.some.inj hNext
      obtain ⟨token, rfl, hText⟩ := List.map_eq_singleton_iff.1 hTokens
      have hRead := Item.read_dataType h.part (Lexeme.symbol_keyword word hText) hPart
      exact ⟨_, takeAll_cons (take_stay (isBlank_keyword hText) hRead), h.kind, h.part, h.direction,
        Item.keyword_pushType h.keyword hText, Item.type_pushType h.type hText, h.range, h.name,
        h.qualifies, h.expr, h.isNew, h.found⟩
  | range inside =>
      obtain rfl := Option.some.inj hNext
      simp only [ListPart.isReadable, Bool.and_eq_true, beq_iff_eq] at hPart
      refine ⟨_, takeAll_bracketed h.part h.expr hPart.2 hTokens, h.kind, h.part,
        h.direction, h.keyword, h.type, ?_, h.name, h.qualifies, h.expr, h.isNew, h.found⟩
      rw [show item.range = progress.attributes.rangeText from h.range]
      simp [Attributes.rangeText]
  | name name =>
      simp only [ListPart.isReadable, isIdentifier, Bool.and_eq_true, bne_iff_ne,
        beq_iff_eq] at hPart
      obtain ⟨token, rfl, hText⟩ := List.map_eq_singleton_iff.1 hTokens
      rw [Progress.take?] at hNext
      split at hNext
      · cases hNext
      next hNone =>
      obtain rfl := Option.some.inj hNext
      have hItem : item.name = none := by
        have hName : item.name.map (·.text) = progress.name := h.name
        rw [Option.not_isSome_iff_eq_none.1 hNone] at hName
        exact Option.map_eq_none_iff.1 hName
      exact ⟨_, takeAll_cons (take_name h.part hItem hPart.1.2 hPart.2 hText), h.kind, h.part,
        h.direction, h.keyword, h.type, h.range, congrArg some hText, h.qualifies,
        h.expr, by simpa using hNew name rfl, h.found⟩
  | comma =>
      obtain rfl := Option.some.inj hNext
      obtain ⟨token, rfl, hText⟩ := List.map_eq_singleton_iff.1 hTokens
      have hEnded : item.IsEnded list.kind := ⟨h.kind, .inl h.part⟩
      refine ⟨_, takeAll_cons (take_comma hEnded hText), h.kind, rfl, h.direction, h.keyword,
        h.type, ?_, rfl, h.qualifies, rfl, by simp, h.recorded hSettled⟩
      rw [Item.afterName, Item.rangeText, h.part, h.range]

/-- The parts of a list are taken one after the other, as the progress says. -/
theorem Follows.takeAll_parts (h : listing.Follows list before progress)
    (hSettled : (list.declared before).pending = #[])
    (hParts : ∀ part ∈ parts, part.isReadable = true)
    (hNew : ∀ name, .name name ∈ parts → list.isNew before name = true)
    (hLast : parts.foldlM (Progress.take? list) progress = some last)
    (hTokens : tokens.map (·.text) = parts.flatMap (·.pieces)) :
    ∃ behind, listing.takeAll tokens = some behind ∧ behind.Follows list before last := by
  induction parts generalizing listing progress tokens with
  | nil =>
      obtain rfl : tokens = [] := by simpa using hTokens
      obtain rfl := Option.some.inj hLast
      exact ⟨listing, rfl, h⟩
  | cons part parts ih =>
      rw [List.forall_mem_cons] at hParts
      rw [List.foldlM_cons] at hLast
      obtain ⟨next, hNext, hLast⟩ := Option.bind_eq_some_iff.1 hLast
      rw [List.flatMap_cons] at hTokens
      obtain ⟨front, back, rfl, hFront, hBack⟩ := List.map_eq_append_iff.1 hTokens
      obtain ⟨middle, hTake, hMiddle⟩ := h.takeAll_part hSettled hParts.1
        (fun name hName => hNew name (hName ▸ List.mem_cons_self)) hNext hFront
      obtain ⟨behind, hTakeRest, hBehind⟩ :=
        ih hMiddle hParts.2 (fun name hMem => hNew name (List.mem_cons_of_mem _ hMem)) hLast hBack
      exact ⟨behind, by rw [takeAll_append hTake, hTakeRest], hBehind⟩

/-- Blanks in front of a list are passed over. -/
theorem takeAll_gaps (hExpr : item.expr = .idle)
    (hTokens : ∀ token ∈ tokens, token.isBlank = true) :
    takeAll ⟨item, found⟩ tokens = some ⟨item, found⟩ := by
  induction tokens with
  | nil => rfl
  | cons token tokens ih =>
      rw [List.forall_mem_cons] at hTokens
      rw [takeAll_cons (take_gap hExpr hTokens.1), ih hTokens.2]

end Listing

/-- The walk is where the list begins. -/
structure DeclaratorList.IsAt (list : DeclaratorList) (walk : Walk) : Prop where
  place : walk.place = list.place
  label : walk.label = .idle
  /-- In front of a declaration in a body no choice of a case is to come. -/
  awaitsChoice : list = .nets → walk.awaitsChoice = false

namespace Walk

variable {before : Walk} {listing last : Listing} {token : Token} {tokens : List Token}
  {after : Option Token}

/-- A type word begins a declaration in a body, and it is read as part of it. -/
theorem read_type {walk : Walk} {word : Keyword} (hPlace : walk.place = .moduleBody)
    (hChoice : walk.awaitsChoice = false) (hText : token.text = word.text)
    (hWord : isDataType word = true) (next : Option Lexeme) :
    walk.read (.ofToken token) next =
      (walk.goto (.declaration { kind := .bodyNet })).read (.ofToken token) next := by
  have hHere := Lexeme.symbol_keyword word hText
  have hItem : walk.readItem (.ofToken token) next =
      walk.readDeclaration { kind := .bodyNet } (.ofToken token) := by
    simp only [readItem, hChoice, hHere, Bool.false_and, Bool.false_eq_true, if_false]
    cases word with
    | _ => first | rfl | cases hWord
  rw [read, hPlace]
  simp only [hItem, read, goto, readDeclaration]
  cases Item.read { kind := .bodyNet } (.ofToken token) <;> rfl

/-- A declaration in a body is followed from its first type word on. -/
theorem leads_declaration {front back : List Token} {word : Keyword}
    (hChoice : before.awaitsChoice = false)
    (hFront : ∀ token ∈ front, token.isBlank = true) (hText : token.text = word.text)
    (hWord : isDataType word = true)
    (hTake : Listing.takeAll ⟨{ kind := .bodyNet }, before.found⟩ (front ++ token :: back) =
      some last) :
    machine.Leads (front ++ token :: back) after (before.Stands .moduleBody)
      (Stands { before with found := last.found } (.declaration last.item)) := by
  rw [Listing.takeAll_append (Listing.takeAll_gaps rfl hFront), Listing.takeAll] at hTake
  obtain ⟨middle, hFirst, hRest⟩ := Option.bind_eq_some_iff.1 hTake
  have hBlank := Listing.isBlank_keyword hText
  have hSignificant : significant front = [] := List.filter_eq_nil_iff.2 (by simpa using hFront)
  have hGaps : machine.LeadsThrough [] ((significant (token :: back)).head?.or after)
      (before.Stands .moduleBody) (before.Stands .moduleBody) := .nil (Awaits.idle fun _ _ => rfl)
  have hBack : machine.Leads back after
      (Stands { before with found := middle.found } (ItemList.body.place middle.item))
      (Stands { before with found := last.found } (.declaration last.item)) :=
      leads_takeAll .body before hRest
  refine (hGaps front hSignificant).append (.word hBlank (fun event walk hEvent hWalk => ?_) hBack)
  obtain rfl : event = _ := hEvent
  refine hWalk.reads fun notes => ⟨notes, ?_⟩
  refine (read_type rfl ?_ hText hWord _).trans (read_of_take rfl rfl hBlank hFirst _)
  exact hChoice

/-- The mark behind the list records the name under way. -/
theorem read_closer {walk : Walk} {item : Item} (hPlace : walk.place = list.itemList.place item)
    (hEnded : item.IsEnded list.kind) (hText : token.text = list.closer) (next : Option Lexeme) :
    walk.read (.ofToken token) next = list.leave ((walk.flush item).goto .moduleBody) := by
  rw [read, hPlace]
  cases list with
  | ports owner =>
      have hRead := hEnded.read_close rfl hText
      simp only [DeclaratorList.itemList, ItemList.place, readPorts, hRead]
      rfl
  | nets =>
      have hRead := hEnded.read_semicolon hText
      simp only [DeclaratorList.itemList, ItemList.place, readDeclaration, hRead]
      rfl

end Walk

/-- The walk is behind the list with what is found, apart from its notes. -/
def DeclaratorList.Leaves (list : DeclaratorList) (before : Walk) (found : Findings) (walk : Walk) :
    Prop :=
  ∃ notes, walk = { list.leave before with found, notes }

/-- What is found and noted in the list does not matter behind it. -/
theorem DeclaratorList.leave_with (hBefore : list.IsAt before) (found : Findings)
    (notes : List Note) :
    list.leave { before with place := .moduleBody, label := .idle, found, notes } =
      { list.leave before with found, notes } := by
  cases list with
  | ports owner =>
      have hLabel := hBefore.label
      simp only [leave, Walk.goto, hLabel]
  | nets =>
      have hPlace : before.place = .moduleBody := hBefore.place
      rw [leave, leave, Walk.endItem_eq, Walk.endItem_eq, ← hPlace, ← hBefore.label]
      rfl

/-- The mark behind the list ends it. -/
theorem Walk.leads_closer {last : Listing} {closer : Token} {after : Option Token}
    (hStart : list.IsAt before) (hEnded : last.item.IsEnded list.kind)
    (hText : closer.text = list.closer) :
    machine.Leads [closer] after
      (Stands { before with found := last.found } (list.itemList.place last.item))
      (list.Leaves before last.recorded) := by
  have hBlank : closer.isBlank = false := by
    refine isBlank_eq_false hText ?_
    rcases list.closer_eq with hEq | hEq <;> rw [hEq] <;> decide
  refine .word hBlank (fun event walk hEvent hWalk => ?_) .nil
  obtain rfl : event = _ := hEvent
  exact hWalk.reads fun notes =>
    ⟨notes, (read_closer rfl hEnded hText _).trans (DeclaratorList.leave_with hStart _ notes)⟩

/-- The first part of a declaration in a body that is no blank is a type. -/
theorem exists_type (hBegins : DeclaratorList.nets.begins declarators = true)
    (hDeclarators : parts.filter (! ·.isGap) = declaratorParts declarators) :
    ∃ front word back, parts = front ++ .type word :: back ∧ ∀ part ∈ front, part.isGap = true := by
  obtain ⟨first, rest, rfl⟩ : ∃ first rest, declarators = first :: rest := by
    cases declarators with
    | nil => cases hBegins
    | cons first rest => exact ⟨first, rest, rfl⟩
  simp only [DeclaratorList.begins, List.head?_cons, Option.any_some, Bool.and_eq_true,
    Option.isNone_iff_eq_none, Bool.not_eq_true', List.isEmpty_eq_false_iff] at hBegins
  obtain ⟨word, types, hTypes⟩ := List.exists_cons_of_ne_nil hBegins.2
  obtain ⟨others, hOthers⟩ : ∃ others, declaratorParts (first :: rest) = .type word :: others := by
    cases rest <;> simp [declaratorParts, Declarator.parts, hBegins.1, hTypes]
  rw [hOthers] at hDeclarators
  obtain ⟨front, back, hParts, hFront, -⟩ := List.filter_eq_cons_iff.1 hDeclarators
  exact ⟨front, word, back, hParts, by simpa using hFront⟩

/-- The names among the parts are those of the declarators. -/
theorem exists_of_name_mem {name : String} (h : .name name ∈ declaratorParts declarators) :
    ∃ declarator ∈ declarators, declarator.name = name := by
  rcases mem_of_mem_intercalate h with hComma | ⟨parts, hParts, hMem⟩
  · simp at hComma
  · obtain ⟨declarator, hDeclarator, rfl⟩ := List.mem_map.1 hParts
    refine ⟨declarator, hDeclarator, ?_⟩
    simpa [Declarator.parts, eq_comm] using hMem

/-- A list of declarators is followed to its end, and recording its last name completes its rows. -/
theorem Walk.leads_declarators {tokens : List Token} (hStart : list.IsAt before)
    (hSettled : (list.declared before.found).pending = #[])
    (hNew : ∀ declarator ∈ declarators, list.isNew before.found declarator.name = true)
    (hBegins : list.begins declarators = true) (hParts : ∀ part ∈ parts, part.isReadable = true)
    (hDeclarators : parts.filter (! ·.isGap) = declaratorParts declarators)
    (hTokens : tokens.map (·.text) = parts.flatMap (·.pieces)) :
    ∃ (last : Listing) (rows : List Row), last.item.IsEnded list.kind ∧
      rows.map Row.texts = list.recordedRows {} declarators ∧
      last.recorded = list.extend rows before.found ∧
      ∀ after, machine.Leads tokens after (before.Stands list.place)
        (Stands { before with found := last.found } (list.itemList.place last.item)) := by
  obtain ⟨progress, hProgress, hRecorded⟩ :=
    @Progress.foldlM_declaratorParts list {} declarators []
  rw [← hDeclarators, Progress.foldlM_filter] at hProgress
  have hNames : ∀ name, .name name ∈ parts → list.isNew before.found name = true := by
    intro name hMem
    have hPart : .name name ∈ declaratorParts declarators := by
      rw [← hDeclarators]
      exact List.mem_filter.2 ⟨hMem, rfl⟩
    obtain ⟨declarator, hDeclarator, rfl⟩ := exists_of_name_mem hPart
    exact hNew declarator hDeclarator
  obtain ⟨last, hTake, hLast⟩ :=
    Listing.follows_start.takeAll_parts hSettled hParts hNames hProgress hTokens
  obtain ⟨rows, hRows, hFound⟩ := hLast.recorded hSettled
  refine ⟨last, rows, ⟨hLast.kind, .inl hLast.part⟩, hRows.trans hRecorded, hFound, fun after => ?_⟩
  cases list with
  | ports owner => exact leads_takeAll (.ports owner) before hTake
  | nets =>
      obtain ⟨front, word, back, rfl, hFront⟩ := exists_type hBegins hDeclarators
      rw [List.flatMap_append, List.flatMap_cons] at hTokens
      obtain ⟨gaps, _, rfl, hGaps, hBehind⟩ := List.map_eq_append_iff.1 hTokens
      obtain ⟨token, rest, rfl, hText, -⟩ := List.map_eq_cons_iff.1 hBehind
      rw [List.forall_mem_append, List.forall_mem_cons] at hParts
      refine leads_declaration (hStart.awaitsChoice rfl) (fun gap hMem => ?_) hText hParts.2.1 hTake
      have hGap : gap.text ∈ front.flatMap (·.pieces) := hGaps ▸ List.mem_map_of_mem hMem
      obtain ⟨part, hPart, hPiece⟩ := List.mem_flatMap.1 hGap
      exact ListPart.isBlank_of_isGap (hParts.1 part hPart) (hFront part hPart) hPiece

/-- A list of names is found as it is written, whatever stands in front of it and behind it. Each
name gets a row, to whose attributes all types and ranges contribute that are written between the
last direction and the comma behind the name. Nothing else changes but what changes behind every
item. Where these types and ranges are written for that name alone, or in front of the first of the
names that share them, the row says exactly what is written for it. -/
theorem run_declarators (start : Walk) (reader : Reader) (tokens rest : List Token)
    (list : DeclaratorList) (declarators : List Declarator) (parts : List ListPart)
    (hStart : list.IsAt (start.run reader.events.toList)) (hReader : reader.mode = .code)
    (hSettled : (list.declared (start.run reader.events.toList).found).pending = #[])
    (hNew : ∀ declarator ∈ declarators,
      list.isNew (start.run reader.events.toList).found declarator.name = true)
    (hBegins : list.begins declarators = true) (hParts : ∀ part ∈ parts, part.isReadable = true)
    (hDeclarators : parts.filter (! ·.isGap) = declaratorParts declarators)
    (hTokens : (tokens.filter (! ·.isEmpty)).map (·.text) = parts.flatMap (·.pieces) ++
      [list.closer]) :
    let before := start.run reader.events.toList
    let behind := start.run (reader.readBefore rest tokens).events.toList
    ∃ (rows : List Row) (notes : List Note),
      behind = { list.leave before with found := list.extend rows before.found, notes } ∧
      rows.map Row.texts = list.recordedRows {} declarators ∧
      (Attributes.keepsApart {} declarators = true →
        rows.map Row.texts = list.statedRows {} declarators) := by
  intro before behind
  have hPlain : ∀ token ∈ tokens, isPlainText token.text = true := by
    refine isPlainText_of_filter ?_
    rw [hTokens, List.forall_mem_append, List.forall_mem_singleton]
    constructor
    · intro piece hMem
      obtain ⟨part, hPart, hPiece⟩ := List.mem_flatMap.1 hMem
      exact ListPart.isPlainText_pieces (hParts part hPart) piece hPiece
    · rcases list.closer_eq with hEq | hEq <;> rw [hEq] <;> decide
  obtain ⟨inner, _, hInner, hTexts, hCloser⟩ := List.map_eq_append_iff.1 hTokens
  obtain ⟨closer, rfl, hText⟩ := List.map_eq_singleton_iff.1 hCloser
  obtain ⟨last, rows, hEnded, hRows, hFound, hLeads⟩ :=
    Walk.leads_declarators hStart hSettled hNew hBegins hParts hDeclarators hTexts
  have hAll : machine.Leads tokens (Token.nextSignificant comments none rest)
      (before.Stands list.place) (list.Leaves before last.recorded) := by
    apply leads_of_filter
    rw [hInner]
    exact (hLeads _).append (Walk.leads_closer hStart hEnded hText)
  obtain ⟨notes, hBehind⟩ : list.Leaves before last.recorded behind :=
    Walk.run_readBefore hReader hPlain hAll ⟨before.notes, by rw [← hStart.place, ← hStart.label]⟩
  refine ⟨rows, notes, by rw [hBehind, hFound], hRows, fun hApart => ?_⟩
  rw [hRows, DeclaratorList.recordedRows_eq hApart]

/-- The ports say what is written for them. The range behind the first net is found for the second
one too. -/
theorem run_declarators_mixed :
    let header := "input wire a [ 1], output b, c)"
    let body := "reg [7:0] m[3], n;"
    let tokens (text : String) := (tokenize delimiters none false text).list
    let behind (place : Place) (text : String) :=
      ({ place } : Walk).run (Reader.readBefore [] {} (tokens text)).events.toList
    (behind (.portList .module { kind := .port }) header).found.ports.texts =
        [["a", "input", "wire", "[ 1]", ""], ["b", "output", "", "", ""],
          ["c", "output", "", "", ""]] ∧
      (behind .moduleBody body).found.objects.texts =
        [["m", "reg", "reg", "[7:0][3]", ""], ["n", "reg", "reg", "[7:0][3]", ""]] := by
  intro header body tokens behind
  constructor
  · let declarators : List Declarator :=
      [{ lead := some .input, types := [.wire], name := "a", dimension := some [" ", "1"] },
        { lead := some .output, name := "b" }, { name := "c" }]
    let parts : List ListPart :=
      [.direction .input, .gap " ", .type .wire, .gap " ", .name "a", .gap " ",
        .range [" ", "1"], .comma,
        .gap " ", .direction .output, .gap " ", .name "b", .comma, .gap " ", .name "c"]
    obtain ⟨rows, notes, hBehind, -, hRows⟩ :=
      run_declarators { place := .portList .module { kind := .port } } {} (tokens header) []
        (.ports .module)
        declarators parts ⟨rfl, rfl, by simp⟩ rfl rfl (fun _ _ => rfl) rfl (by decide +kernel)
        (by decide +kernel) (by decide +kernel)
    have hFound := congrArg (Declarations.texts ∘ Findings.ports ∘ Walk.found) hBehind
    refine hFound.trans ((DeclaratorList.texts_extend (.ports .module) rows _).trans ?_)
    rw [hRows (by decide +kernel)]
    decide +kernel
  · let declarators : List Declarator :=
      [{ types := [.reg], range := some ["7", ":", "0"], name := "m", dimension := some ["3"] },
        { name := "n" }]
    let parts : List ListPart :=
      [.type .reg, .gap " ", .range ["7", ":", "0"], .gap " ", .name "m", .range ["3"],
        .comma, .gap " ", .name "n"]
    obtain ⟨rows, notes, hBehind, hRows, -⟩ :=
      run_declarators { place := .moduleBody } {} (tokens body) [] .nets declarators parts
        ⟨rfl, rfl, fun _ => rfl⟩ rfl rfl (by decide +kernel) rfl (by decide +kernel)
        (by decide +kernel)
        (by decide +kernel)
    have hFound := congrArg (Declarations.texts ∘ Findings.objects ∘ Walk.found) hBehind
    refine hFound.trans ((DeclaratorList.texts_extend .nets rows _).trans ?_)
    rw [hRows]
    decide +kernel

/-- A range behind a name reaches the next name of a declaration, and a port that has a type and a
range of its own has those of the port in front of it too. -/
theorem scan_declarators_shared :
    (scan .moduleBody none "wire a[3],b;").table.objects.texts ≠
        DeclaratorList.nets.statedRows {}
          [{ types := [.wire], name := "a", dimension := some ["3"] }, { name := "b" }] ∧
      (scan .portList none "input wire[3:0]a,reg[1:0]b").table.ports.texts ≠
        (DeclaratorList.ports .text).statedRows {}
          [{ lead := some .input, types := [.wire], range := some ["3", ":", "0"], name := "a" },
            { types := [.reg], range := some ["1", ":", "0"], name := "b" }] := by
  decide +kernel

end HdlIndex.Verilog

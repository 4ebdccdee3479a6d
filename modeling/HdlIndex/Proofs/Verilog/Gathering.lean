import HdlIndex.Proofs.Symbols.InOrder
import HdlIndex.Proofs.Verilog.EnclosedList

/-! What reading a word adds to the names of each category. It is the word itself, and at most once.
The name of a declaration or of an instance waits at its place until the walk knows what it is. So
what a walk has of a category, recorded or waiting, is taken one by one from the words that it
reads. -/
namespace HdlIndex.Verilog

/-- The categories of names, without clocked signals. -/
inductive Category where
  | modules
  | ports
  | parameters
  | objects
  | instances
  | labels
  | packages
deriving DecidableEq

/-- The recorded names of a category. -/
def Findings.entries (found : Findings) (category : Category) : List Word :=
  match category with
  | .modules => found.modules.entries.toList
  | .ports => found.ports.names
  | .parameters => found.parameters.names
  | .objects => found.objects.names
  | .instances => found.instances.toList.map (·.name)
  | .labels => found.labels.entries.toList
  | .packages => found.packages.entries.toList

/-- What the names of an item are recorded as, unless they are known already. -/
def ItemKind.category : ItemKind → Category
  | parameterPort | bodyParameter => .parameters
  | port | bodyPort => .ports
  | bodyNet | bodyLocalparam => .objects

/-- The name of an item that waits to be recorded. -/
def Item.held (item : Item) (category : Category) : List Word :=
  if category = item.kind.category then item.name.toList else []

/-- The name of a statement that begins with one: that of an instance, or of a declared object. -/
def Instantiation.held (statement : Instantiation) (category : Category) : List Word :=
  if category = .instances ∨ category = .objects then statement.name.toList else []

/-- The names that wait at a place to be recorded. -/
def Place.held (place : Place) (category : Category) : List Word :=
  match place with
  | .parameterList _ _ item | .portList _ item | .declaration item => item.held category
  | .instanceHeader statement _ | .instanceMap statement _ => statement.held category
  | _ => []

/-- Nothing waits at the place. -/
def Place.IsPlain (place : Place) : Prop := ∀ category, place.held category = []

theorem Owner.isPlain_place (owner : Owner) : owner.place.IsPlain := by
  cases owner <;> exact fun _ => rfl

theorem Item.held_eq_nil (item : Item) (h : item.name = none) (category : Category) :
    item.held category = [] := by
  rw [Item.held, h]
  exact ite_self _

theorem Item.held_afterName (item : Item) (category : Category) :
    item.afterName.held category = [] :=
  item.afterName.held_eq_nil rfl category

theorem Instantiation.held_eq_nil {statement : Instantiation} (h : statement.name = none)
    (category : Category) : statement.held category = [] := by
  rw [Instantiation.held, h]
  exact ite_self _

namespace Item

variable {item other : Item} {here : Lexeme} {depth : Nat}

/-- A name is either taken or, as the end of a qualified type, left out. -/
theorem name_pushName (item : Item) (here : Lexeme) :
    (item.pushName here).name = none ∨ (item.pushName here).name = some here.word := by
  rw [pushName]
  split
  · exact .inr rfl
  · split
    · exact .inl rfl
    · exact .inr rfl

/-- In the head of an item the name stays, is taken from the word, or is given up for a type. -/
theorem name_readHead (h : item.readHead here = .stay other) :
    other.name = item.name ∨ other.name = none ∨ other.name = some here.word := by
  have hPush := item.name_pushName here
  rw [readHead] at h
  split at h
  all_goals try cases h
  all_goals try exact .inl rfl
  · split at h <;> cases h
    exact .inl rfl
  · split
    · exact .inl rfl
    · exact .inl rfl
  · split
    · exact .inl rfl
    · exact .inr hPush

/-- A range has no names to declare. -/
theorem name_readRange (h : item.readRange depth here = .stay other) : other.name = item.name := by
  unfold readRange at h
  dsimp only at h
  split at h
  · cases h
    rfl
  · split at h <;> cases h <;> rfl
  · cases h
    rfl

/-- A value has no name to declare. -/
theorem name_readValue (h : item.readValue depth here = .stay other) : other.name = item.name := by
  unfold readValue at h
  dsimp only at h
  split at h
  all_goals try split at h
  all_goals cases h
  all_goals rfl

/-- An item keeps its name, or takes the word that is read for it. -/
theorem held_read (h : item.read here = .stay other) (category : Category) :
    (other.held category).Sublist (item.held category ++ [here.word]) := by
  have hName : other.name = item.name ∨ other.name = none ∨ other.name = some here.word := by
    rw [read] at h
    split at h
    · exact name_readHead h
    · exact .inl (name_readRange h)
    · exact .inl (name_readValue h)
  rw [Item.held, Item.held, kind_read h]
  split
  · rcases hName with hSame | hNone | hHere
    · rw [hSame]
      exact List.sublist_append_left _ _
    · rw [hNone]
      exact List.nil_sublist _
    · rw [hHere]
      exact List.sublist_append_right _ _
  · exact List.nil_sublist _

end Item

namespace Findings

variable {found other : Findings} {name : Word} {item : Item}

/-- The same names are recorded. -/
def SameNames (found other : Findings) : Prop :=
  ∀ category, other.entries category = found.entries category

/-- A name is added to a category, and no other one is. -/
def Adds (category : Category) (name : Word) (found other : Findings) : Prop :=
  ∀ next, other.entries next = found.entries next ++ if next = category then [name] else []

/-- A port that is known keeps its name. -/
theorem declarePort_names (found : Findings) (item : Item) (name : Word) :
    found.SameNames (Walk.declarePort found item name) ∨
      found.Adds .ports name (Walk.declarePort found item name) := by
  rw [Walk.declarePort]
  split
  · refine .inl fun category => ?_
    cases category <;> simp [entries, Declarations.names_update]
  · refine .inr fun category => ?_
    cases category <;> simp [entries, Declarations.names_pushRow]

/-- A net is a new name among the objects, or it adds to the row of a port. -/
theorem declareNet_names (found : Findings) (item : Item) (name : Word) :
    found.SameNames (Walk.declareNet found item name) ∨
      found.Adds .objects name (Walk.declareNet found item name) := by
  rw [Walk.declareNet]
  split
  · refine .inl fun category => ?_
    cases category <;> simp [entries, Declarations.names_update]
  · refine .inr fun category => ?_
    cases category <;> simp [entries, Declarations.names_pushRow]

/-- An item adds its name to the category of its kind, or to none. -/
theorem declare_names (found : Findings) (hName : item.name = some name) :
    found.SameNames (Walk.declare found item) ∨
      found.Adds item.kind.category name (Walk.declare found item) := by
  rw [Walk.declare, hName]
  cases item.kind with
  | bodyPort => exact declarePort_names found item name
  | bodyNet => exact declareNet_names found item name
  | _ =>
      refine .inr fun category => ?_
      cases category <;> simp [entries, ItemKind.category, Declarations.names_pushRow]

/-- What is recorded of an item is the name that waits in it. -/
theorem entries_declare (found : Findings) (item : Item) (category : Category) :
    ((Walk.declare found item).entries category).Sublist
      (found.entries category ++ item.held category) := by
  cases hName : item.name with
  | none =>
      rw [Walk.declare, hName]
      exact List.sublist_append_left _ _
  | some name =>
      rcases found.declare_names hName with hSame | hAdds
      · exact hSame category ▸ List.sublist_append_left _ _
      · rw [hAdds category, Item.held, hName, Option.toList_some]

end Findings

namespace Walk

/-- What the walk has of a category, recorded or waiting. -/
def trail (walk : Walk) (category : Category) : List Word :=
  walk.found.entries category ++ walk.place.held category

/-- What reading a word adds to the names that the walk has. -/
def Gathers (here : Word) (walk other : Walk) : Prop :=
  ∀ category, (other.trail category).Sublist (walk.trail category ++ [here])

theorem found_backToBody (walk : Walk) : walk.backToBody.found = walk.found :=
  (Idles.endItem (walk.goto .moduleBody)).found

theorem isPlain_backToBody (walk : Walk) : walk.backToBody.place.IsPlain := by
  intro category
  rw [backToBody, (Idles.endItem (walk.goto .moduleBody)).place]
  rfl

/-- The name of an item waits no more when it is recorded. -/
theorem trail_flush {walk other : Walk} (item : Item)
    (hHeld : ∀ category, (item.held category).Sublist (walk.place.held category))
    (hFound : (walk.flush item).found.SameNames other.found) (hPlace : other.place.IsPlain)
    (category : Category) : (other.trail category).Sublist (walk.trail category) := by
  rw [Walk.trail, Walk.trail, hFound category, hPlace category, List.append_nil]
  exact (walk.found.entries_declare item category).trans
    ((List.Sublist.refl _).append (hHeld category))

/-- What ends with the text records the name under way and nothing else, so that names do not change
their order. -/
theorem trail_flushAt (walk : Walk) (offset : Nat) (category : Category) :
    ((walk.flushAt offset).trail category).Sublist (walk.trail category) := by
  have hItem : ∀ {item : Item}, (∀ category, walk.place.held category = item.held category) →
      ∀ category, (item.held category).Sublist (walk.place.held category) :=
    fun hHeld category => hHeld category ▸ List.Sublist.refl _
  unfold Walk.flushAt
  split
  · next owner inside item hPlace =>
    refine trail_flush item (hItem fun _ => ?_) (fun _ => ?_) owner.isPlain_place category
    · rw [hPlace]
      rfl
    · rfl
  · next owner item hPlace =>
    refine trail_flush item (hItem fun _ => ?_) (fun _ => ?_) owner.isPlain_place category
    · rw [hPlace]
      rfl
    · rfl
  · next item hPlace =>
    refine trail_flush item (hItem fun _ => ?_) (fun _ => ?_) (fun _ => rfl) category
    · rw [hPlace]
      rfl
    · rfl
  · exact List.Sublist.refl _

namespace Gathers

variable {walk base other : Walk} {place : Place} {item : Item} {owner : Owner} {home : Home}
  {here : Lexeme} {word : Word} {next : Option Lexeme} {statement : Instantiation} {depth : Nat}

theorem refl (word : Word) (walk : Walk) : walk.Gathers word walk :=
  fun _ => List.sublist_append_left _ _

theorem idles (h : walk.Idles other) : walk.Gathers word other := by
  intro category
  rw [Walk.trail, h.place, h.found]
  exact List.sublist_append_left _ _

/-- The walk goes on where at most the word waits beside what waited before. -/
theorem holds (hFound : walk.found.SameNames other.found)
    (hHeld : ∀ category,
      (other.place.held category).Sublist (walk.place.held category ++ [word])) :
    walk.Gathers word other := by
  intro category
  rw [Walk.trail, Walk.trail, hFound category, List.append_assoc]
  exact (List.Sublist.refl _).append (hHeld category)

/-- The walk goes on where nothing waits. -/
theorem leaves (hFound : walk.found.SameNames other.found) (hPlace : other.place.IsPlain) :
    walk.Gathers word other :=
  holds hFound fun category => hPlace category ▸ List.nil_sublist _

theorem goto (hPlace : place.IsPlain) : walk.Gathers word (walk.goto place) :=
  leaves (fun _ => rfl) hPlace

theorem backToBody (hFound : walk.found.SameNames base.found) : walk.Gathers word base.backToBody :=
  leaves (base.found_backToBody ▸ hFound) base.isPlain_backToBody

theorem resume : walk.Gathers word (walk.resume home) := by
  cases home with
  | moduleContext => exact goto fun _ => rfl
  | moduleHeader announced => exact goto fun _ => rfl
  | moduleBody => exact backToBody fun _ => rfl

/-- The word is recorded where nothing waits. -/
theorem records (category : Category) (hFound : walk.found.Adds category word other.found)
    (hPlace : other.place.IsPlain) : walk.Gathers word other := by
  intro next
  rw [Walk.trail, Walk.trail, hFound next, hPlace next, List.append_nil, List.append_assoc]
  refine (List.Sublist.refl _).append ?_
  split
  · exact List.sublist_append_right _ _
  · exact List.nil_sublist _

/-- The name of an item is recorded, and the walk goes on where nothing waits. -/
theorem flush (hHeld : ∀ category, (item.held category).Sublist (walk.place.held category))
    (hFound : (walk.flush item).found.SameNames other.found) (hPlace : other.place.IsPlain) :
    walk.Gathers word other := fun category =>
  (trail_flush item hHeld hFound hPlace category).trans (List.sublist_append_left _ _)

theorem closeParameters
    (hHeld : ∀ category, (item.held category).Sublist (walk.place.held category))
    (inside offset : Nat) :
    walk.Gathers word ((walk.flush item).closeParameters owner inside offset) :=
  flush hHeld (fun _ => rfl) owner.isPlain_place

/-- A parameter list adds the name of an item when the item ends. -/
theorem readParameters {inside : Nat} (h : walk.place = .parameterList owner inside item) :
    walk.Gathers here.word (walk.readParameters owner inside item here) := by
  have hHeld : ∀ category, walk.place.held category = item.held category := fun _ => by rw [h]; rfl
  have hSame : ∀ category, (item.held category).Sublist (walk.place.held category) :=
    fun category => hHeld category ▸ List.Sublist.refl _
  rw [Walk.readParameters]
  split
  · next hRead =>
    exact holds (fun _ => rfl) fun category => hHeld category ▸ Item.held_read hRead category
  · exact flush hSame (fun _ => rfl) item.held_afterName
  · exact flush hSame (fun _ => rfl) item.held_afterName
  · exact closeParameters hSame _ _

/-- And so does a port list. -/
theorem readPorts (h : walk.place = .portList owner item) :
    walk.Gathers here.word (walk.readPorts owner item here) := by
  have hHeld : ∀ category, walk.place.held category = item.held category := fun _ => by rw [h]; rfl
  have hSame : ∀ category, (item.held category).Sublist (walk.place.held category) :=
    fun category => hHeld category ▸ List.Sublist.refl _
  rw [Walk.readPorts]
  split
  · next hRead =>
    exact holds (fun _ => rfl) fun category => hHeld category ▸ Item.held_read hRead category
  · exact flush hSame (fun _ => rfl) item.held_afterName
  · exact flush hSame (fun _ => rfl) item.held_afterName
  · exact flush hSame (fun _ => rfl) owner.isPlain_place

/-- A declaration may begin with what waits in front of it. -/
theorem readDeclaration
    (hHeld : ∀ category, (item.held category).Sublist (walk.place.held category)) :
    walk.Gathers here.word (walk.readDeclaration item here) := by
  have hBody : walk.Gathers here.word (walk.flush item).backToBody :=
    flush hHeld (fun category => by rw [found_backToBody]) (isPlain_backToBody _)
  rw [Walk.readDeclaration]
  split
  · next hRead =>
    exact holds (fun _ => rfl) fun category => (Item.held_read hRead category).trans
      ((hHeld category).append (List.Sublist.refl _))
  · exact flush hHeld (fun _ => rfl) item.held_afterName
  · exact hBody
  · exact hBody

theorem readContext : walk.Gathers word (walk.readContext here) := by
  rw [Walk.readContext]
  split
  all_goals try exact goto fun _ => rfl
  exact refl word walk

theorem readModuleName : walk.Gathers here.word (walk.readModuleName here) := by
  rw [Walk.readModuleName]
  split
  · refine records .modules (fun category => ?_) fun _ => rfl
    cases category <;>
      simp [Walk.goto, Walk.collect, Walk.note, Findings.entries, Words.push]
  · exact refl _ walk

/-- A header has no names outside of its lists. -/
theorem readModuleHeader {announced : Bool} :
    walk.Gathers word (walk.readModuleHeader announced here) := by
  have hItem : ∀ kind category, Item.held { kind } category = [] := fun kind =>
    Item.held_eq_nil { kind } rfl
  rw [Walk.readModuleHeader]
  split
  · exact goto fun _ => rfl
  · split
    · exact goto (hItem _)
    · exact goto (hItem _)
  · exact backToBody fun _ => rfl
  · exact goto fun _ => rfl
  · exact refl word walk

/-- An import adds the package in front of `::`. -/
theorem readImport (h : walk.place = .importClause home) :
    walk.Gathers here.word (walk.readImport home here next) := by
  have hPackage : walk.Gathers here.word (walk.collect fun found =>
      { found with packages := found.packages.push here.word }) := by
    refine records .packages (fun category => ?_) fun category => ?_
    · cases category <;> simp [Walk.collect, Findings.entries, Words.push]
    · rw [Walk.collect, h]
      rfl
  rw [Walk.readImport]
  split
  · exact resume
  · split
    · exact hPackage
    · exact refl _ walk
  · split
    · exact hPackage
    · exact refl _ walk
  · exact refl _ walk

theorem readSkippedBlock {closer : Keyword} :
    walk.Gathers word (walk.readSkippedBlock closer home here) := by
  rw [Walk.readSkippedBlock]
  split
  · exact resume
  · exact refl word walk

/-- What is passed over adds no name. -/
theorem readSkipped : walk.Gathers word (walk.readSkipped depth here) := by
  rw [Walk.readSkipped]
  split
  · exact goto fun _ => rfl
  split
  · exact goto fun _ => rfl
  split
  · exact backToBody fun _ => rfl
  · exact refl word walk

/-- The choice of a case adds no name. -/
theorem readChoice {expr : Capture} : walk.Gathers word (walk.readChoice depth expr here) := by
  rw [Walk.readChoice]
  dsimp only
  split
  · exact leaves (fun _ => rfl) fun _ => rfl
  split
  · exact goto fun _ => rfl
  split
  · exact goto fun _ => rfl
  · exact goto fun _ => rfl

/-- A generate header changes frames, and declares no name. -/
theorem readGenerate {kind : GenerateKind} {expr : Capture} :
    walk.Gathers word (walk.readGenerate kind depth expr here next) := by
  have hEntered := Idles.enterGenerate walk kind expr.text next
  rw [Walk.readGenerate]
  dsimp only
  split
  · exact goto fun _ => rfl
  split
  · exact goto fun _ => rfl
  split
  · exact leaves (fun category => by rw [Walk.goto, hEntered.found]) fun _ => rfl
  split
  · exact goto fun _ => rfl
  split
  · exact goto fun _ => rfl
  · exact refl word walk

section Instance

theorem held_instance {statement : Instantiation} (h : walk.place = .instanceHeader statement depth)
    (category : Category) : walk.place.held category = statement.held category := by
  rw [h]
  rfl

/-- The statement keeps its name, or takes the word that is read for it. -/
theorem gotoInstance {other : Instantiation} (h : walk.place = .instanceHeader statement depth)
    (hName : other.name = statement.name ∨ other.name = some word) (depth' : Nat) :
    walk.Gathers word (walk.goto (.instanceHeader other depth')) := by
  refine holds (fun _ => rfl) fun category => ?_
  rw [held_instance h]
  show (other.held category).Sublist _
  rw [Instantiation.held, Instantiation.held]
  split
  · rcases hName with hSame | hHere
    · rw [hSame]
      exact List.sublist_append_left _ _
    · rw [hHere]
      exact List.sublist_append_right _ _
  · exact List.nil_sublist _

/-- The name of an instance is gathered from the word that is read. -/
theorem readInstanceName (h : walk.place = .instanceHeader statement depth) :
    walk.Gathers here.word (walk.readInstanceName statement here) := by
  rw [Walk.readInstanceName]
  dsimp only
  split
  · exact gotoInstance h (.inl rfl) 0
  split
  · exact gotoInstance h (.inr rfl) 0
  · exact refl _ walk

/-- The name that waits becomes that of an instance. -/
theorem commitInstance {type name : Word} (h : walk.place = .instanceHeader statement depth)
    (hName : statement.name = some name) (hPlace : place.IsPlain) :
    walk.Gathers word ((walk.commitInstance type name).goto place) := by
  intro category
  have hFound : ((walk.commitInstance type name).goto place).found.entries category =
      walk.found.entries category ++ if category = .instances then [name] else [] := by
    cases category <;> simp [Walk.goto, Walk.commitInstance, Walk.collect, Walk.note,
      Findings.entries]
  have hHeld : (if category = .instances then [name] else []).Sublist
      (statement.held category) := by
    rw [Instantiation.held, hName]
    split
    · next hInstances => simp [hInstances]
    · exact List.nil_sublist _
  rw [Walk.trail, Walk.trail, hFound, held_instance h, Walk.goto, hPlace category, List.append_nil,
    List.append_assoc]
  exact (List.Sublist.refl _).append (hHeld.trans (List.sublist_append_left _ _))

/-- What started as an instance may turn out to be a declaration; in either case the names gathered
come from the words read so far. -/
theorem readInstance (h : walk.place = .instanceHeader statement depth) :
    walk.Gathers here.word (walk.readInstance statement depth here) := by
  have hDeclares : ∀ name, statement.name = some name → walk.Gathers here.word
      (walk.readDeclaration { kind := .bodyNet, type := some statement.type, name := some name }
        here) := by
    intro name hName
    refine readDeclaration fun category => ?_
    rw [held_instance h, Item.held, Instantiation.held, hName]
    split
    · next hObjects =>
      rw [if_pos (.inr hObjects)]
    · exact List.nil_sublist _
  rw [Walk.readInstance]
  dsimp only
  split
  · split
    · exact gotoInstance h (.inl rfl) _
    · exact gotoInstance h (.inl rfl) _
    · exact refl _ walk
  split
  · exact gotoInstance h (.inl rfl) 0
  · next hName => exact commitInstance h hName (Instantiation.held_eq_nil rfl)
  · split
    · exact gotoInstance h (.inl rfl) 1
    · exact goto fun _ => rfl
  · exact gotoInstance h (.inl rfl) 0
  · next hName => exact hDeclares _ hName
  · next hName => exact hDeclares _ hName
  · next hName => exact hDeclares _ hName
  · next hName => exact hDeclares _ hName
  · exact backToBody fun _ => rfl
  · exact readInstanceName h
  · exact goto fun _ => rfl

/-- The connections of an instance are passed over, and declare nothing. -/
theorem readMap (h : walk.place = .instanceMap statement depth) :
    walk.Gathers word (walk.readMap statement depth here) := by
  have hStatement : ∀ place : Place, (∀ category, place.held category = statement.held category) →
      walk.Gathers word (walk.goto place) := by
    intro place hPlace
    refine holds (fun _ => rfl) fun category => ?_
    have hHeld : walk.place.held category = statement.held category := by
      rw [h]
      rfl
    rw [hHeld, Walk.goto, hPlace category]
    exact List.sublist_append_left _ _
  unfold Walk.readMap
  split
  · exact hStatement _ fun _ => rfl
  split
  · exact hStatement _ fun _ => rfl
  split
  · exact hStatement _ fun _ => rfl
  · exact backToBody fun _ => rfl
  · exact refl word walk

end Instance

end Gathers

end Walk

end HdlIndex.Verilog

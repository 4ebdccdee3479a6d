import HdlIndex.Proofs.Symbols.InOrder
import HdlIndex.Proofs.Vhdl.Turns
import HdlIndex.Vhdl.Walk

/-! Labels and the instances they name, and what reading a word adds to the names of each category.
A label is recorded when its colon is read, and an instance when the walk knows that its statement
is one; between the two the label waits. So labels stay in the order of the text, the labels of the
instances are some of them, and each instantiated unit stands between the label in front of it and
the next one. What a walk has of a category, recorded or waiting, is taken one by one from the words
that it reads. -/
namespace HdlIndex

namespace Vhdl

/-- What a walk has of labels and instances. -/
structure Naming where
  instances : List Instance
  labels : List Word
  /-- The label that no statement has taken. -/
  label : Option Word
  /-- The word that the statement under way begins with. -/
  first : Option Word
  /-- The component that the statement instantiates, if the next word agrees. -/
  unit : Option Word

namespace Naming

/-- What reading a word does to labels and instances. -/
inductive Step (here : Word) (naming : Naming) : Naming → Prop where
  | stays : Step here naming naming
  /-- A statement is left or read on. -/
  | goes {label first unit : Option Word} (hLabel : label = none ∨ label = naming.label)
      (hFirst : first = none ∨ first = naming.first ∨ first = some here)
      (hUnit : unit = none ∨ unit = first) : Step here naming { naming with label, first, unit }
  /-- The word that the statement begins with is its label. -/
  | takes {label : Word} (hFirst : naming.first = some label) :
      Step here naming
        { naming with
          labels := naming.labels ++ [label], label := some label, first := none, unit := none }
  /-- The statement is an instance of the component that it begins with, or of a unit that is
  read. -/
  | commits {label unit : Word} (library : String) (hLabel : naming.label = some label)
      (hUnit : naming.unit = some unit ∨ unit.IsPartOf here) :
      Step here naming
        { naming with
          instances := naming.instances ++ [⟨label, unit, library⟩]
          label := none, first := none, unit := none }

/-- The labels of instances with the units between them, and what may become one of them. -/
def chain (naming : Naming) : List Word :=
  naming.instances.flatMap (fun entry => [entry.label, entry.unit]) ++
    (naming.label.toList ++ naming.first.toList)

/-- In front of a byte offset the labels and the words of instances are in order. The label of an
instance is one of the labels, and so is one that waits. -/
structure Ordered (offset : Nat) (naming : Naming) : Prop where
  labels : Word.AreInOrder (naming.labels ++ naming.first.toList)
  texts : ∀ word ∈ naming.labels ++ naming.first.toList,
    word.HasText ∧ word.span.stop ≤ offset
  used : (naming.instances.map (·.label) ++ naming.label.toList).Sublist naming.labels
  chain : naming.chain.Pairwise (·.span.stop ≤ ·.span.start)
  ends : ∀ word ∈ naming.chain, word.span.start ≤ word.span.stop ∧ word.span.stop ≤ offset
  unit : naming.unit = none ∨ naming.unit = naming.first

variable {naming other : Naming} {offset later : Nat} {here part : Word}

theorem ordered_empty (offset : Nat) : Ordered offset ⟨[], [], none, none, none⟩ := by
  constructor <;> simp [Word.AreInOrder, Naming.chain]

/-- Words may be left out of a chain, and one may be added behind it. -/
theorem Ordered.chain_of_sublist (h : naming.Ordered offset)
    (hChain : other.chain.Sublist (naming.chain ++ [part])) (hBehind : offset ≤ part.span.start)
    (hSize : part.span.start ≤ part.span.stop) (hStop : part.span.stop ≤ later) :
    other.chain.Pairwise (·.span.stop ≤ ·.span.start) ∧
      ∀ word ∈ other.chain, word.span.start ≤ word.span.stop ∧ word.span.stop ≤ later := by
  have hLater : offset ≤ later := (hBehind.trans hSize).trans hStop
  have hLonger : (naming.chain ++ [part]).Pairwise (·.span.stop ≤ ·.span.start) := by
    rw [List.pairwise_append]
    refine ⟨h.chain, List.pairwise_singleton _ _, fun word hMem last hLast => ?_⟩
    obtain rfl := List.mem_singleton.1 hLast
    exact (h.ends word hMem).2.trans hBehind
  refine ⟨hLonger.sublist hChain, fun word hMem => ?_⟩
  rcases List.mem_append.1 (hChain.subset hMem) with hOld | hLast
  · exact ⟨(h.ends word hOld).1, (h.ends word hOld).2.trans hLater⟩
  · obtain rfl := List.mem_singleton.1 hLast
    exact ⟨hSize, hStop⟩

/-- So it is with labels. -/
theorem Ordered.labels_of_sublist (h : naming.Ordered offset)
    (hLabels : (other.labels ++ other.first.toList).Sublist
      (naming.labels ++ naming.first.toList ++ [here]))
    (hBehind : offset ≤ here.span.start) (hText : here.HasText) :
    Word.AreInOrder (other.labels ++ other.first.toList) ∧
      ∀ word ∈ other.labels ++ other.first.toList, word.HasText ∧
        word.span.stop ≤ here.span.stop := by
  have hLater : offset ≤ here.span.stop := hBehind.trans hText.le
  have hLonger : Word.AreInOrder (naming.labels ++ naming.first.toList ++ [here]) := by
    rw [Word.AreInOrder, List.pairwise_append]
    refine ⟨h.labels, List.pairwise_singleton _ _, fun word hMem last hLast => ?_⟩
    obtain rfl := List.mem_singleton.1 hLast
    obtain ⟨hWord, hStop⟩ := h.texts word hMem
    exact ⟨hWord.trans_le (hStop.trans hBehind), hStop.trans hBehind⟩
  refine ⟨hLonger.sublist hLabels, fun word hMem => ?_⟩
  rcases List.mem_append.1 (hLabels.subset hMem) with hOld | hLast
  · exact ⟨(h.texts word hOld).1, (h.texts word hOld).2.trans hLater⟩
  · obtain rfl := List.mem_singleton.1 hLast
    exact ⟨hText, Nat.le_refl _⟩

namespace Step

/-- A label is a word that is read, or the one that the statement begins with. -/
theorem labels (h : naming.Step here other) :
    (other.labels ++ other.first.toList).Sublist (naming.labels ++ naming.first.toList ++
      [here]) := by
  cases h with
  | stays => exact List.sublist_append_left _ _
  | @goes label first unit hLabel hFirst hUnit =>
      have hKept : first.toList.Sublist (naming.first.toList ++ [here]) := by
        rcases hFirst with rfl | rfl | rfl <;> simp
      rw [List.append_assoc]
      exact (List.Sublist.refl _).append hKept
  | takes hFirst => simp [hFirst]
  | commits library hLabel hUnit => simp

/-- An instance takes the label that waits. -/
theorem used (h : naming.Step here other)
    (hUsed : (naming.instances.map (·.label) ++ naming.label.toList).Sublist naming.labels) :
    (other.instances.map (·.label) ++ other.label.toList).Sublist other.labels := by
  cases h with
  | stays => exact hUsed
  | @goes label first unit hLabel hFirst hUnit =>
      have hKept : label.toList.Sublist naming.label.toList := by
        rcases hLabel with rfl | rfl <;> simp
      exact ((List.Sublist.refl _).append hKept).trans hUsed
  | takes hFirst =>
      exact ((List.sublist_append_left _ _).trans hUsed).append (List.Sublist.refl _)
  | @commits label unit library hLabel hUnit => simpa [hLabel] using hUsed

/-- A component that waits is the word its statement begins with, or none waits. -/
theorem unit (h : naming.Step here other)
    (hUnit : naming.unit = none ∨ naming.unit = naming.first) :
    other.unit = none ∨ other.unit = other.first := by
  cases h with
  | stays => exact hUnit
  | goes hLabel hFirst hUnit => exact hUnit
  | takes hFirst => exact .inl rfl
  | commits library hLabel hUnit => exact .inl rfl

/-- A unit is the word that the statement begins with, or a part of the word that is read. -/
theorem chain (h : naming.Step here other)
    (hUnit : naming.unit = none ∨ naming.unit = naming.first) :
    ∃ part : Word, part.IsPartOf here ∧ other.chain.Sublist (naming.chain ++ [part]) := by
  have hWhole : here.IsPartOf here := fun _ _ => id
  cases h with
  | stays => exact ⟨here, hWhole, List.sublist_append_left _ _⟩
  | @goes label first unit hLabel hFirst _ =>
      have hLabelKept : label.toList.Sublist naming.label.toList := by
        rcases hLabel with rfl | rfl <;> simp
      have hFirstKept : first.toList.Sublist (naming.first.toList ++ [here]) := by
        rcases hFirst with rfl | rfl | rfl <;> simp
      refine ⟨here, hWhole, ?_⟩
      rw [Naming.chain, Naming.chain, List.append_assoc, List.append_assoc]
      exact (List.Sublist.refl _).append (hLabelKept.append hFirstKept)
  | takes hFirst =>
      refine ⟨here, hWhole, ?_⟩
      rw [Naming.chain, Naming.chain, hFirst, List.append_assoc]
      refine (List.Sublist.refl _).append ?_
      simp
  | @commits label unit library hLabel hTaken =>
      rcases hTaken with hSome | hPart
      · have hFirst : naming.first = some unit := by
          rcases hUnit with hNone | hSame
          · simp [hNone] at hSome
          · exact hSame.symm.trans hSome
        exact ⟨here, hWhole, by simp [Naming.chain, hLabel, hFirst]⟩
      · exact ⟨unit, hPart, by simp [Naming.chain, hLabel]⟩

/-- A word that is read keeps labels and instances in order up to its end. -/
theorem ordered (h : naming.Step here other) (hNaming : naming.Ordered offset)
    (hBehind : offset ≤ here.span.start) (hText : here.HasText)
    (hSize : here.span.stop = here.span.start + here.text.utf8ByteSize) :
    other.Ordered here.span.stop := by
  obtain ⟨part, hPart, hChain⟩ := h.chain hNaming.unit
  obtain ⟨hStart, hOrder, hStop⟩ := hPart.within hSize
  obtain ⟨hInChain, hEnds⟩ := hNaming.chain_of_sublist hChain (hBehind.trans hStart) hOrder hStop
  obtain ⟨hLabels, hTexts⟩ := hNaming.labels_of_sublist h.labels hBehind hText
  exact ⟨hLabels, hTexts, h.used hNaming.used, hInChain, hEnds, h.unit hNaming.unit⟩

end Step

/-- Units are apart from each other, since a label stands in front of each one. -/
theorem Ordered.units (h : naming.Ordered offset) :
    Word.AreInOrder (naming.instances.map (·.unit)) := by
  have hChain : (naming.instances.flatMap fun entry => [entry.label, entry.unit]).Pairwise
      (·.span.stop ≤ ·.span.start) := h.chain.sublist (List.sublist_append_left _ _)
  rw [List.pairwise_flatMap] at hChain
  rw [Word.AreInOrder, List.pairwise_map]
  refine hChain.2.imp_of_mem fun {entry next} hEntry hNext hApart => ?_
  have hLabel : next.label.HasText := by
    refine (h.texts next.label (List.mem_append_left _ (h.used.subset ?_))).1
    exact List.mem_append_left _ (List.mem_map_of_mem hNext)
  have hUnit : entry.unit.span.start ≤ entry.unit.span.stop := by
    refine (h.ends entry.unit (List.mem_append_left _ (List.mem_flatMap.2 ⟨entry, hEntry, ?_⟩))).1
    simp
  have hFollows : next.label.span.stop ≤ next.unit.span.start := by
    simpa using hChain.1 next hNext
  have hBefore : entry.unit.span.stop ≤ next.label.span.start := hApart _ (by simp) _ (by simp)
  have hStart : next.label.span.start < next.label.span.stop := hLabel
  exact ⟨by omega, by omega⟩

end Naming

/-- The categories of names, without clocked signals, labels and instances. -/
inductive Category where
  | entities
  | architectures
  | architectureEntities
  | packages
  | libraries
  | usedPackages
  | ports
  | generics
  | objects
  | components
  | componentPorts
  | componentGenerics
  | subprograms
  | parameters
  | types
deriving DecidableEq

/-- What a word can add to a category. -/
def Category.part? (category : Category) : Word → Option Word :=
  match category with
  | .usedPackages => Walk.selectedPackage?
  | _ => some

/-- The category of the names of an interface list. -/
def Category.ofList : ListKind → Category
  | .ports => .ports
  | .generics => .generics
  | .componentPorts => .componentPorts
  | .componentGenerics => .componentGenerics
  | .parameters => .parameters

/-- The recorded names of a category. -/
def Findings.entries (found : Findings) (category : Category) : List Word :=
  match category with
  | .entities => found.entities.entries.toList
  | .architectures => found.architectures.entries.toList
  | .architectureEntities => found.architectureEntities.entries.toList
  | .packages => found.packages.entries.toList
  | .libraries => found.libraries.entries.toList
  | .usedPackages => found.usedPackages.entries.toList
  | .ports => found.ports.names
  | .generics => found.generics.names
  | .objects => found.objects.names
  | .components => found.components.entries.toList
  | .componentPorts => found.componentPorts.names
  | .componentGenerics => found.componentGenerics.names
  | .subprograms => found.subprograms.entries.toList
  | .parameters => found.parameters.names
  | .types => found.types.toList.map (·.name)

/-- Records a name in a category. Only a type has a definition. -/
def Findings.add (found : Findings) (category : Category) (name : Word) (definition : String) :
    Findings :=
  match category with
  | .entities => { found with entities := found.entities.push name }
  | .architectures => { found with architectures := found.architectures.push name }
  | .architectureEntities =>
    { found with architectureEntities := found.architectureEntities.push name }
  | .packages => { found with packages := found.packages.push name }
  | .libraries => { found with libraries := found.libraries.push name }
  | .usedPackages => { found with usedPackages := found.usedPackages.push name }
  | .ports => { found with ports := found.ports.pushName name }
  | .generics => { found with generics := found.generics.pushName name }
  | .objects => { found with objects := found.objects.pushName name }
  | .components => { found with components := found.components.push name }
  | .componentPorts => { found with componentPorts := found.componentPorts.pushName name }
  | .componentGenerics => { found with componentGenerics := found.componentGenerics.pushName name }
  | .subprograms => { found with subprograms := found.subprograms.push name }
  | .parameters => { found with parameters := found.parameters.pushName name }
  | .types => { found with types := found.types.push ⟨name, definition⟩ }

theorem Findings.entries_add (found : Findings) (category next : Category) (name : Word)
    (definition : String) :
    (found.add category name definition).entries next =
      found.entries next ++ if next = category then [name] else [] := by
  cases category <;> cases next <;>
    simp [Findings.add, Findings.entries, Words.push, Declarations.names_pushName]

/-- The name of the type whose definition is under way. -/
def Place.type? : Place → Option Word
  | .typeDeclaration _ type => type.name
  | _ => none

/-- The names that wait at a place to be recorded. -/
def Place.held (place : Place) (category : Category) : List Word :=
  if category = .types then place.type?.toList else []

/-- The component that the statement under way instantiates, if the next word agrees. -/
def Place.unit? : Place → Option Word
  | .architectureBody statement => statement.unit
  | _ => none

/-- Nothing waits at the place. -/
structure Place.IsPlain (place : Place) : Prop where
  first : place.first? = none
  unit : place.unit? = none
  type : place.type? = none

theorem Place.IsPlain.held_eq {place : Place} (h : place.IsPlain) (category : Category) :
    place.held category = [] := by
  rw [Place.held, h.type]
  exact ite_self _

theorem Home.isPlain_place (home : Home) : home.place.IsPlain := by
  cases home <;> exact ⟨rfl, rfl, rfl⟩

theorem Owner.isPlain_place (owner : Owner) : owner.place.IsPlain := by
  cases owner <;> exact ⟨rfl, rfl, rfl⟩

/-- The same names, labels and instances are recorded. -/
structure Findings.SameNames (found other : Findings) : Prop where
  entries : ∀ category, other.entries category = found.entries category
  instances : other.instances = found.instances
  labels : other.labels = found.labels

/-- A word may be added to categories of names, but neither labels nor instances are. -/
structure Findings.Gains (here : Word) (found other : Findings) : Prop where
  entries : ∀ category,
    (other.entries category).Sublist (found.entries category ++ (category.part? here).toList)
  instances : other.instances = found.instances
  labels : other.labels = found.labels

namespace Element

variable {element : Element} {inList keyword : Bool} {depth : Nat} {here : Lexeme} {word : Word}

theorem readSettled_ne_name : element.readSettled inList here ≠ .name word := by
  rw [readSettled]
  split <;> (try split) <;> simp

theorem readType_ne_name : element.readType inList here ≠ .name word := by
  rw [readType]
  split
  all_goals first
    | exact readSettled_ne_name
    | simp

theorem readMode_ne_name : element.readMode inList here ≠ .name word := by
  rw [readMode]
  split
  · split
    · simp
    · exact readType_ne_name
  · exact readType_ne_name

theorem readRange_ne_name : element.readRange inList keyword depth here ≠ .name word := by
  unfold readRange
  split <;> (try split) <;> simp

theorem readValue_ne_name : element.readValue inList depth here ≠ .name word := by
  unfold readValue
  split <;> (try split) <;> simp

/-- A declared name is the word that is read. -/
theorem eq_of_read_name (h : element.read inList here = .name word) : word = here.word := by
  rw [read] at h
  split at h
  · rw [readName] at h
    split at h <;> (try split at h) <;> cases h <;> rfl
  · exact absurd h readMode_ne_name
  · exact absurd h readType_ne_name
  · exact absurd h readSettled_ne_name
  · exact absurd h readRange_ne_name
  · exact absurd h readValue_ne_name

end Element

namespace Findings

variable {found other : Findings} {here : Word}

theorem SameNames.modifyList (kind : ListKind) {change : Declarations → Declarations}
    (hNames : ∀ list, (change list).names = list.names) :
    found.SameNames (found.modifyList kind change) := by
  refine ⟨fun category => ?_, by cases kind <;> rfl, by cases kind <;> rfl⟩
  cases kind <;> cases category <;> first
    | rfl
    | exact hNames _

/-- Completed lists have the names that they had. -/
theorem SameNames.align (found : Findings) : found.SameNames found.align := by
  refine ⟨fun category => ?_, rfl, rfl⟩
  cases category <;> first
    | rfl
    | exact Declarations.names_align _

namespace Gains

theorem of_same (h : found.SameNames other) : found.Gains here other :=
  ⟨fun category => h.entries category ▸ List.sublist_append_left _ _, h.instances, h.labels⟩

theorem refl (here : Word) (found : Findings) : found.Gains here found :=
  of_same ⟨fun _ => rfl, rfl, rfl⟩

/-- A word, or a part of it, is recorded. -/
theorem add {category : Category} {part : Word} (hPart : category.part? here = some part)
    (definition : String) : found.Gains here (found.add category part definition) where
  entries next := by
    rw [Findings.entries_add]
    refine (List.Sublist.refl _).append ?_
    split
    · next hNext =>
      rw [hNext, hPart]
      exact List.Sublist.refl _
    · exact List.nil_sublist _
  instances := by cases category <;> rfl
  labels := by cases category <;> rfl

theorem pushName (kind : ListKind) :
    found.Gains here (found.modifyList kind (·.pushName here)) := by
  have hAdd : found.modifyList kind (·.pushName here) = found.add (.ofList kind) here "" := by
    cases kind <;> rfl
  rw [hAdd]
  exact add (by cases kind <;> rfl) ""

end Gains

end Findings

namespace Walk

/-- What the walk has of a category, recorded or waiting. -/
def trail (walk : Walk) (category : Category) : List Word :=
  walk.found.entries category ++ walk.place.held category

/-- What the walk has of labels and instances. -/
def naming (walk : Walk) : Naming :=
  ⟨walk.found.instances.toList, walk.found.labels.entries.toList, walk.label, walk.place.first?,
    walk.place.unit?⟩

/-- What reading a word adds to categories, labels and instances. -/
structure Gathers (here : Word) (walk other : Walk) : Prop where
  trail : ∀ category,
    (other.trail category).Sublist (walk.trail category ++ (category.part? here).toList)
  naming : Naming.Step here walk.naming other.naming

section Complete

variable {walk : Walk}

/-- Attributes change no names. -/
theorem sameNames_completeElement (list : InterfaceList) (element : Element) :
    walk.found.SameNames (walk.completeElement list element).found :=
  .modifyList list.kind fun names => names.names_complete _ _ _ _

theorem sameNames_completeObject (kind : ObjectKind) (element : Element) :
    walk.found.SameNames (walk.completeObject kind element).found := by
  refine ⟨fun category => ?_, rfl, rfl⟩
  cases category <;> first
    | rfl
    | exact Declarations.names_complete _ _ _ _ _

/-- The list that closes has recorded its names before. -/
theorem sameNames_closeList (list : InterfaceList) (element : Element) (offset : Nat) :
    walk.found.SameNames ((walk.completeElement list element).closeList list offset).found := by
  have hFound : walk.found.SameNames (walk.completeElement list element).found :=
    sameNames_completeElement list element
  unfold Walk.closeList
  dsimp only
  split
  · exact ⟨hFound.entries, hFound.instances, hFound.labels⟩
  · exact hFound

end Complete

namespace Gathers

variable {walk other : Walk} {place : Place} {home : Home} {owner : Owner} {here : Lexeme}
  {word : Word} {before next : Option Lexeme}

theorem refl (word : Word) (walk : Walk) : walk.Gathers word walk :=
  ⟨fun _ => List.sublist_append_left _ _, .stays⟩

/-- A walk that leaves a statement without an instance forgets the words of that statement. -/
theorem naming_leaves (hInstances : other.found.instances = walk.found.instances)
    (hLabels : other.found.labels = walk.found.labels)
    (hLabel : other.label = none ∨ other.label = walk.label) (hPlace : other.place.IsPlain) :
    Naming.Step word walk.naming other.naming := by
  have hNaming : other.naming =
      { walk.naming with label := other.label, first := none, unit := none } := by
    rw [Walk.naming, Walk.naming, hInstances, hLabels, hPlace.first, hPlace.unit]
  rw [hNaming]
  exact .goes hLabel (.inl rfl) (.inl rfl)

/-- The walk goes on where nothing waits. What waited is recorded or left out. -/
theorem leaves (hFound : walk.found.Gains word other.found)
    (hLabel : other.label = none ∨ other.label = walk.label) (hPlace : other.place.IsPlain) :
    walk.Gathers word other where
  trail category := by
    rw [Walk.trail, Walk.trail, hPlace.held_eq, List.append_nil, List.append_assoc]
    exact (hFound.entries category).trans
      ((List.Sublist.refl _).append (List.sublist_append_right _ _))
  naming := naming_leaves hFound.instances hFound.labels hLabel hPlace

theorem goto (hPlace : place.IsPlain) : walk.Gathers word (walk.goto place) :=
  leaves (.refl word _) (.inr rfl) hPlace

theorem gotoHome : walk.Gathers word (walk.goto home.place) := goto home.isPlain_place

theorem skip : walk.Gathers word (walk.skip home) := goto ⟨rfl, rfl, rfl⟩

theorem nextStatement : walk.Gathers word walk.nextStatement := goto ⟨rfl, rfl, rfl⟩

theorem readItem : walk.Gathers word (walk.readItem home here) := by
  rw [Walk.readItem]
  split
  all_goals try exact goto ⟨rfl, rfl, rfl⟩
  · exact leaves (.of_same ⟨fun _ => rfl, rfl, rfl⟩) (.inr rfl) ⟨rfl, rfl, rfl⟩
  · exact leaves (.of_same ⟨fun _ => rfl, rfl, rfl⟩) (.inr rfl) ⟨rfl, rfl, rfl⟩
  · exact gotoHome

theorem readContext : walk.Gathers word (walk.readContext here next) := by
  rw [Walk.readContext]
  split
  all_goals try exact goto ⟨rfl, rfl, rfl⟩
  · split <;> exact goto ⟨rfl, rfl, rfl⟩
  · exact refl word walk

/-- The word is recorded, and the walk goes on where nothing waits. -/
theorem records (category : Category) (hPart : category.part? word = some word)
    (hFound : other.found = walk.found.add category word "") (hLabel : other.label = walk.label)
    (hPlace : other.place.IsPlain) : walk.Gathers word other :=
  leaves (hFound ▸ .add hPart "") (.inr hLabel) hPlace

/-- A library clause adds each of its names. -/
theorem readLibrary (h : walk.place = .libraryClause) :
    walk.Gathers here.word (walk.readLibrary here) := by
  have hName : walk.Gathers here.word (walk.collect fun found =>
      { found with libraries := found.libraries.push here.word }) :=
    records .libraries rfl rfl rfl (h ▸ ⟨rfl, rfl, rfl⟩)
  rw [Walk.readLibrary]
  split
  · exact goto ⟨rfl, rfl, rfl⟩
  · exact hName
  · exact hName
  · exact refl _ walk

/-- The package of a selected name is recorded. -/
theorem readUse (h : walk.place = .useClause home) :
    walk.Gathers here.word (walk.readUse home here) := by
  have hPackage : ∀ {package : Word}, Walk.selectedPackage? here.word = some package →
      walk.Gathers here.word (walk.collect fun found =>
        { found with usedPackages := found.usedPackages.push package }) := by
    intro package hSome
    have hPart : Category.usedPackages.part? here.word = some package := hSome
    exact leaves (.add hPart "") (.inr rfl) (h ▸ ⟨rfl, rfl, rfl⟩)
  rw [Walk.readUse]
  split
  · exact gotoHome
  · split
    · next hSome => exact hPackage hSome
    · exact refl _ walk
  · split
    · next hSome => exact hPackage hSome
    · exact refl _ walk
  · exact refl _ walk

theorem readConfiguration : walk.Gathers word (walk.readConfiguration here next) := by
  rw [Walk.readConfiguration]
  split
  · split
    · exact refl word walk
    · exact skip
  · exact refl word walk

theorem readEntityName : walk.Gathers here.word (walk.readEntityName here) := by
  rw [Walk.readEntityName]
  split
  · exact records .entities rfl rfl rfl ⟨rfl, rfl, rfl⟩
  · exact refl _ walk

theorem readEntityHeader : walk.Gathers word (walk.readEntityHeader here) := by
  rw [Walk.readEntityHeader]
  split
  all_goals try exact goto ⟨rfl, rfl, rfl⟩
  exact readItem

theorem readEntityStatements : walk.Gathers word (walk.readEntityStatements here) := by
  rw [Walk.readEntityStatements]
  split
  · exact skip
  · exact refl word walk

theorem readListOpen {kind : ListKind} : walk.Gathers word (walk.readListOpen kind owner here) := by
  rw [Walk.readListOpen]
  split
  · exact goto ⟨rfl, rfl, rfl⟩
  · exact goto owner.isPlain_place
  · exact refl word walk

/-- Closing a list adds no name. -/
theorem closeList (list : InterfaceList) (element : Element) (offset : Nat) :
    walk.Gathers word ((walk.completeElement list element).closeList list offset) := by
  refine leaves (.of_same (sameNames_closeList list element offset)) (.inr ?_) ?_
  · unfold Walk.closeList
    dsimp only
    split <;> rfl
  · unfold Walk.closeList
    dsimp only
    split <;> exact list.owner.isPlain_place

/-- An interface list adds the names in front of each colon. -/
theorem readInterface {list : InterfaceList} {element : Element}
    (h : walk.place = .interfaceDeclaration list element) :
    walk.Gathers here.word (walk.readInterface list element here) := by
  rw [Walk.readInterface]
  split
  · exact goto ⟨rfl, rfl, rfl⟩
  · next name hName =>
    obtain rfl : name = here.word := Element.eq_of_read_name hName
    exact leaves (.pushName list.kind) (.inr rfl) (h ▸ ⟨rfl, rfl, rfl⟩)
  · exact leaves (.of_same (sameNames_completeElement list element)) (.inr rfl) ⟨rfl, rfl, rfl⟩
  · exact closeList list element _

/-- And an object declaration does so too. -/
theorem readObject {kind : ObjectKind} {element : Element}
    (h : walk.place = .objectDeclaration kind home element) :
    walk.Gathers here.word (walk.readObject kind home element here) := by
  rw [Walk.readObject]
  split
  · exact goto ⟨rfl, rfl, rfl⟩
  · next name hName =>
    obtain rfl : name = here.word := Element.eq_of_read_name hName
    exact records .objects rfl rfl rfl (h ▸ ⟨rfl, rfl, rfl⟩)
  · exact leaves (.of_same (sameNames_completeObject kind element)) (.inr rfl) home.isPlain_place
  · exact leaves (.of_same (sameNames_completeObject kind element)) (.inr rfl) home.isPlain_place

/-- The name of a type waits until its definition is read. -/
theorem holdsType {type other : TypeText} (h : walk.place = .typeDeclaration home type)
    (hName : other.name = type.name ∨ other.name = some word) :
    walk.Gathers word (walk.goto (.typeDeclaration home other)) where
  trail category := by
    rw [Walk.trail, Walk.trail, h, List.append_assoc]
    refine (List.Sublist.refl _).append ?_
    rw [Place.held, Place.held, Walk.goto, Place.type?, Place.type?]
    split
    · next hTypes =>
      subst hTypes
      rcases hName with hSame | hHere
      · rw [hSame]
        exact List.sublist_append_left _ _
      · rw [hHere]
        exact List.sublist_append_right _ _
    · exact List.nil_sublist _
  naming := by
    have hSame : (walk.goto (.typeDeclaration home other)).naming = walk.naming := by
      simp [Walk.naming, Walk.goto, h, Place.first?, Place.unit?]
    exact hSame ▸ .stays

/-- It is recorded with its definition. -/
theorem recordsType {type : TypeText} {name : Word} (h : walk.place = .typeDeclaration home type)
    (hName : type.name = some name) (definition : String) :
    walk.Gathers word ((walk.collect (·.add .types name definition)).goto home.place) where
  trail category := by
    have hFound : ((walk.collect (·.add .types name definition)).goto home.place).found =
        walk.found.add .types name definition := rfl
    rw [Walk.trail, Walk.trail, h, hFound, Findings.entries_add, Place.held, Place.held,
      Place.type?, hName, Walk.goto, home.isPlain_place.type, Option.toList_none, ite_self,
      List.append_nil]
    exact List.sublist_append_left _ _
  naming := naming_leaves rfl rfl (.inr rfl) home.isPlain_place

/-- A type declaration adds its name, and collects the rest as a text. -/
theorem readType {type : TypeText} (h : walk.place = .typeDeclaration home type) :
    walk.Gathers here.word (walk.readType home type here before) := by
  have hStay : ∀ other : TypeText, other.name = type.name →
      walk.Gathers here.word (walk.goto (.typeDeclaration home other)) :=
    fun other hName => holdsType h (.inl hName)
  rw [Walk.readType]
  dsimp only
  split
  · split
    · exact holdsType h (.inr rfl)
    · exact refl _ walk
  · next name hName =>
    split
    · split <;> exact hStay _ rfl
    · exact hStay _ rfl
    · exact hStay _ rfl
    · exact hStay _ rfl
    · exact hStay _ rfl
    · exact hStay _ rfl
    · split
      · exact recordsType h hName _
      · exact hStay _ rfl
    · exact hStay _ rfl

/-- An architecture adds its own name, and that of its entity behind `of`. -/
theorem readArchitectureName {named : Bool} (h : walk.place = .architectureName named) :
    walk.Gathers here.word (walk.readArchitectureName named here) := by
  have hPlain : walk.place.IsPlain := h ▸ ⟨rfl, rfl, rfl⟩
  rw [Walk.readArchitectureName]
  split
  · exact goto ⟨rfl, rfl, rfl⟩
  · exact goto ⟨rfl, rfl, rfl⟩
  · split
    · exact records .architectureEntities rfl rfl rfl ⟨rfl, rfl, rfl⟩
    · exact records .architectures rfl rfl rfl hPlain
  · split
    · exact records .architectureEntities rfl rfl rfl ⟨rfl, rfl, rfl⟩
    · exact records .architectures rfl rfl rfl hPlain
  · exact refl _ walk

theorem readArchitectureHeader : walk.Gathers word (walk.readArchitectureHeader here) := by
  rw [Walk.readArchitectureHeader]
  split
  · exact goto ⟨rfl, rfl, rfl⟩
  · exact refl word walk

theorem readArchitectureDeclarations :
    walk.Gathers word (walk.readArchitectureDeclarations here) := by
  rw [Walk.readArchitectureDeclarations]
  split
  · exact nextStatement
  · exact readItem

theorem readComponentName : walk.Gathers here.word (walk.readComponentName home here) := by
  rw [Walk.readComponentName]
  split
  · exact records .components rfl rfl rfl ⟨rfl, rfl, rfl⟩
  · exact refl _ walk

theorem readComponentHeader : walk.Gathers word (walk.readComponentHeader home here) := by
  rw [Walk.readComponentHeader]
  split
  · exact goto ⟨rfl, rfl, rfl⟩
  · exact goto ⟨rfl, rfl, rfl⟩
  · exact skip
  · exact refl word walk

theorem readSubprogramName : walk.Gathers here.word (walk.readSubprogramName home here) := by
  rw [Walk.readSubprogramName]
  split
  · exact records .subprograms rfl rfl rfl ⟨rfl, rfl, rfl⟩
  · exact refl _ walk

theorem readSubprogramHeader : walk.Gathers word (walk.readSubprogramHeader home here next) := by
  rw [Walk.readSubprogramHeader]
  split
  · exact goto ⟨rfl, rfl, rfl⟩
  · exact gotoHome
  · split <;> exact goto ⟨rfl, rfl, rfl⟩
  · exact refl word walk

/-- A body that is passed over adds nothing. -/
theorem readSubprogramBody {nest : BodyNest} :
    walk.Gathers word (walk.readSubprogramBody home nest here before next) := by
  have hStay : ∀ nest, walk.Gathers word (walk.goto (.subprogramBody home nest)) :=
    fun _ => goto ⟨rfl, rfl, rfl⟩
  rw [Walk.readSubprogramBody]
  dsimp only
  split
  · split
    · exact refl word walk
    · exact hStay _
  · split
    · exact refl word walk
    · exact hStay _
  · split
    · exact hStay _
    · exact refl word walk
  · exact hStay _
  · exact hStay _
  · split
    · exact hStay _
    · exact refl word walk
  · split
    · split
      · exact skip
      · exact hStay _
    · exact refl word walk
  · exact refl word walk

theorem readPackageName (h : walk.place = .packageName) :
    walk.Gathers here.word (walk.readPackageName here next) := by
  have hName : walk.Gathers here.word (if walk.found.packages.isEmpty then
      walk.collect fun found => { found with packages := found.packages.push here.word }
      else walk) := by
    split
    · exact records .packages rfl rfl rfl (h ▸ ⟨rfl, rfl, rfl⟩)
    · exact refl _ walk
  rw [Walk.readPackageName]
  split
  · split <;> exact goto ⟨rfl, rfl, rfl⟩
  · exact hName
  · exact hName
  · exact refl _ walk

theorem readPackageBodyName : walk.Gathers word (walk.readPackageBodyName here) := by
  rw [Walk.readPackageBodyName]
  split
  · exact goto ⟨rfl, rfl, rfl⟩
  · exact refl word walk

theorem readPackage : walk.Gathers word (walk.readPackage home here) := by
  rw [Walk.readPackage]
  split
  · exact skip
  · exact readItem

theorem readSkipped {depth : Nat} : walk.Gathers word (walk.readSkipped home depth here) := by
  rw [Walk.readSkipped]
  split
  · exact goto ⟨rfl, rfl, rfl⟩
  · exact goto ⟨rfl, rfl, rfl⟩
  · split
    · exact gotoHome
    · exact refl word walk
  · exact refl word walk

end Gathers

end Walk

end Vhdl

end HdlIndex

import HdlIndex.Proofs.Vhdl.ReadingWords

/-! What the walk through a VHDL text does with words. It keeps some at the place where it stands
and records them from there, or it records the word that it reads. A property that passes from words
to their stems therefore holds of all recorded words if it holds of what the words that are read are
taken for. -/
namespace HdlIndex.Vhdl

open String (utf8Len)

variable {P : Word → Prop}

/-- The words that a place holds on to until they are recorded. Those of an open process are part
of the process. -/
def Place.words : Place → List Word
  | .interfaceDeclaration _ element | .objectDeclaration _ _ element => element.type.toList
  | .typeDeclaration _ type => type.name.toList
  | .architectureBody statement => statement.first.toList ++ statement.unit.toList
  | _ => []

/-- The unit that a selected name ends with, behind its last point. -/
def selectedUnit (selected : Word) : Word :=
  let unit := String.ofList (selected.text.toList.reverse.takeWhile (· != '.')).reverse
  ⟨unit, ⟨selected.span.stop - unit.utf8ByteSize, selected.span.stop⟩⟩

/-- What a word is taken for where it is read: for a package, for a unit, or for itself. -/
def Place.taken (place : Place) (word : Word) : List Word :=
  match place with
  | .useClause _ => (Walk.selectedPackage? word).toList
  | .instanceHeader => [selectedUnit word]
  | _ => [word]

/-- What the word of an event is taken for at a place has the property, and so has the end of the
word behind it. -/
def Event.Taken (P : Word → Prop) (place : Place) : Event → Prop
  | .comment _ | .filler _ => True
  | .word here _ next =>
    (∀ word ∈ place.taken here.word, P word) ∧ ∀ lexeme ∈ next, P (.absent lexeme.span.stop)

/-- Every recorded word has the property. -/
structure Findings.All (P : Word → Prop) (found : Findings) : Prop where
  entities : found.entities.All P
  architectures : found.architectures.All P
  architectureEntities : found.architectureEntities.All P
  packages : found.packages.All P
  libraries : found.libraries.All P
  usedPackages : found.usedPackages.All P
  ports : found.ports.All P P
  generics : found.generics.All P P
  objects : found.objects.All P P
  components : found.components.All P
  componentPorts : found.componentPorts.All P P
  componentGenerics : found.componentGenerics.All P P
  subprograms : found.subprograms.All P
  parameters : found.parameters.All P P
  types : ∀ type ∈ found.types, P type.name
  clocked : found.clocked.All P
  instances : ∀ entry ∈ found.instances, P entry.label ∧ P entry.unit
  labels : found.labels.All P
  processes : ∀ process ∈ found.processes, process.All P

theorem Findings.All.empty : Findings.All P {} where
  entities := .empty
  architectures := .empty
  architectureEntities := .empty
  packages := .empty
  libraries := .empty
  usedPackages := .empty
  ports := .empty
  generics := .empty
  objects := .empty
  components := .empty
  componentPorts := .empty
  componentGenerics := .empty
  subprograms := .empty
  parameters := .empty
  types := by simp
  clocked := by simp [ClockedSignals.All]
  instances := by simp
  labels := .empty
  processes := by simp

theorem Findings.All.modifyList {found : Findings} (h : found.All P) (kind : ListKind)
    {change : Declarations → Declarations}
    (hChange : ∀ list, list.All P P → (change list).All P P) :
    (found.modifyList kind change).All P := by
  cases kind with
  | ports => exact { h with ports := hChange _ h.ports }
  | generics => exact { h with generics := hChange _ h.generics }
  | componentPorts => exact { h with componentPorts := hChange _ h.componentPorts }
  | componentGenerics => exact { h with componentGenerics := hChange _ h.componentGenerics }
  | parameters => exact { h with parameters := hChange _ h.parameters }

theorem Home.words_place (home : Home) : home.place.words = [] := by cases home <;> rfl

theorem Home.process?_place (home : Home) : home.place.process? = home.process? := by
  cases home <;> rfl

/-- The process that is open around an interface list. -/
def Owner.process? : Owner → Option HdlProcess
  | text | entity => none
  | component home | subprogram home => home.process?

theorem Owner.words_place (owner : Owner) : owner.place.words = [] := by cases owner <;> rfl

theorem Owner.process?_place (owner : Owner) : owner.place.process? = owner.process? := by
  cases owner <;> rfl

theorem Place.process?_interfaceListOpen (kind : ListKind) (owner : Owner) :
    (Place.interfaceListOpen kind owner).process? = owner.process? := by cases owner <;> rfl

theorem Place.process?_interfaceDeclaration (list : InterfaceList) (element : Element) :
    (Place.interfaceDeclaration list element).process? = list.owner.process? := by
  obtain ⟨kind, owner, inside⟩ := list
  cases owner <;> rfl

/-- The words of what a move makes of an element, or the declared name. -/
def Move.words : Move → List Word
  | .stay element => element.type.toList
  | .name word => [word]
  | .done | .close => []

namespace Element

variable {element : Element} {inList keyword : Bool} {depth : Nat} {here : Lexeme} {word : Word}

theorem words_readName (h : word ∈ (element.readName inList here).words) :
    word = here.word ∨ word ∈ element.type.toList := by
  rw [readName] at h
  split at h <;> (try split at h) <;> simp_all [Move.words]

theorem words_readSettled (element : Element)
    (h : word ∈ (element.readSettled inList here).words) :
    word ∈ element.type.toList := by
  rw [readSettled] at h
  split at h <;> (try split at h) <;> simp_all [Move.words, beginValue]

/-- The type of an element is its own word, or the one it had. -/
theorem words_readType (element : Element)
    (h : word ∈ (element.readType inList here).words) :
    word = here.word ∨ word ∈ element.type.toList := by
  rw [readType] at h
  split at h
  · exact .inr (words_readSettled { element with part := .settled } h)
  · exact .inr (words_readSettled { element with part := .settled } h)
  · exact .inr (words_readSettled { element with part := .settled } h)
  · exact .inl (by simpa [Move.words, eq_comm] using h)
  · exact .inr h

/-- A word in the place of the mode may be the type as well. -/
theorem words_readMode (h : word ∈ (element.readMode inList here).words) :
    word = here.word ∨ word ∈ element.type.toList := by
  rw [readMode] at h
  split at h
  · split at h
    · exact .inr h
    · exact words_readType { element with part := .type } h
  · exact words_readType { element with part := .type } h

theorem words_readRange (h : word ∈ (element.readRange inList keyword depth here).words) :
    word ∈ element.type.toList := by
  unfold readRange at h
  split at h <;> (try split at h) <;> simp_all [Move.words, beginValue, push]

theorem words_readValue (h : word ∈ (element.readValue inList depth here).words) :
    word ∈ element.type.toList := by
  unfold readValue at h
  split at h <;> (try split at h) <;> simp_all [Move.words, push]

/-- An element takes its words from what it reads. -/
theorem words_read (h : word ∈ (element.read inList here).words) :
    word = here.word ∨ word ∈ element.type.toList := by
  rw [read] at h
  split at h
  · exact words_readName h
  · exact words_readMode h
  · exact words_readType _ h
  · exact .inr (words_readSettled _ h)
  · exact .inr (words_readRange h)
  · exact .inr (words_readValue h)

end Element

namespace Walk

/-- Every word that the walk holds on to or has recorded has the property. -/
structure All (P : Word → Prop) (walk : Walk) : Prop where
  place : ∀ word ∈ walk.place.words, P word
  process : ∀ process ∈ walk.place.process?, process.All P
  label : ∀ word ∈ walk.label, P word
  found : walk.found.All P

namespace All

variable {walk : Walk} {place : Place} {home : Home} {here : Lexeme} {before next : Option Lexeme}

theorem goto (h : walk.All P) (hPlace : ∀ word ∈ place.words, P word)
    (hProcess : ∀ process ∈ place.process?, process.All P) : (walk.goto place).All P :=
  ⟨hPlace, hProcess, h.label, h.found⟩

theorem collect (h : walk.All P) {change : Findings → Findings}
    (hChange : (change walk.found).All P) : (walk.collect change).All P :=
  ⟨h.place, h.process, h.label, hChange⟩

theorem note (h : walk.All P) (note : Note) : (walk.note note).All P :=
  ⟨h.place, h.process, h.label, h.found⟩

/-- Going to a place that holds no words keeps the process that is open. -/
theorem gotoWithin {process : Option HdlProcess} (h : walk.All P) (hPlace : place.words = [])
    (hSame : place.process? = process) (hProcess : ∀ inner ∈ process, inner.All P) :
    (walk.goto place).All P :=
  h.goto (by simp [hPlace]) (hSame ▸ hProcess)

/-- So does going to a place outside of processes. -/
theorem gotoOutside (h : walk.All P) (hPlace : place.words = [])
    (hProcess : place.process? = none) : (walk.goto place).All P :=
  h.gotoWithin hPlace hProcess (by simp)

theorem gotoHome (h : walk.All P) (hHome : ∀ process ∈ home.process?, process.All P) :
    (walk.goto home.place).All P :=
  h.gotoWithin home.words_place home.process?_place hHome

theorem skip (h : walk.All P) (hHome : ∀ process ∈ home.process?, process.All P) :
    (walk.skip home).All P :=
  h.gotoWithin rfl rfl hHome

theorem readItem (h : walk.All P) (hHome : ∀ process ∈ home.process?, process.All P) :
    (walk.readItem home here).All P := by
  rw [Walk.readItem]
  split
  all_goals try exact h.gotoWithin rfl rfl hHome
  · exact (h.collect { h.found with }).gotoWithin rfl rfl hHome
  · exact (h.collect { h.found with }).gotoWithin rfl rfl hHome
  · exact h.gotoHome hHome

theorem readContext (h : walk.All P) : (walk.readContext here next).All P := by
  rw [Walk.readContext]
  split
  all_goals try exact h.gotoOutside rfl rfl
  · split <;> exact h.gotoOutside rfl rfl
  · exact h

theorem readLibrary (h : walk.All P) (hHere : P here.word) : (walk.readLibrary here).All P := by
  rw [Walk.readLibrary]
  split
  · exact h.gotoOutside rfl rfl
  · exact h.collect { h.found with libraries := h.found.libraries.push hHere }
  · exact h.collect { h.found with libraries := h.found.libraries.push hHere }
  · exact h

/-- The second part of a selected name stands behind its first point. -/
theorem selectedPackage? (hP : Inherited P) {selected package : Word} (hSelected : P selected)
    (h : Walk.selectedPackage? selected = some package) : P package := by
  rw [Walk.selectedPackage?] at h
  split at h
  · cases h
  · next point rest hRest =>
    have hPoint : point = '.' := by
      have hHead := List.head?_dropWhile_not (· != '.') selected.text.toList
      simpa [hRest] using hHead
    subst hPoint
    have hText : selected.text.toList =
        (selected.text.toList.takeWhile (· != '.') ++ ['.']) ++ rest.takeWhile (· != '.') ++
          rest.dropWhile (· != '.') := by
      conv_lhs =>
        rw [← selected.text.toList.takeWhile_append_dropWhile (p := (· != '.')), hRest]
      simp
    have hPart := hP.part _ _ _ hSelected hText
    dsimp only at h
    split at h
    · cases h
    · obtain rfl := Option.some.inj h
      have hSize : '.'.utf8Size = 1 := rfl
      simpa [Word.base, baseName, String.utf8ByteSize_ofList, Nat.add_assoc, hSize] using hPart

/-- A use clause records the package that its word selects, which is a part of that word. -/
theorem readUse (h : walk.All P)
    (hPackage : ∀ package ∈ Walk.selectedPackage? here.word, P package)
    (hHome : ∀ process ∈ home.process?, process.All P) : (walk.readUse home here).All P := by
  rw [Walk.readUse]
  split
  · exact h.gotoHome hHome
  · split
    · next package hSome =>
      have hPackages := h.found.usedPackages.push (hPackage package hSome)
      exact h.collect { h.found with usedPackages := hPackages }
    · exact h
  · split
    · next package hSome =>
      have hPackages := h.found.usedPackages.push (hPackage package hSome)
      exact h.collect { h.found with usedPackages := hPackages }
    · exact h
  · exact h

theorem readConfiguration (h : walk.All P) : (walk.readConfiguration here next).All P := by
  rw [Walk.readConfiguration]
  split
  · split
    · exact h
    · exact h.skip (by simp [Home.process?])
  · exact h

theorem readEntityName (h : walk.All P) (hHere : P here.word) :
    (walk.readEntityName here).All P := by
  rw [Walk.readEntityName]
  split
  · exact ((h.collect { h.found with
      entities := h.found.entities.push hHere }).note _).gotoOutside rfl rfl
  · exact h

theorem readEntityHeader (h : walk.All P) : (walk.readEntityHeader here).All P := by
  rw [Walk.readEntityHeader]
  split
  all_goals try exact h.gotoOutside rfl rfl
  exact h.readItem (by simp [Home.process?])

theorem readEntityStatements (h : walk.All P) : (walk.readEntityStatements here).All P := by
  rw [Walk.readEntityStatements]
  split
  · exact h.gotoOutside rfl rfl
  · exact h

theorem readListOpen {kind : ListKind} {owner : Owner} (h : walk.All P)
    (hOwner : ∀ process ∈ owner.process?, process.All P) :
    (walk.readListOpen kind owner here).All P := by
  rw [Walk.readListOpen]
  split
  · exact h.gotoWithin rfl (Place.process?_interfaceDeclaration _ _) hOwner
  · exact h.gotoWithin owner.words_place owner.process?_place hOwner
  · exact h

theorem completeElement {list : InterfaceList} {element : Element} (h : walk.All P)
    (hP : Rooted P) (hType : ∀ word ∈ element.type, P word) :
    (walk.completeElement list element).All P :=
  h.collect (h.found.modifyList _ fun _ hList =>
    hList.complete _ _ _ hType fun _ hName => hP.behind hName)

theorem completeObject {kind : ObjectKind} {element : Element} (h : walk.All P)
    (hP : Rooted P) (hType : ∀ word ∈ element.type, P word) :
    (walk.completeObject kind element).All P :=
  h.collect { h.found with
    objects := h.found.objects.complete _ _ _ hType fun _ hName => hP.behind hName }

theorem closeList {list : InterfaceList} {offset : Nat} (h : walk.All P)
    (hOwner : ∀ process ∈ list.owner.process?, process.All P) :
    (walk.closeList list offset).All P := by
  have hBehind := h.gotoWithin list.owner.words_place list.owner.process?_place hOwner
  unfold Walk.closeList
  dsimp only
  split
  · exact hBehind.collect { hBehind.found with }
  · exact hBehind

/-- The names that wait become rows when the element is complete, and with them the type that was
read. -/
theorem readInterface {list : InterfaceList} {element : Element} (h : walk.All P)
    (hP : Rooted P) (hHere : P here.word) (hType : ∀ word ∈ element.type, P word)
    (hOwner : ∀ process ∈ list.owner.process?, process.All P) :
    (walk.readInterface list element here).All P := by
  have hMove : ∀ word ∈ (element.read true here).words, P word := by
    intro word hMem
    rcases Element.words_read hMem with rfl | hMem
    · exact hHere
    · exact hType word (by simpa using hMem)
  rw [Walk.readInterface]
  split
  · next element' hRead =>
    rw [hRead] at hMove
    exact h.goto hMove (Place.process?_interfaceDeclaration _ _ ▸ hOwner)
  · next word hRead =>
    rw [hRead] at hMove
    exact h.collect (h.found.modifyList _ fun _ hList =>
      hList.pushName (hMove word (by simp [Move.words])))
  · exact (h.completeElement hP hType).gotoWithin rfl
      (Place.process?_interfaceDeclaration _ _) hOwner
  · exact (h.completeElement hP hType).closeList hOwner

/-- So do those of an object declaration. -/
theorem readObject {kind : ObjectKind} {element : Element} (h : walk.All P)
    (hP : Rooted P) (hHere : P here.word) (hType : ∀ word ∈ element.type, P word)
    (hHome : ∀ process ∈ home.process?, process.All P) :
    (walk.readObject kind home element here).All P := by
  have hMove : ∀ word ∈ (element.read false here).words, P word := by
    intro word hMem
    rcases Element.words_read hMem with rfl | hMem
    · exact hHere
    · exact hType word (by simpa using hMem)
  rw [Walk.readObject]
  split
  · next element' hRead =>
    rw [hRead] at hMove
    exact h.goto hMove hHome
  · next word hRead =>
    rw [hRead] at hMove
    exact h.collect { h.found with
      objects := h.found.objects.pushName (hMove word (by simp [Move.words])) }
  · exact (h.completeObject hP hType).gotoHome hHome
  · exact (h.completeObject hP hType).gotoHome hHome

/-- A type declaration records its name. -/
theorem readType {type : TypeText} (h : walk.All P) (hHere : P here.word)
    (hName : ∀ word ∈ type.name, P word) (hHome : ∀ process ∈ home.process?, process.All P) :
    (walk.readType home type here before).All P := by
  have hStay : ∀ other : TypeText, other.name = type.name →
      (walk.goto (.typeDeclaration home other)).All P := fun other hSame =>
    h.goto (by simpa [Place.words, hSame] using hName) hHome
  rw [Walk.readType]
  dsimp only
  split
  · split
    · exact h.goto (by simpa [Place.words] using hHere) hHome
    · exact h
  · next name hSome =>
    split
    all_goals try exact hStay _ rfl
    · split <;> exact hStay _ rfl
    · split
      · have hTypes : ∀ entry ∈ walk.found.types.push ⟨name, type.expr.text⟩, P entry.name := by
          intro entry hMem
          rcases Array.mem_push.1 hMem with hMem | rfl
          · exact h.found.types entry hMem
          · exact hName name (by simp [hSome])
        exact (h.collect { h.found with types := hTypes }).gotoHome hHome
      · exact hStay _ rfl

/-- The two names of an architecture are recorded as they are read. -/
theorem readArchitectureName {named : Bool} (h : walk.All P) (hHere : P here.word) :
    (walk.readArchitectureName named here).All P := by
  have hNamed : (walk.collect fun found => { found with
      architectureEntities := found.architectureEntities.push here.word }).All P :=
    h.collect { h.found with architectureEntities := h.found.architectureEntities.push hHere }
  have hFirst : (walk.collect fun found => { found with
      architectures := found.architectures.push here.word }).All P :=
    h.collect { h.found with architectures := h.found.architectures.push hHere }
  rw [Walk.readArchitectureName]
  split
  · exact h.gotoOutside rfl rfl
  · exact h.gotoOutside rfl rfl
  · split
    · exact hNamed.gotoOutside rfl rfl
    · exact hFirst
  · split
    · exact hNamed.gotoOutside rfl rfl
    · exact hFirst
  · exact h

theorem readArchitectureHeader (h : walk.All P) : (walk.readArchitectureHeader here).All P := by
  rw [Walk.readArchitectureHeader]
  split
  · exact h.gotoOutside rfl rfl
  · exact h

theorem nextStatement (h : walk.All P) : walk.nextStatement.All P :=
  h.gotoOutside rfl rfl

theorem readArchitectureDeclarations (h : walk.All P) :
    (walk.readArchitectureDeclarations here).All P := by
  rw [Walk.readArchitectureDeclarations]
  split
  · exact h.nextStatement
  · exact h.readItem (by simp [Home.process?])

theorem readComponentName (h : walk.All P) (hHere : P here.word)
    (hHome : ∀ process ∈ home.process?, process.All P) :
    (walk.readComponentName home here).All P := by
  rw [Walk.readComponentName]
  split
  · exact (h.collect { h.found with
      components := h.found.components.push hHere }).gotoWithin rfl rfl hHome
  · exact h

theorem readComponentHeader (h : walk.All P) (hHome : ∀ process ∈ home.process?, process.All P) :
    (walk.readComponentHeader home here).All P := by
  rw [Walk.readComponentHeader]
  split
  · exact h.gotoWithin rfl (Place.process?_interfaceListOpen _ _) hHome
  · exact h.gotoWithin rfl (Place.process?_interfaceListOpen _ _) hHome
  · exact h.skip hHome
  · exact h

theorem readSubprogramName (h : walk.All P) (hHere : P here.word)
    (hHome : ∀ process ∈ home.process?, process.All P) :
    (walk.readSubprogramName home here).All P := by
  rw [Walk.readSubprogramName]
  split
  · exact (h.collect { h.found with
      subprograms := h.found.subprograms.push hHere }).gotoWithin rfl rfl hHome
  · exact h

theorem readSubprogramHeader (h : walk.All P) (hHome : ∀ process ∈ home.process?, process.All P) :
    (walk.readSubprogramHeader home here next).All P := by
  rw [Walk.readSubprogramHeader]
  split
  · exact h.gotoWithin rfl (Place.process?_interfaceDeclaration _ _) hHome
  · exact h.gotoHome hHome
  · split
    · exact h.skip hHome
    · exact h.gotoWithin rfl rfl hHome
  · exact h

theorem readSubprogramBody {nest : BodyNest} (h : walk.All P)
    (hHome : ∀ process ∈ home.process?, process.All P) :
    (walk.readSubprogramBody home nest here before next).All P := by
  have hStay : ∀ other, (walk.goto (.subprogramBody home other)).All P :=
    fun other => h.gotoWithin rfl rfl hHome
  rw [Walk.readSubprogramBody]
  dsimp only
  split
  all_goals try exact hStay _
  all_goals try exact h
  all_goals split
  all_goals try exact hStay _
  all_goals try exact h
  split
  · exact h.skip hHome
  · exact hStay _

/-- The first package name of a text is recorded, and no later one. -/
theorem readPackageName (h : walk.All P) (hHere : P here.word) :
    (walk.readPackageName here next).All P := by
  have hFound : (walk.collect fun found => { found with
      packages := found.packages.push here.word }).All P :=
    h.collect { h.found with packages := h.found.packages.push hHere }
  rw [Walk.readPackageName]
  split
  · split <;> exact h.gotoOutside rfl rfl
  · split
    · exact hFound
    · exact h
  · split
    · exact hFound
    · exact h
  · exact h

theorem readPackageBodyName (h : walk.All P) : (walk.readPackageBodyName here).All P := by
  rw [Walk.readPackageBodyName]
  split
  · exact h.gotoOutside rfl rfl
  · exact h

theorem readPackage (h : walk.All P) (hHome : ∀ process ∈ home.process?, process.All P) :
    (walk.readPackage home here).All P := by
  rw [Walk.readPackage]
  split
  · exact h.gotoOutside rfl rfl
  · exact h.readItem hHome

theorem readSkipped {depth : Nat} (h : walk.All P)
    (hHome : ∀ process ∈ home.process?, process.All P) :
    (walk.readSkipped home depth here).All P := by
  rw [Walk.readSkipped]
  split
  · exact h.gotoWithin rfl rfl hHome
  · exact h.gotoWithin rfl rfl hHome
  · split
    · exact h.gotoHome hHome
    · exact h
  · exact h

end All
end Walk
end HdlIndex.Vhdl

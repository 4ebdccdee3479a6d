import HdlIndex.Proofs.Vhdl.Pending

/-! The kinds of the objects of a VHDL text. An object declaration reads no mode, so every object is
recorded under the word that its declaration begins with: `signal`, `constant`, `variable` or
`file`. -/
namespace HdlIndex.Vhdl

/-- The element has no mode, and none is read next. -/
structure Element.IsModeless (element : Element) : Prop where
  mode : element.mode = ""
  part : element.part ≠ .mode

/-- An object declaration under way has no mode. -/
def Place.IsModeless : Place → Prop
  | .objectDeclaration _ _ element => element.IsModeless
  | _ => True

/-- Every object is recorded under a word that declares objects. -/
def Findings.HasKinds (found : Findings) : Prop :=
  ∀ row ∈ found.objects.rows, ∃ kind : ObjectKind, row.mode = kind.text

theorem Home.isModeless_place (home : Home) : home.place.IsModeless := by cases home <;> trivial

theorem Owner.isModeless_place (owner : Owner) : owner.place.IsModeless := by
  cases owner <;> trivial

namespace Element

variable {element other : Element} {here : Lexeme} {keyword : Bool} {depth : Nat}

theorem IsModeless.empty : Element.IsModeless {} := ⟨rfl, by decide⟩

theorem IsModeless.beginValue (h : element.IsModeless) : element.beginValue.IsModeless :=
  ⟨h.mode, by simp [Element.beginValue]⟩

/-- The names of an object are followed by its type and no mode. -/
theorem IsModeless.readName (h : element.IsModeless)
    (hRead : element.readName false here = .stay other) :
    other.IsModeless := by
  rw [Element.readName] at hRead
  split at hRead
  all_goals cases hRead
  all_goals try exact h
  exact ⟨h.mode, by simp⟩

theorem IsModeless.readSettled (h : element.IsModeless)
    (hRead : element.readSettled false here = .stay other) : other.IsModeless := by
  rw [Element.readSettled] at hRead
  split at hRead
  all_goals cases hRead
  · exact ⟨h.mode, by simp⟩
  · exact ⟨h.mode, by simp⟩
  · exact h.beginValue
  · exact h
  · exact h

/-- Words of the type set no mode. -/
theorem IsModeless.readType (h : element.IsModeless)
    (hRead : element.readType false here = .stay other) :
    other.IsModeless := by
  have hSettled : Element.IsModeless { element with part := .settled } := ⟨h.mode, by simp⟩
  rw [Element.readType] at hRead
  split at hRead
  · exact hSettled.readSettled hRead
  · exact hSettled.readSettled hRead
  · exact hSettled.readSettled hRead
  · cases hRead
    exact ⟨h.mode, by simp⟩
  · cases hRead
    exact h

/-- Nor does a range. -/
theorem IsModeless.readRange (h : element.IsModeless)
    (hRead : element.readRange false keyword depth here = .stay other) : other.IsModeless := by
  unfold Element.readRange at hRead
  dsimp only at hRead
  split at hRead
  all_goals cases hRead
  · exact ⟨h.mode, by simp⟩
  · exact h
  · exact ⟨h.mode, by dsimp only; split <;> simp⟩
  · exact h.beginValue
  · exact ⟨h.mode, h.part⟩

/-- Nor a value. -/
theorem IsModeless.readValue (h : element.IsModeless)
    (hRead : element.readValue false depth here = .stay other) : other.IsModeless := by
  unfold Element.readValue at hRead
  dsimp only at hRead
  split at hRead
  all_goals cases hRead
  · exact ⟨h.mode, by simp⟩
  · exact h
  · exact ⟨h.mode, by simp⟩
  · exact ⟨h.mode, h.part⟩

/-- An element that is no part of a list stays without a mode. -/
theorem IsModeless.read (h : element.IsModeless) (hRead : element.read false here = .stay other) :
    other.IsModeless := by
  rw [Element.read] at hRead
  split at hRead
  · exact h.readName hRead
  · next hPart => exact absurd hPart h.part
  · exact h.readType hRead
  · exact h.readSettled hRead
  · exact h.readRange hRead
  · exact h.readValue hRead

end Element

namespace Walk

variable {walk : Walk} {home : Home} {here : Lexeme} {before next : Option Lexeme}
  {process : HdlProcess} {statement : Statement} {element : Element}

/-- A declaration begins without a mode. -/
theorem modeless_readItem : (walk.readItem home here).place.IsModeless := by
  rw [readItem]
  split
  all_goals first
    | exact Element.IsModeless.empty
    | exact home.isModeless_place
    | trivial

theorem modeless_readEntityHeader : (walk.readEntityHeader here).place.IsModeless := by
  rw [readEntityHeader]
  split
  all_goals first
    | exact modeless_readItem
    | trivial

theorem modeless_readArchitectureDeclarations :
    (walk.readArchitectureDeclarations here).place.IsModeless := by
  rw [readArchitectureDeclarations]
  split
  · trivial
  · exact modeless_readItem

theorem modeless_readPackage : (walk.readPackage home here).place.IsModeless := by
  rw [readPackage]
  split
  · trivial
  · exact modeless_readItem

theorem modeless_readProcessDeclarations :
    (walk.readProcessDeclarations process here).place.IsModeless := by
  rw [readProcessDeclarations]
  split
  · trivial
  · exact modeless_readItem

theorem modeless_readEnd : (walk.readEnd next).place.IsModeless := by
  rw [readEnd]
  split
  · trivial
  split
  · trivial
  split <;> trivial

theorem modeless_readFirst : (walk.readFirst here next).place.IsModeless := by
  rw [readFirst]
  split
  all_goals first
    | exact modeless_readItem
    | exact modeless_readEnd
    | trivial
    | skip
  split <;> trivial

theorem modeless_readLater : (walk.readLater statement here next).place.IsModeless := by
  rw [readLater]
  split
  · split <;> trivial
  · split <;> trivial
  · trivial

theorem modeless_readStatement : (walk.readStatement statement here next).place.IsModeless := by
  rw [readStatement]
  split
  all_goals try trivial
  split
  · exact modeless_readFirst
  · exact modeless_readLater

theorem modeless_readChoice {expr : Capture} : (walk.readChoice expr here).place.IsModeless := by
  rw [readChoice]
  split <;> trivial

theorem modeless_closeList (list : InterfaceList) (offset : Nat) :
    (walk.closeList list offset).place.IsModeless := by
  have hPlace : (walk.closeList list offset).place = list.owner.place := by
    unfold closeList
    dsimp only
    split <;> rfl
  exact hPlace ▸ list.owner.isModeless_place

section Standing

variable (h : walk.place.IsModeless)

include h

theorem modeless_readContext : (walk.readContext here next).place.IsModeless := by
  rw [readContext]
  split
  all_goals first
    | exact h
    | trivial
    | skip
  split <;> trivial

theorem modeless_readLibrary : (walk.readLibrary here).place.IsModeless := by
  rw [readLibrary]
  split
  · trivial
  all_goals exact h

theorem modeless_readUse : (walk.readUse home here).place.IsModeless := by
  rw [readUse]
  split
  · exact home.isModeless_place
  · split <;> exact h
  · split <;> exact h
  · exact h

theorem modeless_readConfiguration : (walk.readConfiguration here next).place.IsModeless := by
  rw [readConfiguration]
  split
  · split
    · exact h
    · trivial
  · exact h

theorem modeless_readEntityName : (walk.readEntityName here).place.IsModeless := by
  rw [readEntityName]
  split
  · trivial
  · exact h

theorem modeless_readEntityStatements : (walk.readEntityStatements here).place.IsModeless := by
  rw [readEntityStatements]
  split
  · trivial
  · exact h

theorem modeless_readListOpen {kind : ListKind} {owner : Owner} :
    (walk.readListOpen kind owner here).place.IsModeless := by
  rw [readListOpen]
  split
  · trivial
  · exact owner.isModeless_place
  · exact h

theorem modeless_readInterface {list : InterfaceList} :
    (walk.readInterface list element here).place.IsModeless := by
  rw [readInterface]
  split
  · trivial
  · exact h
  · trivial
  · exact modeless_closeList list _

theorem modeless_readType {type : TypeText} :
    (walk.readType home type here before).place.IsModeless := by
  rw [readType]
  dsimp only
  split
  · split
    · trivial
    · exact h
  · split
    all_goals try trivial
    · split <;> trivial
    · split
      · exact home.isModeless_place
      · trivial

theorem modeless_readArchitectureName {named : Bool} :
    (walk.readArchitectureName named here).place.IsModeless := by
  rw [readArchitectureName]
  split
  · trivial
  · trivial
  · split
    · trivial
    · exact h
  · split
    · trivial
    · exact h
  · exact h

theorem modeless_readArchitectureHeader : (walk.readArchitectureHeader here).place.IsModeless := by
  rw [readArchitectureHeader]
  split
  · trivial
  · exact h

theorem modeless_readComponentName : (walk.readComponentName home here).place.IsModeless := by
  rw [readComponentName]
  split
  · trivial
  · exact h

theorem modeless_readComponentHeader : (walk.readComponentHeader home here).place.IsModeless := by
  rw [readComponentHeader]
  split
  all_goals first
    | exact h
    | trivial

theorem modeless_readSubprogramName : (walk.readSubprogramName home here).place.IsModeless := by
  rw [readSubprogramName]
  split
  · trivial
  · exact h

theorem modeless_readSubprogramHeader :
    (walk.readSubprogramHeader home here next).place.IsModeless := by
  rw [readSubprogramHeader]
  split
  · trivial
  · exact home.isModeless_place
  · split <;> trivial
  · exact h

theorem modeless_readSubprogramBody {nest : BodyNest} :
    (walk.readSubprogramBody home nest here before next).place.IsModeless := by
  rw [readSubprogramBody]
  dsimp only
  split
  all_goals first
    | exact h
    | trivial
    | (split <;> first | exact h | trivial)
    | skip
  split
  · split <;> trivial
  · exact h

theorem modeless_readPackageName : (walk.readPackageName here next).place.IsModeless := by
  rw [readPackageName]
  split
  · split <;> trivial
  · split <;> exact h
  · split <;> exact h
  · exact h

theorem modeless_readPackageBodyName : (walk.readPackageBodyName here).place.IsModeless := by
  rw [readPackageBodyName]
  split
  · trivial
  · exact h

theorem modeless_readSensitivity {depth : Option Nat} :
    (walk.readSensitivity process depth here).place.IsModeless := by
  unfold readSensitivity
  dsimp only
  split
  all_goals first
    | exact modeless_readItem
    | exact h
    | trivial

theorem modeless_readBody {depth : Nat} {statement : Sequential} :
    (walk.readBody process depth statement here before next).place.IsModeless := by
  have hWord {ticked : Bool} :
      (walk.readBodyWord process depth statement here ticked).place.IsModeless := by
    rw [readBodyWord]
    dsimp only
    split <;> trivial
  have hTarget {role : Role} : (walk.markTarget process statement role).place.IsModeless := by
    rw [markTarget]
    split
    · trivial
    · exact h
  unfold readBody
  dsimp only
  split
  all_goals try trivial
  · split
    · trivial
    · exact hWord
  · split
    · exact hTarget
    · exact hWord
  · split
    · exact hTarget
    · exact hWord
  · split
    · trivial
    · exact hWord
  · exact hWord

theorem modeless_readInstance : (walk.readInstance here).place.IsModeless := by
  rw [readInstance]
  split
  · trivial
  · exact h

theorem modeless_readMap {depth : Nat} : (walk.readMap depth here).place.IsModeless := by
  rw [readMap]
  split
  · trivial
  · trivial
  · split
    · trivial
    · exact h
  · exact h

theorem modeless_readSkipped {depth : Nat} :
    (walk.readSkipped home depth here).place.IsModeless := by
  rw [readSkipped]
  split
  · trivial
  · trivial
  · split
    · exact home.isModeless_place
    · exact h
  · exact h

end Standing

theorem modeless_readGenerate {kind : GenerateKind} {depth : Nat} {expr : Capture} :
    (walk.readGenerate kind depth expr here).place.IsModeless := by
  rw [readGenerate]
  dsimp only
  split
  · trivial
  · trivial
  · split <;> trivial
  · trivial

/-- An object declaration that goes on has no mode, as it had none. -/
theorem modeless_readObject {kind : ObjectKind}
    (hPlace : walk.place = .objectDeclaration kind home element) (h : element.IsModeless) :
    (walk.readObject kind home element here).place.IsModeless := by
  rw [readObject]
  split
  · next hRead => exact h.read hRead
  · show walk.place.IsModeless
    rw [hPlace]
    exact h
  · exact home.isModeless_place
  · exact home.isModeless_place

/-- Whatever is read, an object declaration under way has no mode. -/
theorem modeless_read (h : walk.place.IsModeless) :
    (walk.read here before next).place.IsModeless := by
  rw [read]
  cases hPlace : walk.place with
  | entityContext => exact modeless_readContext h
  | libraryClause => exact modeless_readLibrary h
  | useClause home => exact modeless_readUse h
  | configurationDeclaration => exact modeless_readConfiguration h
  | entityName => exact modeless_readEntityName h
  | entityHeader => exact modeless_readEntityHeader
  | entityStatements => exact modeless_readEntityStatements h
  | interfaceListOpen kind owner => exact modeless_readListOpen h
  | interfaceDeclaration list element => exact modeless_readInterface h
  | objectDeclaration kind home element => exact modeless_readObject hPlace (by rwa [hPlace] at h)
  | typeDeclaration home type => exact modeless_readType h
  | architectureName named => exact modeless_readArchitectureName h
  | architectureHeader => exact modeless_readArchitectureHeader h
  | architectureDeclarations => exact modeless_readArchitectureDeclarations
  | architectureBody statement => exact modeless_readStatement
  | componentName home => exact modeless_readComponentName h
  | componentHeader home => exact modeless_readComponentHeader h
  | subprogramName home => exact modeless_readSubprogramName h
  | subprogramHeader home => exact modeless_readSubprogramHeader h
  | subprogramBody home nest => exact modeless_readSubprogramBody h
  | packageName => exact modeless_readPackageName h
  | packageDeclarations => exact modeless_readPackage
  | packageBodyName => exact modeless_readPackageBodyName h
  | packageBody => exact modeless_readPackage
  | processSensitivity process depth => exact modeless_readSensitivity h
  | processDeclarations process => exact modeless_readProcessDeclarations
  | processBody process depth statement => exact modeless_readBody h
  | instanceHeader => exact modeless_readInstance h
  | instanceMap depth => exact modeless_readMap h
  | generateHeader kind depth expr => exact modeless_readGenerate
  | generateChoice expr => exact modeless_readChoice
  | skipStatement home depth => exact modeless_readSkipped h

end Walk

namespace Findings.HasKinds

variable {found other : Findings}

theorem empty : Findings.HasKinds {} := by simp [Findings.HasKinds]

/-- Kinds are asked of the lists only. -/
theorem of_lists (h : found.HasKinds) (hLists : other.lists = found.lists) : other.HasKinds := by
  have hObjects : other.objects = found.objects := by
    simp only [Findings.lists, List.cons.injEq, Prod.mk.injEq] at hLists
    exact hLists.2.2.1.2
  rwa [Findings.HasKinds, hObjects]

theorem modifyList (h : found.HasKinds) (kind : ListKind) (change : Declarations → Declarations) :
    (found.modifyList kind change).HasKinds := by
  cases kind <;> exact h

/-- The names of a declaration are recorded under the word that it begins with. -/
theorem complete (h : found.HasKinds) (kind : ObjectKind) {element : Element}
    (hElement : element.IsModeless) :
    Findings.HasKinds { found with objects := element.complete kind.text found.objects } := by
  intro row hRow
  rcases Array.mem_append.1 hRow with hRow | hRow
  · exact h row hRow
  · obtain ⟨name, -, rfl⟩ := Array.mem_map.1 hRow
    refine ⟨kind, ?_⟩
    show (if element.mode.isEmpty then kind.text else element.mode) = kind.text
    rw [hElement.mode]
    rfl

end Findings.HasKinds

namespace Walk

variable {walk : Walk} {here : Lexeme} {before next : Option Lexeme}

/-- What is found so far has kinds, and what is declared under way will have one. -/
structure HasKinds (walk : Walk) : Prop where
  place : walk.place.IsModeless
  found : walk.found.HasKinds

/-- An object without a mode is recorded under the word of its declaration. -/
theorem found_readObject {kind : ObjectKind} {home : Home} {element : Element}
    (hElement : element.IsModeless) (h : walk.found.HasKinds) :
    (walk.readObject kind home element here).found.HasKinds := by
  rw [readObject]
  split
  · exact h
  · exact h
  · exact h.complete kind hElement
  · exact h.complete kind hElement

/-- Elements of lists are recorded elsewhere. -/
theorem found_readInterface {list : InterfaceList} {element : Element} (h : walk.found.HasKinds) :
    (walk.readInterface list element here).found.HasKinds := by
  rw [readInterface]
  split
  · exact h
  · exact h.modifyList _ _
  · exact h.modifyList _ _
  · exact (h.modifyList _ _).of_lists (lists_closeList _)

/-- Each word keeps objects under words that declare objects. -/
theorem HasKinds.read (h : walk.HasKinds) : (walk.read here before next).HasKinds := by
  refine ⟨modeless_read h.place, ?_⟩
  cases hFilling : walk.place.filling? with
  | none => exact h.found.of_lists (lists_read hFilling)
  | some category =>
      have hPlace := h.place
      rw [Walk.read]
      cases hCase : walk.place with
      | interfaceDeclaration list element => exact found_readInterface h.found
      | objectDeclaration kind home element =>
          exact found_readObject (by rwa [hCase] at hPlace) h.found
      | _ =>
          rw [hCase] at hFilling
          cases hFilling

/-- And each event does. -/
theorem HasKinds.step (h : walk.HasKinds) (event : Event) : (walk.step event).HasKinds := by
  cases event with
  | comment span => exact h
  | filler token =>
      refine ⟨?_, h.found⟩
      have hPlace := h.place
      show (walk.place.absorb token).IsModeless
      cases hCase : walk.place with
      | objectDeclaration kind home element =>
          rw [hCase] at hPlace
          exact ⟨hPlace.mode, hPlace.part⟩
      | _ => trivial
  | word here before next =>
      let noted := walk.note (.visited walk.place.region.name here.text)
      have hNoted : noted.HasKinds := ⟨h.place, h.found⟩
      exact hNoted.read

theorem HasKinds.run (h : walk.HasKinds) (events : List Event) : (walk.run events).HasKinds := by
  induction events generalizing walk with
  | nil => exact h
  | cons event events ih => exact ih (h.step event)

theorem HasKinds.start (region : Region) : (Walk.start region).HasKinds := by
  rw [Walk.start]
  split
  · next place hEntry =>
    refine ⟨?_, .empty⟩
    cases region <;> simp [Place.ofEntry?] at hEntry <;> subst hEntry <;> trivial
  · exact ⟨trivial, .empty⟩

/-- As does the end of the text. -/
theorem HasKinds.finish (h : walk.HasKinds) (size : Nat) : (walk.finish size).found.HasKinds := by
  have hEnd : (walk.flushed size).found.HasKinds := by
    have hPlace := h.place
    rw [flushed]
    cases hCase : walk.place with
    | interfaceDeclaration list element =>
        exact (h.found.modifyList _ _).of_lists (lists_closeList size)
    | objectDeclaration kind home element => exact h.found.complete kind (by rwa [hCase] at hPlace)
    | _ => exact h.found
  exact finish_of_flushed (P := (·.found.HasKinds)) hEnd fun _ _ => hEnd.of_lists rfl

end Walk

/-- The objects of every text are signals, constants, variables and files. -/
theorem scan_objects (region : Region) (limit : Option Nat) (text : String) :
    (scan region limit text).table.HasKinds := by
  have hFound := (Walk.HasKinds.start region).run
    (readEvents text.utf8ByteSize (tokens limit text).list) |>.finish text.utf8ByteSize
  have hSettled :=
    settled_walkThrough region (readEvents text.utf8ByteSize (tokens limit text).list)
      text.utf8ByteSize
  show (walkThrough region _ _).found.align.HasKinds
  rw [hSettled.align_eq_self]
  exact hFound

end HdlIndex.Vhdl

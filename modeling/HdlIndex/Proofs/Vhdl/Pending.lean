import HdlIndex.Proofs.Vhdl.ReadingWords
import HdlIndex.Vhdl.Scan

/-! Names that wait for their attributes. Only the declaration list that the walk is filling has
such names, and the place where the walk stands says which list that is. All other places leave the
declaration lists as they are. -/
namespace HdlIndex.Vhdl

/-- The category of an interface list. -/
def ListKind.category : ListKind → String
  | ports => "port_interface"
  | generics => "generics_interface"
  | componentPorts => "component_port_interface"
  | componentGenerics => "component_generics_interface"
  | parameters => "subprogram_parameter"

/-- The category of the declaration list that is filled at a place. -/
def Place.filling? : Place → Option String
  | .interfaceDeclaration list _ => some list.kind.category
  | .objectDeclaration .. => some "signal_constant_variable"
  | _ => none

namespace Walk

variable {walk : Walk} {home : Home} {here : Lexeme} {before next : Option Lexeme}
  {process : HdlProcess} {statement : Statement}

theorem lists_readItem : (walk.readItem home here).found.lists = walk.found.lists := by
  rw [readItem]
  split <;> rfl

theorem lists_readContext : (walk.readContext here next).found.lists = walk.found.lists := by
  rw [readContext]
  split <;> rfl

theorem lists_readLibrary : (walk.readLibrary here).found.lists = walk.found.lists := by
  rw [readLibrary]
  split <;> rfl

theorem lists_readUse : (walk.readUse home here).found.lists = walk.found.lists := by
  rw [readUse]
  split
  · rfl
  · split <;> rfl
  · split <;> rfl
  · rfl

theorem lists_readConfiguration :
    (walk.readConfiguration here next).found.lists = walk.found.lists := by
  rw [readConfiguration]
  split
  · split <;> rfl
  · rfl

theorem lists_readEntityName : (walk.readEntityName here).found.lists = walk.found.lists := by
  rw [readEntityName]
  split <;> rfl

theorem lists_readEntityHeader : (walk.readEntityHeader here).found.lists = walk.found.lists := by
  rw [readEntityHeader]
  split
  all_goals first
    | rfl
    | exact lists_readItem

theorem lists_readEntityStatements :
    (walk.readEntityStatements here).found.lists = walk.found.lists := by
  rw [readEntityStatements]
  split <;> rfl

theorem lists_readListOpen {kind : ListKind} {owner : Owner} :
    (walk.readListOpen kind owner here).found.lists = walk.found.lists := by
  rw [readListOpen]
  split <;> rfl

/-- A type declaration touches no list. -/
theorem lists_readType {type : TypeText} :
    (walk.readType home type here before).found.lists = walk.found.lists := by
  rw [readType]
  dsimp only
  split
  · split <;> rfl
  · split
    all_goals first
      | rfl
      | (split <;> rfl)

/-- Nor does the name of an architecture. -/
theorem lists_readArchitectureName {named : Bool} :
    (walk.readArchitectureName named here).found.lists = walk.found.lists := by
  rw [readArchitectureName]
  split
  · rfl
  · rfl
  · split <;> rfl
  · split <;> rfl
  · rfl

theorem lists_readArchitectureHeader :
    (walk.readArchitectureHeader here).found.lists = walk.found.lists := by
  rw [readArchitectureHeader]
  split <;> rfl

theorem lists_readArchitectureDeclarations :
    (walk.readArchitectureDeclarations here).found.lists = walk.found.lists := by
  rw [readArchitectureDeclarations]
  split
  · rfl
  · exact lists_readItem

theorem lists_readComponentName :
    (walk.readComponentName home here).found.lists = walk.found.lists := by
  rw [readComponentName]
  split <;> rfl

theorem lists_readComponentHeader :
    (walk.readComponentHeader home here).found.lists = walk.found.lists := by
  rw [readComponentHeader]
  split <;> rfl

theorem lists_readSubprogramName :
    (walk.readSubprogramName home here).found.lists = walk.found.lists := by
  rw [readSubprogramName]
  split <;> rfl

theorem lists_readSubprogramHeader :
    (walk.readSubprogramHeader home here next).found.lists = walk.found.lists := by
  rw [readSubprogramHeader]
  split
  · rfl
  · rfl
  · split <;> rfl
  · rfl

/-- Nor does a body that is passed over. -/
theorem lists_readSubprogramBody {nest : BodyNest} :
    (walk.readSubprogramBody home nest here before next).found.lists = walk.found.lists := by
  rw [readSubprogramBody]
  dsimp only
  split
  · split <;> rfl
  · split <;> rfl
  · split <;> rfl
  · rfl
  · rfl
  · split <;> rfl
  · split
    · split <;> rfl
    · rfl
  · rfl

theorem lists_readPackageName :
    (walk.readPackageName here next).found.lists = walk.found.lists := by
  rw [readPackageName]
  split
  · split <;> rfl
  · split <;> rfl
  · split <;> rfl
  · rfl

theorem lists_readPackageBodyName :
    (walk.readPackageBodyName here).found.lists = walk.found.lists := by
  rw [readPackageBodyName]
  split <;> rfl

theorem lists_readPackage : (walk.readPackage home here).found.lists = walk.found.lists := by
  rw [readPackage]
  split
  · rfl
  · exact lists_readItem

theorem lists_readSkipped {depth : Nat} :
    (walk.readSkipped home depth here).found.lists = walk.found.lists := by
  rw [readSkipped]
  split
  · rfl
  · rfl
  · split <;> rfl
  · rfl

theorem found_modifyGenerate (change : Generate → Generate) :
    (walk.modifyGenerate change).found = walk.found := by
  rw [modifyGenerate]
  split <;> rfl

theorem lists_commitInstance (unit : Word) (library : String) :
    (walk.commitInstance unit library).found.lists = walk.found.lists := by
  rw [commitInstance]
  split <;> rfl

theorem lists_readEnd : (walk.readEnd next).found.lists = walk.found.lists := by
  rw [readEnd]
  split
  · rfl
  split
  · rfl
  split
  · exact congrArg Findings.lists (found_modifyGenerate _)
  · rfl

theorem lists_readFirst : (walk.readFirst here next).found.lists = walk.found.lists := by
  rw [readFirst]
  split
  all_goals first
    | rfl
    | exact lists_readItem
    | exact lists_readEnd
    | exact congrArg Findings.lists (found_modifyGenerate _)
    | skip
  split
  · exact congrArg Findings.lists (found_modifyGenerate _)
  · rfl

theorem lists_readLater : (walk.readLater statement here next).found.lists = walk.found.lists := by
  rw [readLater]
  split
  · split
    · unfold takeLabel
      split <;> rfl
    · rfl
  · split <;> rfl
  · rfl

/-- Nor does a statement. -/
theorem lists_readStatement :
    (walk.readStatement statement here next).found.lists = walk.found.lists := by
  rw [readStatement]
  split
  · exact lists_commitInstance _ _
  · exact lists_commitInstance _ _
  · exact lists_commitInstance _ _
  · rfl
  · rfl
  · split
    · exact lists_readFirst
    · exact lists_readLater

theorem lists_readInstance : (walk.readInstance here).found.lists = walk.found.lists := by
  rw [readInstance]
  split
  · exact lists_commitInstance _ _
  · rfl

theorem lists_readMap {depth : Nat} : (walk.readMap depth here).found.lists = walk.found.lists := by
  rw [readMap]
  split
  · rfl
  · rfl
  · split <;> rfl
  · rfl

theorem found_enterGenerate (kind : GenerateKind) (condition : String) :
    (walk.enterGenerate kind condition).found = walk.found := by
  unfold enterGenerate
  split
  · rfl
  · split <;> rfl
  · rfl
  · rfl

theorem lists_readGenerate {kind : GenerateKind} {depth : Nat} {expr : Capture} :
    (walk.readGenerate kind depth expr here).found.lists = walk.found.lists := by
  rw [readGenerate]
  dsimp only
  split
  · rfl
  · rfl
  · split
    · exact congrArg Findings.lists (found_enterGenerate _ _)
    · rfl
  · rfl

theorem lists_readChoice {expr : Capture} :
    (walk.readChoice expr here).found.lists = walk.found.lists := by
  rw [readChoice]
  split
  · exact congrArg Findings.lists (found_modifyGenerate _)
  · rfl

theorem lists_readSensitivity {depth : Option Nat} :
    (walk.readSensitivity process depth here).found.lists = walk.found.lists := by
  unfold readSensitivity
  dsimp only
  split
  all_goals first
    | rfl
    | exact lists_readItem

theorem lists_readProcessDeclarations :
    (walk.readProcessDeclarations process here).found.lists = walk.found.lists := by
  rw [readProcessDeclarations]
  split
  · rfl
  · exact lists_readItem

theorem lists_readBodyWord {depth : Nat} {statement : Sequential} {ticked : Bool} :
    (walk.readBodyWord process depth statement here ticked).found.lists = walk.found.lists := by
  rw [readBodyWord]
  dsimp only
  split <;> rfl

theorem lists_markTarget {statement : Sequential} {role : Role} :
    (walk.markTarget process statement role).found.lists = walk.found.lists := by
  rw [markTarget]
  split <;> rfl

/-- Nor does a process. -/
theorem lists_readBody {depth : Nat} {statement : Sequential} :
    (walk.readBody process depth statement here before next).found.lists = walk.found.lists := by
  unfold readBody
  dsimp only
  split
  all_goals try rfl
  · split
    · rfl
    · exact lists_readBodyWord
  · split
    · exact lists_markTarget
    · exact lists_readBodyWord
  · split
    · exact lists_markTarget
    · exact lists_readBodyWord
  · split
    · rfl
    · exact lists_readBodyWord
  · exact lists_readBodyWord

/-- Where no list is filled, reading a word leaves the declaration lists as they are. -/
theorem lists_read (h : walk.place.filling? = none) :
    (walk.read here before next).found.lists = walk.found.lists := by
  rw [read]
  generalize walk.place = place at h
  cases place with
  | interfaceDeclaration list element => cases h
  | objectDeclaration kind home element => cases h
  | entityContext => exact lists_readContext
  | libraryClause => exact lists_readLibrary
  | useClause home => exact lists_readUse
  | configurationDeclaration => exact lists_readConfiguration
  | entityName => exact lists_readEntityName
  | entityHeader => exact lists_readEntityHeader
  | entityStatements => exact lists_readEntityStatements
  | interfaceListOpen kind owner => exact lists_readListOpen
  | typeDeclaration home type => exact lists_readType
  | architectureName named => exact lists_readArchitectureName
  | architectureHeader => exact lists_readArchitectureHeader
  | architectureDeclarations => exact lists_readArchitectureDeclarations
  | architectureBody statement => exact lists_readStatement
  | componentName home => exact lists_readComponentName
  | componentHeader home => exact lists_readComponentHeader
  | subprogramName home => exact lists_readSubprogramName
  | subprogramHeader home => exact lists_readSubprogramHeader
  | subprogramBody home nest => exact lists_readSubprogramBody
  | packageName => exact lists_readPackageName
  | packageDeclarations => exact lists_readPackage
  | packageBodyName => exact lists_readPackageBodyName
  | packageBody => exact lists_readPackage
  | processSensitivity process depth => exact lists_readSensitivity
  | processDeclarations process => exact lists_readProcessDeclarations
  | processBody process depth statement => exact lists_readBody
  | instanceHeader => exact lists_readInstance
  | instanceMap depth => exact lists_readMap
  | generateHeader kind depth expr => exact lists_readGenerate
  | generateChoice expr => exact lists_readChoice
  | skipStatement home depth => exact lists_readSkipped

end Walk

/-- Only the list that is being filled has names without attributes. -/
def Findings.Settled (found : Findings) (filling? : Option String) : Prop :=
  ∀ list ∈ found.lists, list.2.pending = #[] ∨ filling? = some list.1

namespace Findings.Settled

variable {found : Findings} {filling? : Option String}

theorem empty : Findings.Settled {} filling? := by simp [Findings.Settled, Findings.lists]

/-- Pending names are asked of the lists only. -/
theorem of_lists {other : Findings} (h : found.Settled none) (hLists : other.lists = found.lists) :
    other.Settled filling? := by
  intro list hMem
  rw [hLists] at hMem
  exact .inl ((h list hMem).resolve_right (by simp))

theorem pending (h : found.Settled none) : ∀ list ∈ found.lists, list.2.pending = #[] :=
  fun list hMem => (h list hMem).resolve_right (by simp)

/-- Where no name waits for its attributes, completing the lists changes nothing. -/
theorem align_eq_self (h : found.Settled none) : found.align = found := by
  have hLists := h.pending
  simp only [Findings.lists, List.forall_mem_cons] at hLists
  obtain ⟨hPorts, hGenerics, hObjects, hComponentPorts, hComponentGenerics, hParameters, -⟩ :=
    hLists
  simp [Findings.align, Declarations.align, hPorts, hGenerics, hObjects, hComponentPorts,
    hComponentGenerics, hParameters]

/-- Where no name waits for its attributes, no list has to be remarked. -/
theorem ragged_eq_nil (h : found.Settled none) : found.ragged = [] := by
  simp only [Findings.ragged, List.map_eq_nil_iff, List.filter_eq_nil_iff]
  intro list hMem
  simp [Declarations.isAligned, h.pending list hMem]

/-- A change to the list that is filled leaves the other lists as they are. -/
theorem modifyList {kind : ListKind} (h : found.Settled (some kind.category))
    (change : Declarations → Declarations) :
    (found.modifyList kind change).Settled (some kind.category) := by
  simp only [Findings.Settled, Findings.lists, List.forall_mem_cons] at h
  cases kind <;>
    simp_all [Findings.Settled, Findings.lists, Findings.modifyList, ListKind.category]

theorem modifyObjects (h : found.Settled (some "signal_constant_variable"))
    (change : Declarations → Declarations) :
    Findings.Settled { found with objects := change found.objects }
      (some "signal_constant_variable") := by
  simp only [Findings.Settled, Findings.lists, List.forall_mem_cons] at h
  simp_all [Findings.Settled, Findings.lists]

/-- Completing the list that is filled leaves no name without attributes. -/
theorem completeList {kind : ListKind} {change : Declarations → Declarations}
    (h : found.Settled (some kind.category)) (hChange : ∀ list, (change list).pending = #[]) :
    (found.modifyList kind change).Settled none := by
  simp only [Findings.Settled, Findings.lists, List.forall_mem_cons] at h
  cases kind <;>
    simp_all [Findings.Settled, Findings.lists, Findings.modifyList, ListKind.category]

theorem completeObjects {change : Declarations → Declarations}
    (h : found.Settled (some "signal_constant_variable"))
    (hChange : ∀ list, (change list).pending = #[]) :
    Findings.Settled { found with objects := change found.objects } none := by
  simp only [Findings.Settled, Findings.lists, List.forall_mem_cons] at h
  simp_all [Findings.Settled, Findings.lists]

end Findings.Settled

namespace Walk

variable {walk : Walk} {list : InterfaceList} {element : Element} {here : Lexeme}
  {before next : Option Lexeme}

theorem settled_completeElement (h : walk.found.Settled (some list.kind.category)) :
    (walk.completeElement list element).found.Settled none :=
  h.completeList fun _ => rfl

theorem settled_completeObject {kind : ObjectKind}
    (h : walk.found.Settled (some "signal_constant_variable")) :
    (walk.completeObject kind element).found.Settled none :=
  h.completeObjects fun _ => rfl

theorem lists_closeList (offset : Nat) :
    (walk.closeList list offset).found.lists = walk.found.lists := by
  unfold closeList
  dsimp only
  split <;> rfl

/-- In an interface list at most that list has names without attributes, and none once the element
is complete. -/
theorem settled_readInterface (hPlace : walk.place = .interfaceDeclaration list element)
    (h : walk.found.Settled (some list.kind.category)) :
    (walk.readInterface list element here).found.Settled
      (walk.readInterface list element here).place.filling? := by
  rw [readInterface]
  split
  · exact h
  · next word _ =>
    have hChanged := h.modifyList (·.pushName word)
    simpa [collect, hPlace, Place.filling?] using hChanged
  · exact (settled_completeElement h).of_lists rfl
  · exact (settled_completeElement h).of_lists (lists_closeList _)

/-- In an object declaration at most the objects have. -/
theorem settled_readObject {kind : ObjectKind} {home : Home}
    (hPlace : walk.place = .objectDeclaration kind home element)
    (h : walk.found.Settled (some "signal_constant_variable")) :
    (walk.readObject kind home element here).found.Settled
      (walk.readObject kind home element here).place.filling? := by
  rw [readObject]
  split
  · exact h
  · next word _ =>
    have hChanged := h.modifyObjects (·.pushName word)
    simpa [collect, hPlace, Place.filling?] using hChanged
  · exact (settled_completeObject h).of_lists rfl
  · exact (settled_completeObject h).of_lists rfl

/-- Reading a word keeps names without attributes in the list that is filled. -/
theorem settled_read (h : walk.found.Settled walk.place.filling?) :
    (walk.read here before next).found.Settled (walk.read here before next).place.filling? := by
  cases hFilling : walk.place.filling? with
  | none =>
      rw [hFilling] at h
      exact h.of_lists (lists_read hFilling)
  | some category =>
      rw [read]
      generalize hPlace : walk.place = place at h hFilling
      cases place with
      | interfaceDeclaration list element => exact settled_readInterface hPlace h
      | objectDeclaration kind home element => exact settled_readObject hPlace h
      | _ => cases hFilling

/-- So after any event the only list with pending names is the one that is being filled. -/
theorem settled_step (h : walk.found.Settled walk.place.filling?) (event : Event) :
    (walk.step event).found.Settled (walk.step event).place.filling? := by
  cases event with
  | comment span => exact h
  | filler token =>
      have hPlace : (walk.place.absorb token).filling? = walk.place.filling? := by
        cases walk.place <;> rfl
      show walk.found.Settled (walk.place.absorb token).filling?
      rwa [hPlace]
  | word here before next =>
      let noted := walk.note (.visited walk.place.region.name here.text)
      have hNoted : noted.found.Settled noted.place.filling? := h
      exact settled_read hNoted

/-- In every state of a walk, only the list that is filled has names without attributes. -/
theorem settled_run (h : walk.found.Settled walk.place.filling?) (events : List Event) :
    (walk.run events).found.Settled (walk.run events).place.filling? := by
  induction events generalizing walk with
  | nil => exact h
  | cons event events ih => exact ih (settled_step h event)

theorem settled_start (region : Region) :
    (Walk.start region).found.Settled (Walk.start region).place.filling? := by
  have hFound : (Walk.start region).found = {} := by
    rw [Walk.start]
    split <;> rfl
  rw [hFound]
  exact .empty

/-- The end of the text completes the list that is filled. -/
theorem settled_finish (h : walk.found.Settled walk.place.filling?) (size : Nat) :
    (walk.finish size).found.Settled none := by
  have hEnd : (walk.flushed size).found.Settled none := by
    rw [flushed]
    generalize walk.place = place at h
    cases place with
    | interfaceDeclaration list element =>
        exact (settled_completeElement h).of_lists (lists_closeList size)
    | objectDeclaration kind home element => exact settled_completeObject h
    | _ => exact h
  exact finish_of_flushed (P := (·.found.Settled none)) hEnd fun _ _ => hEnd.of_lists rfl

end Walk

/-- When the declaration lists are completed, none of them has a name without attributes. -/
theorem settled_walkThrough (region : Region) (events : List Event) (size : Nat) :
    (walkThrough region events size).found.Settled none :=
  Walk.settled_finish (Walk.settled_run (Walk.settled_start region) events) size

end HdlIndex.Vhdl

import HdlIndex.Proofs.Symbols.Ledger
import HdlIndex.Proofs.Vhdl.WalkWords

/-! What reading a word does to processes. Most words leave them alone: the same one is open behind
the word, none is closed, and a label comes from the statement that it begins. Only the words of an
open process change it, `process` opens one, and `end process` closes it. -/
namespace HdlIndex.Vhdl

/-- The word that a concurrent statement begins with, as far as it is read. -/
def Place.first? : Place → Option Word
  | .architectureBody statement => statement.first
  | _ => none

/-- A process whose sensitivity list is read has no body yet. -/
def Place.Lists : Place → Prop
  | .processSensitivity process _ => process.body = #[]
  | _ => True

theorem Place.first?_of_process? {place : Place} (h : place.process?.isSome = true) :
    place.first? = none := by
  cases place with
  | architectureBody statement => cases h
  | _ => rfl

theorem Home.first?_place (home : Home) : home.place.first? = none := by cases home <;> rfl

theorem Home.lists_place (home : Home) : home.place.Lists := by cases home <;> trivial

theorem Owner.first?_place (owner : Owner) : owner.place.first? = none := by cases owner <;> rfl

theorem Owner.lists_place (owner : Owner) : owner.place.Lists := by cases owner <;> trivial

namespace Walk

/-- The processes as the walk has them. -/
def ledger (walk : Walk) : Ledger := ⟨walk.place.process?, walk.found.processes.toList⟩

/-- The walk is still at its place, and it has recorded neither processes nor clocked signals. -/
structure Stays (walk base : Walk) : Prop where
  place : base.place = walk.place
  processes : base.found.processes = walk.found.processes
  clocked : base.found.clocked = walk.found.clocked
  label : ∀ word ∈ base.label, word ∈ walk.label ∨ word ∈ walk.place.first?

/-- Processes and clocked signals are as before, and the words that a process may begin at are words
of the statement under way. -/
structure Keeps (here : Word) (walk other : Walk) : Prop where
  current : other.place.process? = walk.place.process?
  processes : other.found.processes = walk.found.processes
  clocked : other.found.clocked = walk.found.clocked
  label : ∀ word ∈ other.label, word ∈ walk.label ∨ word ∈ walk.place.first?
  first : ∀ word ∈ other.place.first?, word = here ∨ word ∈ walk.place.first?
  lists : other.place.Lists

/-- What reading a word does to processes. -/
inductive Turn (here : Lexeme) (next : Option Lexeme) (walk : Walk) : Walk → Prop where
  | keeps {other : Walk} (h : walk.Keeps here.word other) : Turn here next walk other
  | opens (h : walk.place.process? = none) : Turn here next walk (walk.beginProcess here)
  | grows {process other : HdlProcess} {place : Place} (h : walk.place.process? = some process)
      (hContinues : process.Continues here.word other) (hPlace : place.process? = some other)
      (hFirst : place.first? = none) (hLists : place.Lists) : Turn here next walk (walk.goto place)
  | closes {process : HdlProcess} {token : Token} (h : walk.place.process? = some process)
      (hNext : next = some ⟨token, .keyword .process⟩) :
      Turn here next walk ((walk.commitProcess process token.span.stop).skip .architectureBody)

namespace Keeps

variable {walk : Walk} {place : Place} {home : Home} {owner : Owner} {here : Lexeme} {word : Word}
  {before next : Option Lexeme} {change : Findings → Findings}

theorem refl (walk : Walk) (hLists : walk.place.Lists) : walk.Keeps word walk :=
  ⟨rfl, rfl, rfl, fun _ => .inl, fun _ => .inr, hLists⟩

/-- Another place with the same process, where no statement is under way. -/
theorem goto (h : place.process? = walk.place.process?) (hFirst : place.first? = none)
    (hLists : place.Lists) : walk.Keeps word (walk.goto place) :=
  ⟨h, rfl, rfl, fun _ => .inl, by simp [Walk.goto, hFirst], hLists⟩

theorem gotoHome (h : walk.place.process? = home.process?) :
    walk.Keeps word (walk.goto home.place) :=
  goto (home.process?_place.trans h.symm) home.first?_place home.lists_place

theorem gotoOwner (h : walk.place.process? = owner.process?) :
    walk.Keeps word (walk.goto owner.place) :=
  goto (owner.process?_place.trans h.symm) owner.first?_place owner.lists_place

/-- What the walk does before it goes on may be left out. -/
theorem of_stays {base other : Walk} (hBase : walk.Stays base) (h : base.Keeps word other) :
    walk.Keeps word other where
  current := h.current.trans (congrArg Place.process? hBase.place)
  processes := h.processes.trans hBase.processes
  clocked := h.clocked.trans hBase.clocked
  label label hMem := (h.label label hMem).elim (hBase.label label) fun hFirst =>
    .inr (hBase.place ▸ hFirst)
  first := by
    intro label hMem
    rw [← hBase.place]
    exact h.first label hMem
  lists := h.lists

theorem collect {other : Walk} (h : (walk.collect change).Keeps word other)
    (hProcesses : (change walk.found).processes = walk.found.processes)
    (hClocked : (change walk.found).clocked = walk.found.clocked) : walk.Keeps word other :=
  have hBase : walk.Stays (walk.collect change) := ⟨rfl, hProcesses, hClocked, fun _ => .inl⟩
  of_stays hBase h

theorem readItem (h : walk.place.process? = home.process?) :
    walk.Keeps word (walk.readItem home here) := by
  rw [Walk.readItem]
  split
  all_goals try exact goto h.symm rfl trivial
  · exact collect (goto h.symm rfl trivial) rfl rfl
  · exact collect (goto h.symm rfl trivial) rfl rfl
  · exact gotoHome h

theorem readContext (h : walk.place = .entityContext) :
    walk.Keeps word (walk.readContext here next) := by
  rw [Walk.readContext]
  split
  all_goals try exact goto (by rw [h]; rfl) rfl trivial
  · split <;> exact goto (by rw [h]; rfl) rfl trivial
  · exact refl walk (h ▸ trivial)

theorem readLibrary (h : walk.place = .libraryClause) :
    walk.Keeps word (walk.readLibrary here) := by
  have hLists : walk.place.Lists := h ▸ trivial
  rw [Walk.readLibrary]
  split
  · exact goto (by rw [h]; rfl) rfl trivial
  · exact collect (refl _ hLists) rfl rfl
  · exact collect (refl _ hLists) rfl rfl
  · exact refl walk hLists

theorem readUse (h : walk.place = .useClause home) :
    walk.Keeps word (walk.readUse home here) := by
  have hLists : walk.place.Lists := h ▸ trivial
  rw [Walk.readUse]
  split
  · exact gotoHome (by rw [h]; rfl)
  · split
    · exact collect (refl _ hLists) rfl rfl
    · exact refl walk hLists
  · split
    · exact collect (refl _ hLists) rfl rfl
    · exact refl walk hLists
  · exact refl walk hLists

theorem readConfiguration (h : walk.place = .configurationDeclaration) :
    walk.Keeps word (walk.readConfiguration here next) := by
  have hLists : walk.place.Lists := h ▸ trivial
  rw [Walk.readConfiguration]
  split
  · split
    · exact refl walk hLists
    · exact goto (by rw [h]; rfl) rfl trivial
  · exact refl walk hLists

theorem readEntityName (h : walk.place = .entityName) :
    walk.Keeps word (walk.readEntityName here) := by
  rw [Walk.readEntityName]
  split
  · refine of_stays ?_ (goto (by rw [note, Walk.collect, h]; rfl) rfl trivial)
    exact ⟨rfl, rfl, rfl, fun _ => .inl⟩
  · exact refl walk (h ▸ trivial)

theorem readEntityHeader (h : walk.place = .entityHeader) :
    walk.Keeps word (walk.readEntityHeader here) := by
  rw [Walk.readEntityHeader]
  split
  all_goals try exact goto (by rw [h]; rfl) rfl trivial
  exact readItem (by rw [h]; rfl)

theorem readEntityStatements (h : walk.place = .entityStatements) :
    walk.Keeps word (walk.readEntityStatements here) := by
  rw [Walk.readEntityStatements]
  split
  · exact goto (by rw [h]; rfl) rfl trivial
  · exact refl walk (h ▸ trivial)

theorem readListOpen {kind : ListKind} (h : walk.place = .interfaceListOpen kind owner) :
    walk.Keeps word (walk.readListOpen kind owner here) := by
  have hOwner : walk.place.process? = owner.process? := by
    rw [h, Place.process?_interfaceListOpen]
  rw [Walk.readListOpen]
  split
  · exact goto ((Place.process?_interfaceDeclaration _ _).trans hOwner.symm) rfl trivial
  · exact gotoOwner hOwner
  · exact refl walk (h ▸ trivial)

theorem closeList {list : InterfaceList} {offset : Nat}
    (h : walk.place.process? = list.owner.process?) :
    walk.Keeps word (walk.closeList list offset) := by
  have hOwner : walk.Keeps word (walk.goto list.owner.place) := gotoOwner h
  unfold Walk.closeList
  dsimp only
  split
  · exact ⟨hOwner.current, rfl, rfl, hOwner.label, hOwner.first, hOwner.lists⟩
  · exact hOwner

theorem modifyList {found : Findings} {kind : ListKind} {change : Declarations → Declarations} :
    (found.modifyList kind change).processes = found.processes ∧
    (found.modifyList kind change).clocked = found.clocked := by
  cases kind <;> exact ⟨rfl, rfl⟩

theorem readInterface {list : InterfaceList} {element : Element}
    (h : walk.place = .interfaceDeclaration list element) :
    walk.Keeps word (walk.readInterface list element here) := by
  have hOwner : walk.place.process? = list.owner.process? := by
    rw [h, Place.process?_interfaceDeclaration]
  have hList : ∀ element, (Place.interfaceDeclaration list element).process? =
      walk.place.process? := fun _ => (Place.process?_interfaceDeclaration _ _).trans hOwner.symm
  rw [Walk.readInterface]
  split
  · exact goto (hList _) rfl trivial
  · exact collect (refl _ (h ▸ trivial)) modifyList.1 modifyList.2
  · exact collect (goto (hList _) rfl trivial) modifyList.1 modifyList.2
  · exact collect (closeList hOwner) modifyList.1 modifyList.2

theorem readObject {kind : ObjectKind} {element : Element}
    (h : walk.place = .objectDeclaration kind home element) :
    walk.Keeps word (walk.readObject kind home element here) := by
  rw [Walk.readObject]
  split
  · exact goto (by rw [h]; rfl) rfl trivial
  · exact collect (refl _ (h ▸ trivial)) rfl rfl
  · exact collect (gotoHome (by rw [Walk.collect, h]; rfl)) rfl rfl
  · exact collect (gotoHome (by rw [Walk.collect, h]; rfl)) rfl rfl

/-- A type declaration leaves the process that it stands in alone. -/
theorem readType {type : TypeText} (h : walk.place = .typeDeclaration home type) :
    walk.Keeps word (walk.readType home type here before) := by
  have hStay : ∀ type, walk.Keeps word (walk.goto (.typeDeclaration home type)) :=
    fun _ => goto (by rw [h]; rfl) rfl trivial
  rw [Walk.readType]
  dsimp only
  split
  · split
    · exact hStay _
    · exact refl walk (h ▸ trivial)
  · split
    all_goals try exact hStay _
    · split <;> exact hStay _
    · split
      · exact collect (gotoHome (by rw [Walk.collect, h]; rfl)) rfl rfl
      · exact hStay _

theorem readArchitectureName {named : Bool} (h : walk.place = .architectureName named) :
    walk.Keeps word (walk.readArchitectureName named here) := by
  have hLists : walk.place.Lists := h ▸ trivial
  rw [Walk.readArchitectureName]
  split
  · exact goto (by rw [h]; rfl) rfl trivial
  · exact goto (by rw [h]; rfl) rfl trivial
  · split
    · exact collect (goto (by rw [Walk.collect, h]; rfl) rfl trivial) rfl rfl
    · exact collect (refl _ hLists) rfl rfl
  · split
    · exact collect (goto (by rw [Walk.collect, h]; rfl) rfl trivial) rfl rfl
    · exact collect (refl _ hLists) rfl rfl
  · exact refl walk hLists

theorem readArchitectureHeader (h : walk.place = .architectureHeader) :
    walk.Keeps word (walk.readArchitectureHeader here) := by
  rw [Walk.readArchitectureHeader]
  split
  · exact goto (by rw [h]; rfl) rfl trivial
  · exact refl walk (h ▸ trivial)

theorem nextStatement (h : walk.place.process? = none) : walk.Keeps word walk.nextStatement :=
  ⟨h.symm, rfl, rfl, fun _ => .inl, by simp [Walk.nextStatement, Walk.goto, Place.first?], trivial⟩

theorem readArchitectureDeclarations (h : walk.place = .architectureDeclarations) :
    walk.Keeps word (walk.readArchitectureDeclarations here) := by
  rw [Walk.readArchitectureDeclarations]
  split
  · exact nextStatement (by rw [h]; rfl)
  · exact readItem (by rw [h]; rfl)

theorem readComponentName (h : walk.place = .componentName home) :
    walk.Keeps word (walk.readComponentName home here) := by
  rw [Walk.readComponentName]
  split
  · exact collect (goto (by rw [Walk.collect, h]; rfl) rfl trivial) rfl rfl
  · exact refl walk (h ▸ trivial)

theorem readComponentHeader (h : walk.place = .componentHeader home) :
    walk.Keeps word (walk.readComponentHeader home here) := by
  rw [Walk.readComponentHeader]
  split
  · exact goto (by rw [h]; rfl) rfl trivial
  · exact goto (by rw [h]; rfl) rfl trivial
  · exact goto (by rw [h]; rfl) rfl trivial
  · exact refl walk (h ▸ trivial)

theorem readSubprogramName (h : walk.place = .subprogramName home) :
    walk.Keeps word (walk.readSubprogramName home here) := by
  rw [Walk.readSubprogramName]
  split
  · exact collect (goto (by rw [Walk.collect, h]; rfl) rfl trivial) rfl rfl
  · exact refl walk (h ▸ trivial)

theorem readSubprogramHeader (h : walk.place = .subprogramHeader home) :
    walk.Keeps word (walk.readSubprogramHeader home here next) := by
  rw [Walk.readSubprogramHeader]
  split
  · exact goto (by rw [h]; rfl) rfl trivial
  · exact gotoHome (by rw [h]; rfl)
  · split <;> exact goto (by rw [h]; rfl) rfl trivial
  · exact refl walk (h ▸ trivial)

/-- So does a body that is passed over. -/
theorem readSubprogramBody {nest : BodyNest} (h : walk.place = .subprogramBody home nest) :
    walk.Keeps word (walk.readSubprogramBody home nest here before next) := by
  have hStay : ∀ nest, walk.Keeps word (walk.goto (.subprogramBody home nest)) :=
    fun _ => goto (by rw [h]; rfl) rfl trivial
  have hSame : walk.Keeps word walk := refl walk (h ▸ trivial)
  rw [Walk.readSubprogramBody]
  dsimp only
  split
  all_goals try exact hStay _
  all_goals try exact hSame
  all_goals split
  all_goals try exact hStay _
  all_goals try exact hSame
  split
  · exact goto (by rw [h]; rfl) rfl trivial
  · exact hStay _

theorem readPackageName (h : walk.place = .packageName) :
    walk.Keeps word (walk.readPackageName here next) := by
  have hLists : walk.place.Lists := h ▸ trivial
  rw [Walk.readPackageName]
  split
  · split <;> exact goto (by rw [h]; rfl) rfl trivial
  · split
    · exact collect (refl _ hLists) rfl rfl
    · exact refl walk hLists
  · split
    · exact collect (refl _ hLists) rfl rfl
    · exact refl walk hLists
  · exact refl walk hLists

theorem readPackageBodyName (h : walk.place = .packageBodyName) :
    walk.Keeps word (walk.readPackageBodyName here) := by
  rw [Walk.readPackageBodyName]
  split
  · exact goto (by rw [h]; rfl) rfl trivial
  · exact refl walk (h ▸ trivial)

/-- A package and its body are read alike, outside of processes. -/
theorem readPackage (h : walk.place.process? = home.process?) (hHome : home.process? = none) :
    walk.Keeps word (walk.readPackage home here) := by
  rw [Walk.readPackage]
  split
  · exact goto (hHome.symm.trans h.symm) rfl trivial
  · exact readItem h

theorem readSkipped {depth : Nat} (h : walk.place = .skipStatement home depth) :
    walk.Keeps word (walk.readSkipped home depth here) := by
  rw [Walk.readSkipped]
  split
  · exact goto (by rw [h]; rfl) rfl trivial
  · exact goto (by rw [h]; rfl) rfl trivial
  · split
    · exact gotoHome (by rw [h]; rfl)
    · exact refl walk (h ▸ trivial)
  · exact refl walk (h ▸ trivial)

end Keeps

variable {walk base : Walk} {here : Lexeme} {word : Word} {before next : Option Lexeme}
  {process : HdlProcess} {statement : Statement}

namespace Stays

theorem withoutLabel (walk : Walk) : walk.Stays { walk with label := none } :=
  ⟨rfl, rfl, rfl, by simp⟩

theorem withGenerates (walk : Walk) (generates : List Generate) :
    walk.Stays { walk with generates } :=
  ⟨rfl, rfl, rfl, fun _ => .inl⟩

theorem modifyGenerate (walk : Walk) (change : Generate → Generate) :
    walk.Stays (walk.modifyGenerate change) := by
  rw [Walk.modifyGenerate]
  split
  · exact withGenerates walk _
  · exact withGenerates walk _

theorem beginElse (walk : Walk) : walk.Stays walk.beginElse := by
  have hTop := modifyGenerate walk fun top =>
    { top with
      condition := "not (" ++ " or ".intercalate top.alternatives ++ ")"
      begun := false }
  exact ⟨hTop.place, hTop.processes, hTop.clocked, by simp [Walk.beginElse]⟩

theorem commitInstance (walk : Walk) (unit : Word) (library : String) :
    walk.Stays (walk.commitInstance unit library) := by
  rw [Walk.commitInstance]
  split
  · exact withGenerates walk _
  · exact ⟨rfl, rfl, rfl, by simp⟩

/-- A label is the word that the statement begins with. -/
theorem takeLabel (h : walk.place.first? = statement.first) :
    walk.Stays (walk.takeLabel statement.first) := by
  unfold Walk.takeLabel
  split
  · exact withGenerates walk _
  · next first hFirst =>
    refine ⟨rfl, rfl, rfl, fun label hLabel => .inr ?_⟩
    rwa [h, hFirst]

theorem enterGenerate (walk : Walk) (kind : GenerateKind) (condition : String) :
    walk.Stays (walk.enterGenerate kind condition) := by
  unfold Walk.enterGenerate
  split
  · exact withGenerates walk _
  · split <;> exact withGenerates walk _
  · exact withGenerates walk _
  · exact withGenerates walk _

theorem note (h : walk.Stays base) (note : Note) : walk.Stays (base.note note) :=
  ⟨h.place, h.processes, h.clocked, h.label⟩

theorem process?_eq_none (hBase : walk.Stays base) (h : walk.place.process? = none) :
    base.place.process? = none :=
  hBase.place ▸ h

theorem nextStatement (hBase : walk.Stays base) (h : walk.place.process? = none) :
    walk.Keeps word base.nextStatement :=
  .of_stays hBase (.nextStatement (hBase.process?_eq_none h))

/-- The walk goes on at a place outside of processes and statements. -/
theorem goto {place : Place} (hBase : walk.Stays base) (h : walk.place.process? = none)
    (hPlace : place.process? = none) (hFirst : place.first? = none) (hLists : place.Lists) :
    walk.Keeps word (base.goto place) :=
  .of_stays hBase (.goto (hPlace.trans (hBase.process?_eq_none h).symm) hFirst hLists)

end Stays

namespace Keeps

theorem readEnd (h : walk.place.process? = none) : walk.Keeps word (walk.readEnd next) := by
  rw [Walk.readEnd]
  split
  · exact (Stays.withGenerates walk _).goto h rfl rfl trivial
  split
  · exact goto h.symm rfl trivial
  split
  · exact (Stays.modifyGenerate walk _).goto h rfl rfl trivial
  · exact (Stays.withGenerates walk _).goto h rfl rfl trivial

theorem beginGenerate (hBase : walk.Stays base) (h : walk.place.process? = none)
    (kind : GenerateKind) : walk.Keeps word (base.beginGenerate kind) :=
  hBase.goto h rfl rfl trivial

/-- The first word of a statement is read, or it is the one that was read first. -/
theorem readOther (h : walk.place.process? = none)
    (hFirst : ∀ first ∈ statement.first, first ∈ walk.place.first?) :
    walk.Keeps here.word (walk.readOther statement here next) := by
  refine ⟨h.symm, rfl, rfl, fun _ => .inl, ?_, trivial⟩
  intro first hMem
  simp only [Walk.readOther, Walk.goto, Place.first?] at hMem
  split at hMem
  · exact .inl (Option.some.inj hMem).symm
  · exact .inr (hFirst first hMem)

theorem readInstance (h : walk.place = .instanceHeader) :
    walk.Keeps word (walk.readInstance here) := by
  rw [Walk.readInstance]
  split
  · exact (Stays.commitInstance walk _ _).goto (by rw [h]; rfl) rfl rfl trivial
  · exact refl walk (h ▸ trivial)

theorem readMap {depth : Nat} (h : walk.place = .instanceMap depth) :
    walk.Keeps word (walk.readMap depth here) := by
  rw [Walk.readMap]
  split
  · exact goto (by rw [h]; rfl) rfl trivial
  · exact goto (by rw [h]; rfl) rfl trivial
  · split
    · exact nextStatement (by rw [h]; rfl)
    · exact refl walk (h ▸ trivial)
  · exact refl walk (h ▸ trivial)

theorem readGenerate {kind : GenerateKind} {depth : Nat} {expr : Capture}
    (h : walk.place = .generateHeader kind depth expr) :
    walk.Keeps word (walk.readGenerate kind depth expr here) := by
  rw [Walk.readGenerate]
  dsimp only
  split
  · exact goto (by rw [h]; rfl) rfl trivial
  · exact goto (by rw [h]; rfl) rfl trivial
  · split
    · exact ((Stays.enterGenerate walk _ _).note _).nextStatement (by rw [h]; rfl)
    · exact goto (by rw [h]; rfl) rfl trivial
  · exact goto (by rw [h]; rfl) rfl trivial

theorem readChoice {expr : Capture} (h : walk.place = .generateChoice expr) :
    walk.Keeps word (walk.readChoice expr here) := by
  rw [Walk.readChoice]
  split
  · exact (Stays.modifyGenerate walk _).nextStatement (by rw [h]; rfl)
  · exact goto (by rw [h]; rfl) rfl trivial

end Keeps

namespace Turn

/-- The first word `process` of a statement opens one, and no other first word does. -/
theorem readFirst (h : walk.place.process? = none) :
    walk.Turn here next (walk.readFirst here next) := by
  rw [Walk.readFirst]
  split
  · exact .opens h
  all_goals refine .keeps ?_
  all_goals try exact Keeps.readItem h
  all_goals try exact Keeps.goto h.symm rfl trivial
  all_goals try exact Keeps.beginGenerate (.withoutLabel walk) h _
  · exact (Stays.beginElse walk).nextStatement h
  · split
    · exact (Stays.modifyGenerate walk _).goto h rfl rfl trivial
    · exact Keeps.readOther h (by simp)
  · exact (Stays.modifyGenerate walk _).nextStatement h
  · exact Keeps.readEnd h
  · exact Keeps.readOther h (by simp)

/-- Behind `postponed` the same word opens one. -/
theorem readLater (h : walk.place.process? = none) (hFirst : walk.place.first? = statement.first) :
    walk.Turn here next (walk.readLater statement here next) := by
  have hOther : walk.Turn here next (walk.readOther statement here next) :=
    .keeps (Keeps.readOther h fun first hMem => by rwa [hFirst])
  rw [Walk.readLater]
  split
  · split
    · exact .keeps ((Stays.takeLabel hFirst).nextStatement h)
    · exact hOther
  · split
    · exact .opens h
    · exact hOther
  · exact hOther

/-- So a statement opens a process or keeps what there is. -/
theorem readStatement (hPlace : walk.place = .architectureBody statement) :
    walk.Turn here next (walk.readStatement statement here next) := by
  have h : walk.place.process? = none := by rw [hPlace]; rfl
  rw [Walk.readStatement]
  split
  · exact .keeps ((Stays.commitInstance walk _ _).goto h rfl rfl trivial)
  · exact .keeps ((Stays.commitInstance walk _ _).goto h rfl rfl trivial)
  · exact .keeps ((Stays.commitInstance walk _ _).nextStatement h)
  · exact .keeps ((Stays.withoutLabel walk).nextStatement h)
  · exact .keeps ((Stays.withoutLabel walk).goto h rfl rfl trivial)
  · split
    · exact readFirst h
    · exact readLater h (by rw [hPlace]; rfl)

/-- The names in parentheses are added to the sensitivity list of the process that is open. -/
theorem readSensitivity {depth : Option Nat}
    (hPlace : walk.place = .processSensitivity process depth) (hLists : walk.place.Lists) :
    walk.Turn here next (walk.readSensitivity process depth here) := by
  have h : walk.place.process? = some process := by rw [hPlace]; rfl
  have hBody : process.body = #[] := by rwa [hPlace] at hLists
  have hSame : ∀ {place : Place}, place.process? = some process → place.first? = none →
      place.Lists → walk.Turn here next (walk.goto place) := fun hProcess hFirst hLists =>
    .keeps (.goto (hProcess.trans h.symm) hFirst hLists)
  have hListed : walk.Turn here next
      (walk.goto (.processSensitivity (process.pushSensitivity here.word) (some 0))) :=
    .grows h (.pushSensitivity _ hBody) rfl rfl hBody
  unfold Walk.readSensitivity
  split
  · exact hSame rfl rfl hBody
  · exact hSame rfl rfl trivial
  · exact hSame rfl rfl trivial
  · exact .keeps (.readItem h)
  · exact hSame rfl rfl hBody
  · exact hSame rfl rfl hBody
  · exact hSame rfl rfl trivial
  · exact .keeps (.refl walk hLists)
  · exact .grows h ((HdlProcess.Continues.refl _ _).raise id) rfl rfl hBody
  · exact hListed
  · exact hListed
  · exact .keeps (.refl walk hLists)

theorem readProcessDeclarations (hPlace : walk.place = .processDeclarations process) :
    walk.Turn here next (walk.readProcessDeclarations process here) := by
  rw [Walk.readProcessDeclarations]
  split
  · exact .keeps (.goto (by rw [hPlace]; rfl) rfl trivial)
  · exact .keeps (.readItem (by rw [hPlace]; rfl))

/-- A word of the body is added to the process. -/
theorem readBodyWord {depth : Nat} {statement : Sequential} {ticked : Bool}
    (h : walk.place.process? = some process) :
    walk.Turn here next (walk.readBodyWord process depth statement here ticked) := by
  rw [Walk.readBodyWord]
  dsimp only
  split
  · refine .grows h ?_ rfl rfl trivial
    split
    · exact (HdlProcess.Continues.pushBody _ process _).raise fun _ => rfl
    · exact .pushBody _ process _
  · refine .grows h ?_ rfl rfl trivial
    split
    · exact (HdlProcess.Continues.refl _ process).raise fun _ => rfl
    · exact .refl _ process

/-- Marking the target goes on with the process. -/
theorem markTarget {depth : Nat} {statement : Sequential} (role : Role)
    (hPlace : walk.place = .processBody process depth statement) :
    walk.Turn here next (walk.markTarget process statement role) := by
  rw [Walk.markTarget]
  split
  · exact .grows (by rw [hPlace]; rfl) (.mark _ process _ role) rfl rfl trivial
  · exact .keeps (.refl walk (hPlace ▸ trivial))

/-- A process grows with its words. It closes at `end` in front of `process`, and nowhere else. -/
theorem readBody {depth : Nat} {statement : Sequential}
    (hPlace : walk.place = .processBody process depth statement) :
    walk.Turn here next (walk.readBody process depth statement here before next) := by
  have h : walk.place.process? = some process := by rw [hPlace]; rfl
  have hStay : walk.Turn here next (walk.readBodyWord process depth statement here
      (before.any (·.symbol = .tick))) := readBodyWord h
  have hNext : walk.Turn here next (walk.goto (.processBody process depth {})) :=
    .keeps (.goto h.symm rfl trivial)
  unfold Walk.readBody
  dsimp only
  split
  all_goals try exact hNext
  · split
    · exact hNext
    · exact hStay
  · split
    · exact markTarget _ hPlace
    · exact hStay
  · split
    · exact markTarget _ hPlace
    · exact hStay
  · split
    · exact .closes h rfl
    · exact hStay
  · exact hStay

/-- Reading a word is one of the four, wherever the walk stands. -/
theorem read (hLists : walk.place.Lists) : walk.Turn here next (walk.read here before next) := by
  rw [Walk.read]
  cases hPlace : walk.place with
  | entityContext => exact .keeps (.readContext hPlace)
  | libraryClause => exact .keeps (.readLibrary hPlace)
  | useClause home => exact .keeps (.readUse hPlace)
  | configurationDeclaration => exact .keeps (.readConfiguration hPlace)
  | entityName => exact .keeps (.readEntityName hPlace)
  | entityHeader => exact .keeps (.readEntityHeader hPlace)
  | entityStatements => exact .keeps (.readEntityStatements hPlace)
  | interfaceListOpen kind owner => exact .keeps (.readListOpen hPlace)
  | interfaceDeclaration list element => exact .keeps (.readInterface hPlace)
  | objectDeclaration kind home element => exact .keeps (.readObject hPlace)
  | typeDeclaration home type => exact .keeps (.readType hPlace)
  | architectureName named => exact .keeps (.readArchitectureName hPlace)
  | architectureHeader => exact .keeps (.readArchitectureHeader hPlace)
  | architectureDeclarations => exact .keeps (.readArchitectureDeclarations hPlace)
  | architectureBody statement => exact readStatement hPlace
  | componentName home => exact .keeps (.readComponentName hPlace)
  | componentHeader home => exact .keeps (.readComponentHeader hPlace)
  | subprogramName home => exact .keeps (.readSubprogramName hPlace)
  | subprogramHeader home => exact .keeps (.readSubprogramHeader hPlace)
  | subprogramBody home nest => exact .keeps (.readSubprogramBody hPlace)
  | packageName => exact .keeps (.readPackageName hPlace)
  | packageDeclarations => exact .keeps (.readPackage (by rw [hPlace]; rfl) rfl)
  | packageBodyName => exact .keeps (.readPackageBodyName hPlace)
  | packageBody => exact .keeps (.readPackage (by rw [hPlace]; rfl) rfl)
  | processSensitivity process depth => exact readSensitivity hPlace hLists
  | processDeclarations process => exact readProcessDeclarations hPlace
  | processBody process depth statement => exact readBody hPlace
  | instanceHeader => exact .keeps (.readInstance hPlace)
  | instanceMap depth => exact .keeps (.readMap hPlace)
  | generateHeader kind depth expr => exact .keeps (.readGenerate hPlace)
  | generateChoice expr => exact .keeps (.readChoice hPlace)
  | skipStatement home depth => exact .keeps (.readSkipped hPlace)

/-- A sensitivity list whose process has a body is not reached. -/
theorem lists {other : Walk} (h : walk.Turn here next other) : other.place.Lists := by
  cases h with
  | keeps h => exact h.lists
  | opens h => rfl
  | grows h hContinues hPlace hFirst hLists => exact hLists
  | closes h hNext => trivial

end Turn

theorem lists_absorb (h : walk.place.Lists) (token : Token) : (walk.place.absorb token).Lists := by
  generalize walk.place = place at h
  cases place with
  | processSensitivity process depth => exact h
  | _ => trivial

theorem lists_start (region : Region) : (Walk.start region).place.Lists := by
  cases region <;> trivial

/-- The end of the text ends what is open there, and after that the process. -/
theorem finish_eq (hLists : walk.place.Lists) (size : Nat) (word : Word) :
    ∃ ended, walk.Keeps word ended ∧
      walk.finish size = match walk.place.process? with
        | some process => ended.commitProcess process size
        | none => ended := by
  have hEnd : walk.Keeps word (walk.flushed size) := by
    rw [flushed]
    split
    · next list element hPlace =>
      have hOwner : walk.place.process? = list.owner.process? := by
        rw [hPlace, Place.process?_interfaceDeclaration]
      exact .collect (.closeList hOwner) Keeps.modifyList.1 Keeps.modifyList.2
    · next kind home element hPlace => exact .collect (.refl _ (hPlace.symm ▸ trivial)) rfl rfl
    · exact .refl walk hLists
  refine ⟨_, hEnd, ?_⟩
  rw [← hEnd.current]
  rfl

end Walk

end HdlIndex.Vhdl

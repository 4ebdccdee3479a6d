import HdlIndex.Proofs.Vhdl.Gathering
import HdlIndex.Proofs.Vhdl.StatementWords

/-! What reading a word of a statement or of a process adds to categories, labels and instances, and
with that what reading any word does. -/
namespace HdlIndex.Vhdl.Walk

variable {walk base : Walk} {place : Place} {here : Lexeme} {word : Word}
  {before next : Option Lexeme} {process : HdlProcess} {statement : Statement}

/-- Nothing is recorded, and at most the label that waits is dropped. -/
structure Idles (walk base : Walk) : Prop where
  found : base.found = walk.found
  label : base.label = none ∨ base.label = walk.label

namespace Idles

theorem withoutLabel (walk : Walk) : walk.Idles { walk with label := none } := ⟨rfl, .inl rfl⟩

theorem modifyGenerate (walk : Walk) (change : Generate → Generate) :
    walk.Idles (walk.modifyGenerate change) := by
  rw [Walk.modifyGenerate]
  split <;> exact ⟨rfl, .inr rfl⟩

theorem beginElse (walk : Walk) : walk.Idles walk.beginElse :=
  ⟨(modifyGenerate walk _).found, .inl rfl⟩

theorem enterGenerate (walk : Walk) (kind : GenerateKind) (condition : String) :
    walk.Idles (walk.enterGenerate kind condition) := by
  unfold Walk.enterGenerate
  split
  · exact ⟨rfl, .inr rfl⟩
  · split <;> exact ⟨rfl, .inr rfl⟩
  · exact ⟨rfl, .inr rfl⟩
  · exact ⟨rfl, .inr rfl⟩

theorem goto (h : walk.Idles base) (hPlace : place.IsPlain) :
    walk.Gathers word (base.goto place) := by
  refine .leaves ?_ h.label hPlace
  show walk.found.Gains word base.found
  rw [h.found]
  exact .refl word _

theorem nextStatement (h : walk.Idles base) : walk.Gathers word base.nextStatement :=
  h.goto ⟨rfl, rfl, rfl⟩

theorem skip {home : Home} (h : walk.Idles base) : walk.Gathers word (base.skip home) :=
  h.goto ⟨rfl, rfl, rfl⟩

end Idles

namespace Gathers

/-- The statement under way is left to be read on. -/
theorem readsOn (other : Statement)
    (hFirst : other.first = none ∨ other.first = walk.place.first? ∨ other.first = some word)
    (hUnit : other.unit = none ∨ other.unit = other.first) :
    walk.Gathers word (walk.goto (.architectureBody other)) where
  trail category := by
    have hHeld : (Place.architectureBody other).held category = [] := ite_self _
    rw [Walk.trail, Walk.trail, Walk.goto, hHeld, List.append_nil, List.append_assoc]
    exact List.sublist_append_left _ _
  naming := .goes (.inr rfl) hFirst hUnit

/-- What is neither a process nor an instance adds no label: the word that it begins with is
forgotten. -/
theorem readOther (hFirst : statement.first = none ∨ statement.first = walk.place.first?) :
    walk.Gathers here.word (walk.readOther statement here next) := by
  rw [Walk.readOther]
  refine readsOn _ ?_ ?_
  · dsimp only
    split
    · exact .inr (.inr rfl)
    · exact hFirst.imp_right .inl
  · dsimp only
    split
    · next hUnit =>
      -- A name is a word, so that the statement begins with it.
      rw [Bool.and_eq_true, isUnitName, Bool.and_eq_true, Bool.and_eq_true, decide_eq_true_eq,
        decide_eq_true_eq] at hUnit
      have hWord : here.symbol.isWord = true := by rw [hUnit.2.1.2]; rfl
      rw [if_pos (by simp [hUnit.1, hWord])]
      exact .inr rfl
    · exact .inl rfl

/-- The word in front of a colon is a label. -/
theorem takeLabel (h : walk.place = .architectureBody statement) :
    walk.Gathers word (walk.takeLabel statement.first).nextStatement := by
  unfold Walk.takeLabel
  split
  · exact nextStatement
  · next label hFirst =>
    refine ⟨fun category => ?_, ?_⟩
    · have hEntries : ∀ labels : Words,
          ({ walk.found with labels } : Findings).entries category = walk.found.entries category :=
        fun _ => rfl
      have hHeld : (Place.architectureBody {}).held category = [] := ite_self _
      rw [Walk.trail, Walk.trail, Walk.nextStatement, Walk.goto, hEntries, hHeld, List.append_nil,
        List.append_assoc]
      exact List.sublist_append_left _ _
    · have hNaming : (Walk.nextStatement
          { walk with label := some label, found.labels := walk.found.labels.push label }).naming =
          { walk.naming with
            labels := walk.naming.labels ++ [label], label := some label, first := none
            unit := none } := by
        simp [Walk.naming, Walk.nextStatement, Walk.goto, Place.first?, Place.unit?, Words.push]
      rw [hNaming]
      exact .takes (by rw [Walk.naming, h, Place.first?, hFirst])

/-- The label that waits becomes that of an instance. -/
theorem commitInstance {unit : Word} {library : String}
    (hUnit : walk.place.unit? = some unit ∨ unit.IsPartOf word) (hPlace : place.IsPlain) :
    walk.Gathers word ((walk.commitInstance unit library).goto place) := by
  unfold Walk.commitInstance
  split
  · exact goto hPlace
  · next label hLabel =>
    refine ⟨fun category => ?_, ?_⟩
    · have hEntries : ∀ instances : Array Instance,
          ({ walk.found with instances } : Findings).entries category =
            walk.found.entries category :=
        fun _ => rfl
      rw [Walk.trail, Walk.trail, Walk.goto, hEntries, hPlace.held_eq, List.append_nil,
        List.append_assoc]
      exact List.sublist_append_left _ _
    · have hNaming : (Walk.goto { walk.note (.instanceFound label.text unit.text) with
            label := none
            found.instances := walk.found.instances.push ⟨label, unit, library⟩ } place).naming =
          { walk.naming with
            instances := walk.naming.instances ++ [⟨label, unit, library⟩], label := none
            first := none, unit := none } := by
        simp [Walk.naming, Walk.goto, note, hPlace.first, hPlace.unit]
      exact hNaming ▸ .commits library hLabel hUnit

theorem beginProcess : walk.Gathers word (walk.beginProcess here) :=
  leaves (.refl word _) (.inl rfl) ⟨rfl, rfl, rfl⟩

theorem commitProcess {offset : Nat} :
    walk.Gathers word ((walk.commitProcess process offset).skip .architectureBody) :=
  leaves (.of_same ⟨fun _ => rfl, rfl, rfl⟩) (.inr rfl) ⟨rfl, rfl, rfl⟩

theorem readEnd : walk.Gathers word (walk.readEnd next) := by
  rw [Walk.readEnd]
  split
  · exact leaves (.refl word _) (.inr rfl) ⟨rfl, rfl, rfl⟩
  split
  · exact skip
  split
  · exact (Idles.modifyGenerate walk _).skip
  · exact leaves (.refl word _) (.inr rfl) ⟨rfl, rfl, rfl⟩

/-- The first word of a statement waits, as it may be a label or a component. -/
theorem readFirst : walk.Gathers here.word (walk.readFirst here next) := by
  rw [Walk.readFirst]
  split
  · exact beginProcess
  all_goals try exact readItem
  all_goals try exact goto ⟨rfl, rfl, rfl⟩
  all_goals try exact (Idles.withoutLabel walk).goto ⟨rfl, rfl, rfl⟩
  · exact (Idles.beginElse walk).nextStatement
  · split
    · exact (Idles.modifyGenerate walk _).goto ⟨rfl, rfl, rfl⟩
    · exact readOther (.inl rfl)
  · exact (Idles.modifyGenerate walk _).nextStatement
  · exact readEnd
  · exact readOther (.inl rfl)

/-- A colon makes a label of it. -/
theorem readLater (h : walk.place = .architectureBody statement) :
    walk.Gathers here.word (walk.readLater statement here next) := by
  have hOther : walk.Gathers here.word (walk.readOther statement here next) :=
    readOther (.inr (by rw [h]; rfl))
  rw [Walk.readLater]
  split
  · split
    · exact takeLabel h
    · exact hOther
  · split
    · exact beginProcess
    · exact hOther
  · exact hOther

/-- An instance is recorded with the label that waits, and at most once. -/
theorem readStatement (h : walk.place = .architectureBody statement) :
    walk.Gathers here.word (walk.readStatement statement here next) := by
  have hUnit : ∀ {unit : Word}, statement.unit = some unit → walk.place.unit? = some unit := by
    intro unit hSome
    rw [h]
    exact hSome
  rw [Walk.readStatement]
  split
  · next hSome => exact commitInstance (.inl (hUnit hSome)) ⟨rfl, rfl, rfl⟩
  · next hSome => exact commitInstance (.inl (hUnit hSome)) ⟨rfl, rfl, rfl⟩
  · next hSome => exact commitInstance (.inl (hUnit hSome)) ⟨rfl, rfl, rfl⟩
  · exact (Idles.withoutLabel walk).nextStatement
  · exact (Idles.withoutLabel walk).goto ⟨rfl, rfl, rfl⟩
  · split
    · exact readFirst
    · exact readLater h

theorem readInstance : walk.Gathers here.word (walk.readInstance here) := by
  rw [Walk.readInstance]
  split
  · have hUnit : (selectedUnit here.word).IsPartOf here.word :=
      fun P hP hHere => All.selectedUnit hP hHere
    exact commitInstance (.inr hUnit) ⟨rfl, rfl, rfl⟩
  · exact refl _ walk

theorem readMap {depth : Nat} : walk.Gathers word (walk.readMap depth here) := by
  rw [Walk.readMap]
  split
  · exact goto ⟨rfl, rfl, rfl⟩
  · exact goto ⟨rfl, rfl, rfl⟩
  · split
    · exact nextStatement
    · exact refl word walk
  · exact refl word walk

theorem readGenerate {kind : GenerateKind} {depth : Nat} {expr : Capture} :
    walk.Gathers word (walk.readGenerate kind depth expr here) := by
  have hEntered := Idles.enterGenerate walk kind expr.text
  rw [Walk.readGenerate]
  dsimp only
  split
  · exact goto ⟨rfl, rfl, rfl⟩
  · exact goto ⟨rfl, rfl, rfl⟩
  · split
    · exact Idles.nextStatement ⟨hEntered.found, hEntered.label⟩
    · exact goto ⟨rfl, rfl, rfl⟩
  · exact goto ⟨rfl, rfl, rfl⟩

theorem readChoice {expr : Capture} : walk.Gathers word (walk.readChoice expr here) := by
  rw [Walk.readChoice]
  split
  · exact (Idles.modifyGenerate walk _).nextStatement
  · exact goto ⟨rfl, rfl, rfl⟩

theorem readSensitivity {depth : Option Nat} :
    walk.Gathers word (walk.readSensitivity process depth here) := by
  unfold Walk.readSensitivity
  dsimp only
  split
  all_goals first
    | exact goto ⟨rfl, rfl, rfl⟩
    | exact readItem
    | exact refl word walk

theorem readProcessDeclarations :
    walk.Gathers word (walk.readProcessDeclarations process here) := by
  rw [Walk.readProcessDeclarations]
  split
  · exact goto ⟨rfl, rfl, rfl⟩
  · exact readItem

theorem readBodyWord {depth : Nat} {statement : Sequential} {ticked : Bool} :
    walk.Gathers word (walk.readBodyWord process depth statement here ticked) := by
  rw [Walk.readBodyWord]
  dsimp only
  split <;> exact goto ⟨rfl, rfl, rfl⟩

theorem markTarget {statement : Sequential} {role : Role} :
    walk.Gathers word (walk.markTarget process statement role) := by
  rw [Walk.markTarget]
  split
  · exact goto ⟨rfl, rfl, rfl⟩
  · exact refl word walk

/-- Nothing in a process names an instance or a component. -/
theorem readBody {depth : Nat} {statement : Sequential} :
    walk.Gathers word (walk.readBody process depth statement here before next) := by
  unfold Walk.readBody
  dsimp only
  split
  all_goals try exact goto ⟨rfl, rfl, rfl⟩
  all_goals try exact readBodyWord
  · split
    · exact goto ⟨rfl, rfl, rfl⟩
    · exact readBodyWord
  · split
    · exact markTarget
    · exact readBodyWord
  · split
    · exact markTarget
    · exact readBodyWord
  · split
    · exact commitProcess
    · exact readBodyWord

/-- Wherever the walk stands, what reading a word adds is taken from the word. -/
theorem read (walk : Walk) (here : Lexeme) (before next : Option Lexeme) :
    walk.Gathers here.word (walk.read here before next) := by
  rw [Walk.read]
  cases hPlace : walk.place with
  | entityContext => exact readContext
  | libraryClause => exact readLibrary hPlace
  | useClause home => exact readUse hPlace
  | configurationDeclaration => exact readConfiguration
  | entityName => exact readEntityName
  | entityHeader => exact readEntityHeader
  | entityStatements => exact readEntityStatements
  | interfaceListOpen kind owner => exact readListOpen
  | interfaceDeclaration list element => exact readInterface hPlace
  | objectDeclaration kind home element => exact readObject hPlace
  | typeDeclaration home type => exact readType hPlace
  | architectureName named => exact readArchitectureName hPlace
  | architectureHeader => exact readArchitectureHeader
  | architectureDeclarations => exact readArchitectureDeclarations
  | architectureBody statement => exact readStatement hPlace
  | componentName home => exact readComponentName
  | componentHeader home => exact readComponentHeader
  | subprogramName home => exact readSubprogramName
  | subprogramHeader home => exact readSubprogramHeader
  | subprogramBody home nest => exact readSubprogramBody
  | packageName => exact readPackageName hPlace
  | packageDeclarations => exact readPackage
  | packageBodyName => exact readPackageBodyName
  | packageBody => exact readPackage
  | processSensitivity process depth => exact readSensitivity
  | processDeclarations process => exact readProcessDeclarations
  | processBody process depth statement => exact readBody
  | instanceHeader => exact readInstance
  | instanceMap depth => exact readMap
  | generateHeader kind depth expr => exact readGenerate
  | generateChoice expr => exact readChoice
  | skipStatement home depth => exact readSkipped

end Gathers

end HdlIndex.Vhdl.Walk

import HdlIndex.Proofs.Verilog.UnitBoundary

/-! Two walks that read the same words of a statement. What the words of an item do to a walk is to
go to places, to collect what they find, and to end the item. So what two walks have in common amid
an item, if none of this separates them, leads to what they have in common behind it, handler by
handler. -/
namespace HdlIndex.Verilog

/-- The item itself, if a word ends its name. -/
def Item.endedBy? (item : Item) (here : Lexeme) : Option Item :=
  match item.read here with
  | .stay _ => none
  | .next | .done | .close => some item

/-- The item under way in a list or in a declaration. -/
def Place.item? : Place → Option Item
  | .parameterList _ _ item | .portList _ item | .declaration item => some item
  | _ => none

/-- The item under way, also where a statement that begins with two names may turn out to be one. -/
def Place.begun? : Place → Option Item
  | .instanceHeader statement 0 =>
    statement.name.map fun name =>
      { kind := .bodyNet, type := some statement.type, name := some name }
  | place => place.item?

/-- At this place a word may change the conditions in force or the open blocks other than by the end
of an item. -/
def Place.isConstruct : Place → Bool
  | .moduleHeader _ | .moduleBody | .generateHeader .. | .generateChoice .. => true
  | _ => false

/-- The names that are looked up, and the signals under a clock, are as they were. -/
structure Findings.SameLists (found other : Findings) : Prop where
  ports : other.ports = found.ports
  parameters : other.parameters = found.parameters
  objects : other.objects = found.objects
  clocked : other.clocked = found.clocked

namespace Walk

/-- What two walks have in common amid an item is kept by what they do there, and leads to what they
have in common behind it. The names that they record are those of allowed items. -/
structure Pairing (allowed : Item → Prop) (Amid Behind : Walk → Walk → Prop) : Prop where
  behind : ∀ {walk other}, Amid walk other → Behind walk other
  goto : ∀ {walk other}, Amid walk other → ∀ place, Amid (walk.goto place) (other.goto place)
  note : ∀ {walk other}, Amid walk other → ∀ note note', Amid (walk.note note) (other.note note')
  label : ∀ {walk other}, Amid walk other → ∀ label, Amid { walk with label } { other with label }
  collect : ∀ {walk other change}, Amid walk other →
    (∀ found : Findings, found.SameLists (change found)) →
    Amid (walk.collect change) (other.collect change)
  flush : ∀ {walk other item}, Amid walk other → allowed item →
    Amid (walk.flush item) (other.flush item)
  record : ∀ {walk other}, Amid walk other → ∀ targets : List Word,
    Amid (walk.collect (targets.foldl (recordClocked · · walk.conditions) ·))
      (other.collect (targets.foldl (recordClocked · · other.conditions) ·))
  backToBody : ∀ {walk other}, Amid walk other → Behind walk.backToBody other.backToBody

namespace Pairing

variable {allowed : Item → Prop} {Amid Behind : Walk → Walk → Prop} {walk other : Walk}
  {here : Lexeme}
  {next : Option Lexeme} {item : Item} {owner : Owner} {home : Home} {depth : Nat}
  {process : HdlProcess}
  {block : Block} {clocked : Bool} {statement : Instantiation}

section Statements

variable (hPair : Pairing allowed Amid Behind)

include hPair

/-- A label is expected on both sides or on neither. -/
theorem expectLabel (h : Amid walk other) (recorded : Bool) (next : Option Lexeme) :
    Amid (walk.expectLabel recorded next) (other.expectLabel recorded next) := by
  rw [Walk.expectLabel, Walk.expectLabel]
  split
  · exact hPair.label h _
  · exact h

/-- What resumes in a body leaves the same branches on both sides. -/
theorem resume (h : Amid walk other) (home : Home) :
    Behind (walk.resume home) (other.resume home) := by
  cases home with
  | moduleContext => exact hPair.behind (hPair.goto h .moduleContext)
  | moduleHeader announced => exact hPair.behind (hPair.goto h (.moduleHeader announced))
  | moduleBody => exact hPair.backToBody h

/-- An item that a word ends is recorded. -/
theorem flushEnded (h : Amid walk other) (hItem : ∀ ended ∈ item.endedBy? here, allowed ended)
    (hEnds : ∀ stays, item.read here ≠ .stay stays) :
    Amid (walk.flush item) (other.flush item) := by
  apply hPair.flush h
  apply hItem
  rw [Item.endedBy?]
  cases hRead : item.read here with
  | stay stays => exact absurd hRead (hEnds stays)
  | _ => rfl

theorem closeParameters (h : Amid walk other) (inside offset : Nat) :
    Amid (walk.closeParameters owner inside offset)
      (other.closeParameters owner inside offset) := by
  apply hPair.goto
  apply hPair.collect h
  exact fun _ => ⟨rfl, rfl, rfl, rfl⟩

/-- In a parameter list both walks go on with the same item. If it ends here it is of an allowed
kind, and is declared on both sides. -/
theorem readParameters {inside : Nat} (h : Amid walk other)
    (hItem : ∀ ended ∈ item.endedBy? here, allowed ended) :
    Amid (walk.readParameters owner inside item here)
      (other.readParameters owner inside item here) := by
  have hFlush := hPair.flushEnded h hItem
  rw [Walk.readParameters, Walk.readParameters]
  split
  · exact hPair.goto h _
  · next hRead => exact hPair.goto (hFlush (by simp [hRead])) _
  · next hRead => exact hPair.goto (hFlush (by simp [hRead])) _
  · next hRead => exact hPair.closeParameters (hFlush (by simp [hRead])) _ _

theorem readPorts (h : Amid walk other) (hItem : ∀ ended ∈ item.endedBy? here, allowed ended) :
    Amid (walk.readPorts owner item here) (other.readPorts owner item here) := by
  have hFlush := hPair.flushEnded h hItem
  rw [Walk.readPorts, Walk.readPorts]
  split
  · exact hPair.goto h _
  all_goals
    next hRead => exact hPair.goto (hFlush (by simp [hRead])) _

theorem readDeclaration (h : Amid walk other)
    (hItem : ∀ ended ∈ item.endedBy? here, allowed ended) :
    Behind (walk.readDeclaration item here) (other.readDeclaration item here) := by
  have hFlush := hPair.flushEnded h hItem
  rw [Walk.readDeclaration, Walk.readDeclaration]
  split
  · exact hPair.behind (hPair.goto h _)
  · next hRead => exact hPair.behind (hPair.goto (hFlush (by simp [hRead])) _)
  · next hRead => exact hPair.backToBody (hFlush (by simp [hRead]))
  · next hRead => exact hPair.backToBody (hFlush (by simp [hRead]))

theorem readContext (h : Amid walk other) :
    Amid (walk.readContext here) (other.readContext here) := by
  rw [Walk.readContext, Walk.readContext]
  split
  all_goals first
    | exact h
    | exact hPair.goto h _

theorem readModuleName (h : Amid walk other) :
    Amid (walk.readModuleName here) (other.readModuleName here) := by
  rw [Walk.readModuleName, Walk.readModuleName]
  split
  · apply hPair.goto
    apply hPair.collect (hPair.note h _ _)
    exact fun _ => ⟨rfl, rfl, rfl, rfl⟩
  · exact h

/-- Both imports end at the same semicolon. -/
theorem readImport (h : Amid walk other) :
    Behind (walk.readImport home here next) (other.readImport home here next) := by
  have hPackage : Behind
      (walk.collect fun found => { found with packages := found.packages.push here.word })
      (other.collect fun found => { found with packages := found.packages.push here.word }) := by
    apply hPair.behind
    apply hPair.collect h
    exact fun _ => ⟨rfl, rfl, rfl, rfl⟩
  rw [Walk.readImport, Walk.readImport]
  split
  · exact hPair.resume h home
  · split
    · exact hPackage
    · exact hPair.behind h
  · split
    · exact hPackage
    · exact hPair.behind h
  · exact hPair.behind h

theorem readSkippedBlock {closer : Keyword} (h : Amid walk other) :
    Behind (walk.readSkippedBlock closer home here) (other.readSkippedBlock closer home here) := by
  rw [Walk.readSkippedBlock, Walk.readSkippedBlock]
  split
  · exact hPair.resume h home
  · exact hPair.behind h

theorem readSkipped (h : Amid walk other) :
    Behind (walk.readSkipped depth here) (other.readSkipped depth here) := by
  rw [Walk.readSkipped, Walk.readSkipped]
  split
  · exact hPair.behind (hPair.goto h _)
  split
  · exact hPair.behind (hPair.goto h _)
  split
  · exact hPair.backToBody h
  · exact hPair.behind h

theorem commitInstance (h : Amid walk other) (type name : Word) :
    Amid (walk.commitInstance type name) (other.commitInstance type name) := by
  unfold Walk.commitInstance
  apply hPair.collect (hPair.note h _ _)
  exact fun _ => ⟨rfl, rfl, rfl, rfl⟩

/-- Both instances read the same words. An item that one of them completes is completed by the
other. -/
theorem readInstance (h : Amid walk other)
    (hItem : ∀ ended ∈ (Place.instanceHeader statement depth).begun?.bind (·.endedBy? here),
      allowed ended) :
    Behind (walk.readInstance statement depth here) (other.readInstance statement depth here) := by
  have hGoto : ∀ place, Behind (walk.goto place) (other.goto place) := fun place =>
    hPair.behind (hPair.goto h place)
  unfold Walk.readInstance
  dsimp only
  split
  · split
    · exact hGoto _
    · exact hGoto _
    · exact hPair.behind h
  · next hDepth =>
    obtain rfl : depth = 0 := by omega
    have hDeclares : ∀ name, statement.name = some name →
        let item : Item := { kind := .bodyNet, type := some statement.type, name := some name }
        Behind (walk.readDeclaration item here) (other.readDeclaration item here) := by
      intro name hName
      apply hPair.readDeclaration h
      rw [Place.begun?, hName] at hItem
      exact hItem
    split
    case h_1 => exact hGoto _
    case h_2 => exact hPair.behind (hPair.goto (hPair.commitInstance h _ _) _)
    case h_3 => split <;> exact hGoto _
    case h_4 => exact hGoto _
    case h_9 => exact hPair.backToBody h
    case h_10 =>
      unfold readInstanceName
      dsimp only
      split
      · exact hGoto _
      split
      · exact hGoto _
      · exact hPair.behind h
    case h_11 => exact hGoto _
    all_goals
      next name _ hName => exact hDeclares name hName

theorem readMap (h : Amid walk other) :
    Behind (walk.readMap statement depth here) (other.readMap statement depth here) := by
  have hGoto : ∀ place, Behind (walk.goto place) (other.goto place) := fun place =>
    hPair.behind (hPair.goto h place)
  unfold Walk.readMap
  split
  · exact hGoto _
  split
  · exact hGoto _
  split
  · exact hGoto _
  · exact hPair.backToBody h
  · exact hPair.behind h

end Statements

section Always

variable (hPair : Pairing allowed Amid Behind)

include hPair

/-- The event controls are the same, so that the processes are. -/
theorem readSensitivity (h : Amid walk other) :
    Amid (walk.readSensitivity process depth here) (other.readSensitivity process depth here) := by
  unfold Walk.readSensitivity
  dsimp only
  split
  case h_7 => exact h
  case h_1 => exact hPair.goto h _
  case h_4 => exact hPair.goto h _
  case h_5 => exact hPair.goto h _
  all_goals split <;> exact hPair.goto h _

/-- The process of both is recorded behind those that each of them found before. -/
theorem commitProcess (h : Amid walk other) (process : HdlProcess) (offset : Nat) :
    Amid (walk.commitProcess process offset) (other.commitProcess process offset) := by
  unfold Walk.commitProcess
  apply hPair.collect (hPair.note h _ _)
  exact fun _ => ⟨rfl, rfl, rfl, rfl⟩

theorem endStatement (h : Amid walk other) :
    Behind (walk.endStatement clocked block here next)
      (other.endStatement clocked block here next) := by
  rw [Walk.endStatement, Walk.endStatement]
  split
  · exact hPair.behind (hPair.goto h _)
  split
  · exact hPair.backToBody (hPair.commitProcess h _ _)
  · exact hPair.backToBody h

theorem readAssignment (h : Amid walk other) (nonBlocking : Bool) :
    Amid (walk.readAssignment clocked block nonBlocking)
      (other.readAssignment clocked block nonBlocking) := by
  unfold Walk.readAssignment
  dsimp only
  split
  · exact hPair.goto h _
  · exact hPair.goto h _
  · split
    · exact hPair.record (hPair.goto h _) _
    · exact hPair.goto h _

/-- A block adds the same words to the process of either walk, and both end where it ends. -/
theorem readBlock (h : Amid walk other) :
    Behind (walk.readBlock clocked block here next) (other.readBlock clocked block here next) := by
  have hGoto : ∀ place, Behind (walk.goto place) (other.goto place) := fun place =>
    hPair.behind (hPair.goto h place)
  unfold Walk.readBlock
  dsimp only
  split
  · exact hGoto _
  split
  · exact hGoto _
  split
  · exact hGoto _
  split
  · split
    · exact hPair.endStatement h
    · exact hGoto _
  · unfold readBlockKeyword
    dsimp only
    repeat' split
    all_goals first
      | exact hGoto _
      | exact hPair.endStatement h
      | exact hPair.behind (hPair.expectLabel (hPair.goto h _) _ _)
  · exact hGoto _
  · split <;> exact hGoto _
  · exact hPair.behind (hPair.readAssignment h _)
  · exact hPair.behind (hPair.readAssignment h _)
  all_goals exact hGoto _

theorem readAlwaysHeader (h : Amid walk other) :
    Behind (walk.readAlwaysHeader process here next)
      (other.readAlwaysHeader process here next) := by
  rw [Walk.readAlwaysHeader, Walk.readAlwaysHeader]
  split
  · exact hPair.behind (hPair.goto h _)
  · exact hPair.readBlock h

/-- A word is read alike where it changes no conditions and no blocks but by the end of an item. -/
theorem read (h : Amid walk other) (hPlace : other.place = walk.place)
    (hItem : ∀ ended ∈ walk.place.begun?.bind (·.endedBy? here), allowed ended)
    (hApart : walk.place.isConstruct = false) :
    Behind (walk.read here next) (other.read here next) := by
  rw [Walk.read, Walk.read, hPlace]
  cases hCase : walk.place with
  | moduleHeader | moduleBody | generateHeader | generateChoice =>
      rw [hCase] at hApart
      cases hApart
  | moduleContext => exact hPair.behind (hPair.readContext h)
  | moduleName => exact hPair.behind (hPair.readModuleName h)
  | parameterList owner inside item =>
      rw [hCase] at hItem
      exact hPair.behind (hPair.readParameters h hItem)
  | portList owner item =>
      rw [hCase] at hItem
      exact hPair.behind (hPair.readPorts h hItem)
  | declaration item =>
      rw [hCase] at hItem
      exact hPair.readDeclaration h hItem
  | importClause home => exact hPair.readImport h
  | instanceHeader statement depth =>
      rw [hCase] at hItem
      exact hPair.readInstance h hItem
  | instanceMap statement depth => exact hPair.readMap h
  | alwaysHeader process => exact hPair.readAlwaysHeader h
  | sensitivityList process depth => exact hPair.behind (hPair.readSensitivity h)
  | alwaysBlock clocked block => exact hPair.readBlock h
  | skipStatement depth => exact hPair.readSkipped h
  | skipBlock closer home => exact hPair.readSkippedBlock h

end Always

end Pairing

end Walk

end HdlIndex.Verilog

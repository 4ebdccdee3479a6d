import HdlIndex.Proofs.Verilog.ReadingWords
import HdlIndex.Verilog.Walk

/-! What the walk through a Verilog text does with words. Names are recorded as they are read, but a
type can be made of several words: its text is then not that of its place, and only the place is
known to lie between two ends of words. So there are two properties, one of names and one of
types. -/
namespace HdlIndex.Verilog

/-- A property of names that passes to stems, and one of types that passes from two types to the
type that reaches from the first to the second. Every name can be a type. -/
structure Located (P Q : Word → Prop) : Prop extends Rooted P where
  single {word : Word} : P word → Q word
  through {first last : Word} (text : String) : Q first → Q last →
    Q ⟨text, first.span.through last.span⟩

/-- Names stand in the text, and types are somewhere within it. -/
theorem standsIn_located (text : String) :
    Located (·.StandsIn text) (fun type => type.span.Within text) where
  __ := (standsIn_inherited text).rooted
  single h := h.within
  through {first last} _ hFirst hLast := by
    refine Span.within_of_isValid (Nat.le_max_right _ _) hFirst.start_valid ?_
    rcases Nat.le_total last.span.stop first.span.start with hle | hle
    · simpa [Span.through, Nat.max_eq_right hle] using hFirst.start_valid
    · simpa [Span.through, Nat.max_eq_left hle] using hLast.stop_valid

variable {P Q : Word → Prop}

/-- Nothing need be known of types. -/
theorem Located.ofNames (hP : Rooted P) : Located P fun _ => True where
  __ := hP
  single _ := trivial
  through _ _ _ := trivial

theorem Located.absent (hPQ : Located P Q) (name : Word) (h : P name) :
    Q (.absent name.span.stop) :=
  hPQ.single (hPQ.behind h)

/-- Every recorded name has the property `P`, and every type the property `Q`. Names are recorded
together with their attributes, so that none waits for them. -/
structure Findings.All (P Q : Word → Prop) (found : Findings) : Prop where
  modules : found.modules.All P
  ports : found.ports.AllComplete P Q
  parameters : found.parameters.AllComplete P Q
  objects : found.objects.AllComplete P Q
  clocked : found.clocked.All P
  instances : ∀ entry ∈ found.instances, P entry.name ∧ Q entry.module
  labels : found.labels.All P
  packages : found.packages.All P
  processes : ∀ process ∈ found.processes, process.All P

theorem Findings.All.empty : Findings.All P Q {} where
  modules := .empty
  ports := .empty
  parameters := .empty
  objects := .empty
  clocked := by simp [ClockedSignals.All]
  instances := by simp
  labels := .empty
  packages := .empty
  processes := by simp

/-- The name and the type of an item, as far as they are read. -/
structure Item.All (P Q : Word → Prop) (item : Item) : Prop where
  name : ∀ word ∈ item.name, P word
  type : ∀ word ∈ item.type, Q word

/-- What a move makes of an item. -/
def Move.All (P Q : Word → Prop) : Move → Prop
  | .stay item => item.All P Q
  | .next | .done | .close => True

namespace Item.All

variable {item : Item} {here : Lexeme} {depth : Nat}

/-- Changes to other fields keep the words of an item. -/
theorem of_eq {other : Item} (h : item.All P Q) (hName : other.name = item.name)
    (hType : other.type = item.type) : other.All P Q :=
  ⟨hName ▸ h.name, hType ▸ h.type⟩

theorem restart (h : item.All P Q) (direction : String) :
    All P Q { item.restart with direction } :=
  ⟨h.name, by simp [Item.restart]⟩

theorem pushType (h : item.All P Q) (hPQ : Located P Q) (hHere : P here.word) :
    (item.pushType here).All P Q := by
  refine ⟨h.name, ?_⟩
  rw [Item.pushType]
  cases hType : item.type with
  | none => simpa using hPQ.single hHere
  | some type =>
      rintro _ ⟨⟩
      exact hPQ.through _ (h.type type (by simp [hType])) (hPQ.single hHere)

/-- A name becomes the type of the name behind it. -/
theorem pushName (h : item.All P Q) (hPQ : Located P Q) (hHere : P here.word) :
    (item.pushName here).All P Q := by
  rw [Item.pushName]
  split
  · exact ⟨by simpa using hHere, h.type⟩
  · next earlier hName =>
    have hEarlier := hPQ.single (h.name earlier (by simp [hName]))
    split
    · refine ⟨by simp, ?_⟩
      rintro _ ⟨⟩
      exact hPQ.through _ hEarlier (hPQ.single hHere)
    · refine ⟨by simpa using hHere, ?_⟩
      cases hType : item.type with
      | none => simpa using hEarlier
      | some type => simpa using h.type type (by simp [hType])

/-- The head of an item takes its type and its name from words. -/
theorem readHead (h : item.All P Q) (hPQ : Located P Q) (hHere : P here.word) :
    (item.readHead here).All P Q := by
  rw [Item.readHead]
  split
  all_goals try exact h.of_eq rfl rfl
  all_goals try exact h.restart _
  all_goals try trivial
  · split
    · trivial
    · exact h
  · show Item.All P Q _
    split
    · exact h.pushType hPQ hHere
    · exact h
  · show Item.All P Q _
    split
    · exact h.restart _
    · exact h.pushName hPQ hHere

theorem readRange (h : item.All P Q) : (item.readRange depth here).All P Q := by
  unfold Item.readRange
  dsimp only
  split
  · exact h.of_eq rfl rfl
  · split <;> exact h.of_eq rfl rfl
  · exact h.of_eq rfl rfl

theorem readValue (h : item.All P Q) : (item.readValue depth here).All P Q := by
  unfold Item.readValue
  dsimp only
  split
  all_goals try exact h.of_eq rfl rfl
  all_goals
    split
    · trivial
    · exact h.of_eq rfl rfl

theorem read (h : item.All P Q) (hPQ : Located P Q) (hHere : P here.word) :
    (item.read here).All P Q := by
  rw [Item.read]
  split
  · exact h.readHead hPQ hHere
  · exact h.readRange
  · exact h.readValue

/-- The type carries over to the next name. -/
theorem afterName (h : item.All P Q) : item.afterName.All P Q :=
  ⟨by simp [Item.afterName], h.type⟩

end Item.All

/-- The words of a statement that begins with a name. -/
structure Instantiation.All (P Q : Word → Prop) (statement : Instantiation) : Prop where
  type : Q statement.type
  name : ∀ word ∈ statement.name, P word

/-- The words of the always block that a block of statements is part of. -/
def Block.All (P : Word → Prop) (block : Block) : Prop :=
  ∀ process ∈ block.process, process.All P

/-- The words that a place holds on to until they are recorded. -/
def Place.All (P Q : Word → Prop) : Place → Prop
  | .parameterList _ _ item | .portList _ item | .declaration item => item.All P Q
  | .instanceHeader statement _ | .instanceMap statement _ => statement.All P Q
  | .alwaysHeader process | .sensitivityList process _ => process.All P
  | .alwaysBlock _ block => block.All P
  | _ => True

namespace Walk

/-- Every word that the walk holds on to or has recorded has its property. -/
structure All (P Q : Word → Prop) (walk : Walk) : Prop where
  place : walk.place.All P Q
  found : walk.found.All P Q

namespace All

variable {walk : Walk} {place : Place} {item : Item} {name : Word} {owner : Owner} {home : Home}
  {here : Lexeme} {next : Option Lexeme} {found : Findings} {process : HdlProcess} {block : Block}
  {clocked : Bool} {depth : Nat} {expr : Capture} {statement : Instantiation}

/-- Frames, labels and notes hold no words. -/
theorem of_eq {other : Walk} (h : walk.All P Q) (hPlace : other.place = walk.place)
    (hFound : other.found = walk.found) : other.All P Q :=
  ⟨hPlace ▸ h.place, hFound ▸ h.found⟩

theorem goto (h : walk.All P Q) (hPlace : place.All P Q) : (walk.goto place).All P Q :=
  ⟨hPlace, h.found⟩

theorem collect (h : walk.All P Q) {change : Findings → Findings}
    (hChange : (change walk.found).All P Q) : (walk.collect change).All P Q :=
  ⟨h.place, hChange⟩

theorem leaveFrames (h : walk.All P Q) (ends : Frame → Bool) : (walk.leaveFrames ends).All P Q :=
  h.of_eq rfl rfl

theorem endItem (h : walk.All P Q) : walk.endItem.All P Q := by
  unfold Walk.endItem
  dsimp only
  split
  · exact h.leaveFrames _
  · split
    · exact h.of_eq rfl rfl
    · exact h.leaveFrames _

theorem backToBody (h : walk.All P Q) : walk.backToBody.All P Q := by
  have hBody : (walk.goto .moduleBody).All P Q := h.goto trivial
  exact hBody.endItem

theorem resume (h : walk.All P Q) : (walk.resume home).All P Q := by
  cases home with
  | moduleContext => exact h.goto trivial
  | moduleHeader announced => exact h.goto trivial
  | moduleBody => exact h.backToBody

theorem expectLabel (h : walk.All P Q) (recorded : Bool) :
    (walk.expectLabel recorded next).All P Q := by
  rw [Walk.expectLabel]
  split
  · exact h.of_eq rfl rfl
  · exact h

theorem enterFrame (h : walk.All P Q) (condition otherwise : String) :
    (walk.enterFrame condition otherwise next).All P Q :=
  h.of_eq rfl rfl

theorem commitProcess (h : walk.All P Q) (hProcess : process.All P) {offset : Nat}
    (hOffset : P (.absent offset)) : (walk.commitProcess process offset).All P Q := by
  refine ⟨h.place, { h.found with processes := ?_ }⟩
  intro other hMem
  rcases Array.mem_push.1 hMem with hMem | rfl
  · exact h.found.processes other hMem
  · exact hProcess.close hOffset

theorem declarePort (h : found.All P Q) (hPQ : Located P Q) (hItem : item.All P Q)
    (hName : P name) : (Walk.declarePort found item name).All P Q := by
  rw [Walk.declarePort]
  split
  · exact { h with ports := h.ports.update _ _ _ _ hItem.type }
  · exact { h with ports := h.ports.pushRow _ _ _ hName hItem.type hPQ.absent }

theorem declareNet (h : found.All P Q) (hPQ : Located P Q) (hItem : item.All P Q)
    (hName : P name) : (Walk.declareNet found item name).All P Q := by
  rw [Walk.declareNet]
  split
  · exact { h with ports := h.ports.update _ _ _ _ hItem.type }
  · exact { h with objects := h.objects.pushRow _ _ _ hName hItem.type hPQ.absent }

/-- Recording an item records its name and its type. -/
theorem declare (h : found.All P Q) (hPQ : Located P Q) (hItem : item.All P Q) :
    (Walk.declare found item).All P Q := by
  rw [Walk.declare]
  split
  · exact h
  next name hSome =>
  have hName := hItem.name name (by simp [hSome])
  split
  · exact { h with parameters := h.parameters.pushRow _ _ _ hName hItem.type hPQ.absent }
  · exact { h with parameters := h.parameters.pushRow _ _ _ hName hItem.type hPQ.absent }
  · exact { h with ports := h.ports.pushRow _ _ _ hName hItem.type hPQ.absent }
  · exact declarePort h hPQ hItem hName
  · exact declareNet h hPQ hItem hName
  · exact { h with objects := h.objects.pushRow _ _ _ hName hItem.type hPQ.absent }

theorem flush (h : walk.All P Q) (hPQ : Located P Q) (hItem : item.All P Q) :
    (walk.flush item).All P Q :=
  h.collect (declare h.found hPQ hItem)

theorem gotoOwner (h : walk.All P Q) : (walk.goto owner.place).All P Q :=
  h.goto (by cases owner <;> trivial)

theorem closeParameters (h : walk.All P Q) {inside offset : Nat} :
    (walk.closeParameters owner inside offset).All P Q :=
  (h.collect { h.found with }).gotoOwner

/-- What a parameter list records are words that were read. -/
theorem readParameters (h : walk.All P Q) (hPQ : Located P Q) (hHere : P here.word)
    (hItem : item.All P Q) {inside : Nat} :
    (walk.readParameters owner inside item here).All P Q := by
  have hMove := hItem.read hPQ hHere
  have hFlush := h.flush hPQ hItem
  rw [Walk.readParameters]
  split
  · next item' hRead =>
    rw [hRead] at hMove
    exact h.goto hMove
  · exact hFlush.goto hItem.afterName
  · exact hFlush.goto hItem.afterName
  · exact hFlush.closeParameters

/-- And so it is for a port list. -/
theorem readPorts (h : walk.All P Q) (hPQ : Located P Q) (hHere : P here.word)
    (hItem : item.All P Q) : (walk.readPorts owner item here).All P Q := by
  have hMove := hItem.read hPQ hHere
  have hFlush := h.flush hPQ hItem
  rw [Walk.readPorts]
  split
  · next item' hRead =>
    rw [hRead] at hMove
    exact h.goto hMove
  · exact hFlush.goto hItem.afterName
  · exact hFlush.goto hItem.afterName
  · exact hFlush.gotoOwner

/-- And for a declaration. -/
theorem readDeclaration (h : walk.All P Q) (hPQ : Located P Q) (hHere : P here.word)
    (hItem : item.All P Q) : (walk.readDeclaration item here).All P Q := by
  have hMove := hItem.read hPQ hHere
  have hFlush := h.flush hPQ hItem
  rw [Walk.readDeclaration]
  split
  · next item' hRead =>
    rw [hRead] at hMove
    exact h.goto hMove
  · exact hFlush.goto hItem.afterName
  · exact hFlush.backToBody
  · exact hFlush.backToBody

theorem readContext (h : walk.All P Q) : (walk.readContext here).All P Q := by
  rw [Walk.readContext]
  split
  all_goals try exact h.goto trivial
  exact h

theorem readModuleName (h : walk.All P Q) (hHere : P here.word) :
    (walk.readModuleName here).All P Q := by
  rw [Walk.readModuleName]
  split
  · exact ⟨trivial, { h.found with modules := h.found.modules.push hHere }⟩
  · exact h

theorem readModuleHeader (h : walk.All P Q) {announced : Bool} :
    (walk.readModuleHeader announced here).All P Q := by
  rw [Walk.readModuleHeader]
  split
  · exact h.goto trivial
  · split
    · exact h.goto ⟨by simp, by simp⟩
    · exact h.goto ⟨by simp, by simp⟩
  · exact backToBody (h.of_eq rfl rfl)
  · exact h.goto trivial
  · exact h

/-- An import records the word in front of `::`. -/
theorem readImport (h : walk.All P Q) (hHere : P here.word) :
    (walk.readImport home here next).All P Q := by
  have hPackage : (walk.collect fun found => { found with
      packages := found.packages.push here.word }).All P Q :=
    h.collect { h.found with packages := h.found.packages.push hHere }
  rw [Walk.readImport]
  split
  · exact h.resume
  · split
    · exact hPackage
    · exact h
  · split
    · exact hPackage
    · exact h
  · exact h

theorem readSkippedBlock (h : walk.All P Q) {closer : Keyword} :
    (walk.readSkippedBlock closer home here).All P Q := by
  rw [Walk.readSkippedBlock]
  split
  · exact h.resume
  · exact h

theorem readSkipped (h : walk.All P Q) : (walk.readSkipped depth here).All P Q := by
  rw [Walk.readSkipped]
  split
  · exact h.goto trivial
  split
  · exact h.goto trivial
  split
  · exact h.backToBody
  · exact h

theorem enterBlock (h : walk.All P Q) {process : Option HdlProcess}
    (hProcess : ∀ inner ∈ process, inner.All P) : (walk.enterBlock clocked process).All P Q :=
  h.goto hProcess

/-- The process that opens has the span of its keyword for a start. -/
theorem beginAlways (h : walk.All P Q) (hPQ : Located P Q) (hHere : P here.word) {word : Keyword} :
    (walk.beginAlways word here).All P Q := by
  have hStart := HdlProcess.All.starting none (hPQ.before hHere)
  have hAll : HdlProcess.All P { HdlProcess.starting none here.span.start with all := true } :=
    ⟨hStart.span, hStart.sensitivity, hStart.body⟩
  unfold Walk.beginAlways
  dsimp only
  split
  · exact h.enterBlock (by simp)
  · exact h.enterBlock (by simp)
  · exact h.enterBlock (by rintro _ ⟨⟩; exact hAll)
  · exact h.goto hAll
  · exact h.goto hStart

/-- Words of an event control go into the process. -/
theorem readSensitivity (h : walk.All P Q) (hHere : P here.word) (hProcess : process.All P) :
    (walk.readSensitivity process depth here).All P Q := by
  have hListed : ∀ {other : HdlProcess}, other.All P →
      (if depth = 0 then walk.enterBlock false (some other)
        else walk.goto (.sensitivityList other depth)).All P Q := by
    intro other hOther
    split
    · exact h.enterBlock (by rintro _ ⟨⟩; exact hOther)
    · exact h.goto hOther
  rw [Walk.readSensitivity]
  dsimp only
  split
  · exact h.goto hProcess
  · split
    · exact h.enterBlock (by rintro _ ⟨⟩; exact hProcess)
    · exact h.goto hProcess
  · exact hListed ⟨hProcess.span, hProcess.sensitivity, hProcess.body⟩
  · exact h.goto ⟨hProcess.span, hProcess.sensitivity, hProcess.body⟩
  · exact h.goto ⟨hProcess.span, hProcess.sensitivity, hProcess.body⟩
  · exact hListed (hProcess.pushSensitivity hHere)
  · exact h

end All
end Walk
end HdlIndex.Verilog

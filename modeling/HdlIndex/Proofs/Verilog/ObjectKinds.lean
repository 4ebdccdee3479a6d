import HdlIndex.Proofs.Verilog.ReadingWords
import HdlIndex.Proofs.Verilog.WordReading
import HdlIndex.Proofs.Verilog.StatementWords
import HdlIndex.Proofs.Verilog.Turns

/-! The kinds of the objects of a Verilog text. A declaration files its names under the first
built-in word of its type. That word may be missing, where the type is a name, and it may be
`genvar`. Local parameters are objects as well. -/
namespace HdlIndex.Verilog

/-- What an object is recorded under. -/
inductive IsKind : String → Prop where
  /-- The type of the object is a name. -/
  | named : IsKind ""
  | localparam : IsKind "localparam"
  | builtIn {word : Keyword} (h : isDataType word = true) : IsKind word.text

/-- The names of a declaration under way are filed under a kind. -/
def Place.HasKind : Place → Prop
  | .parameterList _ _ item | .portList _ item | .declaration item => IsKind item.keyword
  | _ => True

/-- Every object is recorded under a kind. -/
def Findings.HasKinds (found : Findings) : Prop := ∀ row ∈ found.objects.rows, IsKind row.mode

/-- The word means what its text means. -/
def Lexeme.IsRead (lexeme : Lexeme) : Prop := lexeme.symbol = .ofText lexeme.text

theorem Lexeme.IsRead.text_eq {lexeme : Lexeme} {word : Keyword} (h : lexeme.IsRead)
    (hWord : lexeme.symbol = .keyword word) : lexeme.text = word.text :=
  Symbol.eq_of_spelling? (h ▸ hWord ▸ rfl)

theorem Owner.hasKind_place (owner : Owner) : owner.place.HasKind := by cases owner <;> trivial

namespace Item

variable {item other : Item} {here : Lexeme} {depth : Nat}

theorem isKind_pushType (h : IsKind item.keyword) (hHere : IsKind here.text) :
    IsKind (item.pushType here).keyword := by
  rw [pushType]
  split
  · exact hHere
  · exact h

theorem keyword_pushName : (item.pushName here).keyword = item.keyword := by
  rw [pushName]
  split
  · rfl
  · split <;> rfl

/-- The keyword of an item is the one its declaration started with, or it is set by a word of the
head. -/
theorem isKind_readHead (h : IsKind item.keyword) (hHere : here.IsRead)
    (hRead : item.readHead here = .stay other) : IsKind other.keyword := by
  rw [readHead] at hRead
  split at hRead
  all_goals try cases hRead
  all_goals try exact h
  all_goals try exact .named
  · split at hRead <;> cases hRead
    exact h
  · next hWord =>
    split
    · next hType => exact isKind_pushType h (hHere.text_eq hWord ▸ .builtIn hType)
    · exact h
  · split
    · exact .named
    · rw [keyword_pushName]
      exact h

theorem keyword_readRange (hRead : item.readRange depth here = .stay other) :
    other.keyword = item.keyword := by
  unfold readRange at hRead
  dsimp only at hRead
  split at hRead
  all_goals try split at hRead
  all_goals cases hRead
  all_goals rfl

theorem keyword_readValue (hRead : item.readValue depth here = .stay other) :
    other.keyword = item.keyword := by
  unfold readValue at hRead
  dsimp only at hRead
  split at hRead
  all_goals try split at hRead
  all_goals cases hRead
  all_goals rfl

/-- What is read of an item files its names under a kind. -/
theorem isKind_read (h : IsKind item.keyword) (hHere : here.IsRead)
    (hRead : item.read here = .stay other) : IsKind other.keyword := by
  rw [read] at hRead
  split at hRead
  · exact isKind_readHead h hHere hRead
  · exact keyword_readRange hRead ▸ h
  · exact keyword_readValue hRead ▸ h

end Item

namespace Walk

/-- What is found so far has kinds, and what is declared under way will have one. -/
structure HasKinds (walk : Walk) : Prop where
  place : walk.place.HasKind
  found : walk.found.HasKinds

namespace HasKinds

variable {walk other : Walk} {place : Place} {item : Item} {owner : Owner} {home : Home}
  {here : Lexeme}
  {next : Option Lexeme} {process : HdlProcess} {block : Block} {clocked : Bool} {depth : Nat}
  {expr : Capture} {statement : Instantiation} {kind : GenerateKind} {word : Keyword}

theorem goto (h : walk.HasKinds) (hPlace : place.HasKind) : (walk.goto place).HasKinds :=
  ⟨hPlace, h.found⟩

/-- The walk may go on elsewhere, as long as it adds no objects. -/
theorem of_eq (h : walk.HasKinds) (hPlace : other.place.HasKind)
    (hObjects : other.found.objects = walk.found.objects) : other.HasKinds :=
  ⟨hPlace, by rw [Findings.HasKinds, hObjects]; exact h.found⟩

theorem same (h : walk.HasKinds) (hPlace : other.place = walk.place)
    (hObjects : other.found.objects = walk.found.objects) : other.HasKinds :=
  h.of_eq (hPlace ▸ h.place) hObjects

theorem endItem (h : walk.HasKinds) : walk.endItem.HasKinds := by
  unfold Walk.endItem
  dsimp only
  split
  · exact h.same rfl rfl
  · split <;> exact h.same rfl rfl

theorem backToBody (h : walk.HasKinds) : walk.backToBody.HasKinds :=
  have hBody : (walk.goto .moduleBody).HasKinds := h.goto trivial
  hBody.endItem

theorem resume (h : walk.HasKinds) : (walk.resume home).HasKinds := by
  cases home with
  | moduleBody => exact h.backToBody
  | _ => exact h.goto trivial

theorem expectLabel (h : walk.HasKinds) (recorded : Bool) :
    (walk.expectLabel recorded next).HasKinds := by
  rw [Walk.expectLabel]
  split
  · exact h.same rfl rfl
  · exact h

/-- What a name is declared as is its kind, unless it is a port or a parameter. -/
theorem declare {found : Findings} (h : found.HasKinds) (hItem : IsKind item.keyword) :
    (Walk.declare found item).HasKinds := by
  have hPush (name : Word) {mode : String} (hMode : IsKind mode) (type : Option Word)
      (range init : String) :
      Findings.HasKinds
        { found with objects := found.objects.pushRow name mode type range init } := by
    intro row hRow
    rcases Array.mem_append.1 hRow with hRow | hRow
    · exact h row hRow
    · obtain ⟨other, -, rfl⟩ := Array.mem_map.1 hRow
      exact hMode
  rw [Walk.declare]
  split
  · exact h
  · split
    · exact h
    · exact h
    · exact h
    · rw [declarePort]
      split <;> exact h
    · rw [declareNet]
      split
      · exact h
      · exact hPush _ hItem _ _ _
    · exact hPush _ .localparam _ _ _

theorem flush (h : walk.HasKinds) (hItem : IsKind item.keyword) : (walk.flush item).HasKinds :=
  ⟨h.place, declare h.found hItem⟩

theorem closeParameters (h : walk.HasKinds) {inside offset : Nat} :
    (walk.closeParameters owner inside offset).HasKinds :=
  h.of_eq owner.hasKind_place rfl

/-- A parameter list declares parameters, whose kind is a kind of object. -/
theorem readParameters (h : walk.HasKinds) (hHere : here.IsRead) (hItem : IsKind item.keyword)
    {inside : Nat} : (walk.readParameters owner inside item here).HasKinds := by
  have hFlush := h.flush hItem
  rw [Walk.readParameters]
  split
  · next hRead => exact h.goto (Item.isKind_read hItem hHere hRead)
  · exact hFlush.goto hItem
  · exact hFlush.goto hItem
  · exact hFlush.closeParameters

/-- A port list declares ports. -/
theorem readPorts (h : walk.HasKinds) (hHere : here.IsRead) (hItem : IsKind item.keyword) :
    (walk.readPorts owner item here).HasKinds := by
  have hFlush := h.flush hItem
  rw [Walk.readPorts]
  split
  · next hRead => exact h.goto (Item.isKind_read hItem hHere hRead)
  · exact hFlush.goto hItem
  · exact hFlush.goto hItem
  · exact hFlush.goto owner.hasKind_place

/-- A declaration declares what its first keyword says. -/
theorem readDeclaration (h : walk.HasKinds) (hHere : here.IsRead) (hItem : IsKind item.keyword) :
    (walk.readDeclaration item here).HasKinds := by
  have hFlush := h.flush hItem
  rw [Walk.readDeclaration]
  split
  · next hRead => exact h.goto (Item.isKind_read hItem hHere hRead)
  · exact hFlush.goto hItem
  · exact hFlush.backToBody
  · exact hFlush.backToBody

theorem readContext (h : walk.HasKinds) : (walk.readContext here).HasKinds := by
  rw [Walk.readContext]
  split
  all_goals first
    | exact h.goto trivial
    | exact h

theorem readModuleName (h : walk.HasKinds) : (walk.readModuleName here).HasKinds := by
  rw [Walk.readModuleName]
  split
  · exact h.of_eq trivial rfl
  · exact h

theorem readModuleHeader (h : walk.HasKinds) {announced : Bool} :
    (walk.readModuleHeader announced here).HasKinds := by
  rw [Walk.readModuleHeader]
  split
  · exact h.goto trivial
  · split
    · exact h.goto .named
    · exact h.goto .named
  · exact (h.same rfl rfl : HasKinds { walk with blocks := 0 }).backToBody
  · exact h.goto trivial
  · exact h

theorem readImport (h : walk.HasKinds) : (walk.readImport home here next).HasKinds := by
  rw [Walk.readImport]
  split
  · exact h.resume
  · split
    · exact h.same rfl rfl
    · exact h
  · split
    · exact h.same rfl rfl
    · exact h
  · exact h

theorem readSkippedBlock (h : walk.HasKinds) {closer : Keyword} :
    (walk.readSkippedBlock closer home here).HasKinds := by
  rw [Walk.readSkippedBlock]
  split
  · exact h.resume
  · exact h

theorem readSkipped (h : walk.HasKinds) : (walk.readSkipped depth here).HasKinds := by
  rw [Walk.readSkipped]
  split
  · exact h.goto trivial
  split
  · exact h.goto trivial
  split
  · exact h.backToBody
  · exact h

theorem beginAlways (h : walk.HasKinds) : (walk.beginAlways word here).HasKinds := by
  unfold Walk.beginAlways
  dsimp only
  split <;> exact h.goto trivial

theorem readSensitivity (h : walk.HasKinds) :
    (walk.readSensitivity process depth here).HasKinds := by
  have hListed (other : HdlProcess) : (if depth = 0 then walk.enterBlock false (some other)
      else walk.goto (.sensitivityList other depth)).HasKinds := by
    split <;> exact h.goto trivial
  rw [Walk.readSensitivity]
  dsimp only
  split
  all_goals first
    | exact hListed _
    | exact h.goto trivial
    | exact h
    | skip
  split <;> exact h.goto trivial

theorem endStatement (h : walk.HasKinds) :
    (walk.endStatement clocked block here next).HasKinds := by
  rw [Walk.endStatement]
  split
  · exact h.goto trivial
  · split
    · next process _ =>
      exact (h.same rfl rfl : (walk.commitProcess process here.span.stop).HasKinds).backToBody
    · exact h.backToBody

/-- Assignments record clocked signals only. -/
theorem readAssignment (h : walk.HasKinds) {nonBlocking : Bool} :
    (walk.readAssignment clocked block nonBlocking).HasKinds := by
  have hClocked (targets : List Word) (conditions : List String) (found : Findings) :
      (targets.foldl (recordClocked · · conditions) found).objects = found.objects := by
    induction targets generalizing found with
    | nil => rfl
    | cons target targets ih => exact ih _
  rw [Walk.readAssignment]
  dsimp only
  split
  · exact h.goto trivial
  · exact h.goto trivial
  · split
    · exact h.of_eq trivial (hClocked _ _ _)
    · exact h.goto trivial

theorem readBlockKeyword (h : walk.HasKinds) :
    (walk.readBlockKeyword clocked block word here next).HasKinds := by
  have hStay (other : Block) : (walk.goto (.alwaysBlock clocked other)).HasKinds := h.goto trivial
  have hClose : (let block := { block with nest := block.nest - 1, statement := {} }
      if block.nest = 0 then walk.endStatement clocked block here next
      else (walk.goto (.alwaysBlock clocked block)).expectLabel false next).HasKinds := by
    dsimp only
    split
    · exact h.endStatement
    · exact (hStay _).expectLabel _
  unfold Walk.readBlockKeyword
  dsimp only
  split
  case h_9 =>
    split
    · exact hStay _
    split
    · exact hClose
    · exact hStay _
  all_goals first
    | exact hStay _
    | exact (hStay _).expectLabel _

/-- No word of a block declares an object. -/
theorem readBlock (h : walk.HasKinds) : (walk.readBlock clocked block here next).HasKinds := by
  have hStay (other : Block) : (walk.goto (.alwaysBlock clocked other)).HasKinds := h.goto trivial
  rw [Walk.readBlock]
  dsimp only
  split
  · exact hStay _
  split
  · exact hStay _
  split
  · exact hStay _
  split
  · split
    · exact h.endStatement
    · exact hStay _
  · exact h.readBlockKeyword
  · exact hStay _
  · split <;> exact hStay _
  · exact h.readAssignment
  · exact h.readAssignment
  · exact hStay _
  · exact hStay _
  · exact hStay _

theorem readAlwaysHeader (h : walk.HasKinds) :
    (walk.readAlwaysHeader process here next).HasKinds := by
  rw [Walk.readAlwaysHeader]
  split
  · exact h.goto trivial
  · exact h.readBlock

theorem readChoice (h : walk.HasKinds) : (walk.readChoice depth expr here).HasKinds := by
  rw [Walk.readChoice]
  dsimp only
  split
  · exact h.of_eq trivial rfl
  split
  · exact h.goto trivial
  split <;> exact h.goto trivial

theorem closeBlock (h : walk.HasKinds) : walk.closeBlock.HasKinds :=
  endItem (h.same rfl rfl)

theorem closeCase (h : walk.HasKinds) : walk.closeCase.HasKinds := by
  rw [Walk.closeCase]
  split
  · exact h.endItem
  · exact endItem (h.same rfl rfl)

theorem readElse (h : walk.HasKinds) : (walk.readElse next).HasKinds := by
  rw [Walk.readElse]
  dsimp only
  split <;> exact h.same rfl rfl

theorem readItemKeyword (h : walk.HasKinds) (hHere : here.IsRead) :
    (walk.readItemKeyword word here next).HasKinds := by
  have hDeclaration {kind : ItemKind} : (walk.beginDeclaration kind here).HasKinds :=
    h.readDeclaration hHere .named
  unfold Walk.readItemKeyword
  split
  all_goals try exact hDeclaration
  all_goals try exact h.beginAlways
  all_goals try exact h.goto trivial
  all_goals try exact h.same rfl rfl
  · exact (h.same rfl rfl : HasKinds { walk with blocks := walk.blocks + 1 }).expectLabel _
  · exact h.closeBlock.expectLabel _
  · exact h.closeCase
  · exact h.of_eq trivial rfl
  · exact h.readElse
  · split
    · exact hDeclaration
    · exact h.goto trivial

theorem readItem (h : walk.HasKinds) (hHere : here.IsRead) :
    (walk.readItem here next).HasKinds := by
  rw [Walk.readItem]
  split
  · exact h.readChoice
  split
  · exact h.endItem
  · exact h.readItemKeyword hHere
  · exact h.goto trivial
  · exact h.goto trivial

theorem readGenerate (h : walk.HasKinds) :
    (walk.readGenerate kind depth expr here next).HasKinds := by
  have hEnter (header : String) : (walk.enterGenerate kind header next).HasKinds :=
    have hIdles := Idles.enterGenerate walk kind header next
    h.same hIdles.place (congrArg Findings.objects hIdles.found)
  rw [Walk.readGenerate]
  dsimp only
  split
  · exact h.goto trivial
  split
  · exact h.goto trivial
  split
  · exact (hEnter _).goto trivial
  split
  · exact h.goto trivial
  split
  · exact h.goto trivial
  · exact h

theorem readInstanceName (h : walk.HasKinds) : (walk.readInstanceName statement here).HasKinds := by
  rw [Walk.readInstanceName]
  dsimp only
  split
  · exact h.goto trivial
  split
  · exact h.goto trivial
  · exact h

/-- An instance that turns into a declaration declares nets of the type it seemed to instantiate. -/
theorem readInstance (h : walk.HasKinds) (hHere : here.IsRead) :
    (walk.readInstance statement depth here).HasKinds := by
  have hDeclaration (name : Word) : (walk.readDeclaration
      { kind := .bodyNet, type := some statement.type, name := some name } here).HasKinds :=
    h.readDeclaration hHere .named
  rw [Walk.readInstance]
  dsimp only
  split
  · split
    · exact h.goto trivial
    · exact h.goto trivial
    · exact h
  split
  · exact h.goto trivial
  · exact h.of_eq trivial rfl
  · split <;> exact h.goto trivial
  · exact h.goto trivial
  · exact hDeclaration _
  · exact hDeclaration _
  · exact hDeclaration _
  · exact hDeclaration _
  · exact h.backToBody
  · exact h.readInstanceName
  · exact h.goto trivial

theorem readMap (h : walk.HasKinds) : (walk.readMap statement depth here).HasKinds := by
  unfold Walk.readMap
  split
  · exact h.goto trivial
  split
  · exact h.goto trivial
  split
  · exact h.goto trivial
  · exact h.backToBody
  · exact h

/-- Reading a word files what it declares under a kind. -/
theorem read (h : walk.HasKinds) (hHere : here.IsRead) : (walk.read here next).HasKinds := by
  have hPlace := h.place
  rw [Walk.read]
  generalize walk.place = place at hPlace
  cases place with
  | moduleContext => exact h.readContext
  | moduleName => exact h.readModuleName
  | moduleHeader announced => exact h.readModuleHeader
  | parameterList owner inside item => exact h.readParameters hHere hPlace
  | portList owner item => exact h.readPorts hHere hPlace
  | moduleBody => exact h.readItem hHere
  | declaration item => exact h.readDeclaration hHere hPlace
  | importClause home => exact h.readImport
  | instanceHeader statement depth => exact h.readInstance hHere
  | instanceMap statement depth => exact h.readMap
  | generateHeader kind depth expr => exact h.readGenerate
  | generateChoice depth expr => exact h.readChoice
  | alwaysHeader process => exact h.readAlwaysHeader
  | sensitivityList process depth => exact h.readSensitivity
  | alwaysBlock clocked block => exact h.readBlock
  | skipStatement depth => exact h.readSkipped
  | skipBlock closer home => exact h.readSkippedBlock

/-- So every word keeps the objects of one of the known kinds. -/
theorem readWord (h : walk.HasKinds) (hHere : here.IsRead) :
    (walk.readWord here next).HasKinds := by
  rw [Walk.readWord]
  split
  · next labelled hLabel =>
    rw [Walk.readLabel?] at hLabel
    split at hLabel
    · cases hLabel
    · split at hLabel <;> cases hLabel
      exact h.same rfl rfl
    · split at hLabel <;> cases hLabel
      split <;> exact h.same rfl rfl
  · exact read (h.same rfl rfl) hHere

theorem flushAt (h : walk.HasKinds) (offset : Nat) : (walk.flushAt offset).HasKinds := by
  have hPlace := h.place
  rw [Walk.flushAt]
  generalize walk.place = place at hPlace
  cases place with
  | parameterList owner inside item => exact (h.flush hPlace).closeParameters
  | portList owner item => exact (h.flush hPlace).goto owner.hasKind_place
  | declaration item => exact (h.flush hPlace).goto trivial
  | _ => exact h

end HasKinds

end Walk

/-- The words of an event mean what their texts mean. -/
def Event.IsRead : Event → Prop
  | .word here _ => here.IsRead
  | _ => True

theorem Reader.upcoming_isRead (size : Nat) (tokens : List Token) (reader : Reader) :
    ∀ event ∈ reader.upcoming size tokens, event.IsRead :=
  upcoming_forall (fun _ => ⟨trivial, trivial⟩)
    (fun _ _ => ⟨trivial, trivial, fun _ => rfl⟩) size reader

namespace Walk.HasKinds

variable {walk : Walk}

/-- And so does every event. -/
theorem step (h : walk.HasKinds) {event : Event} (hEvent : event.IsRead) :
    (walk.step event).HasKinds := by
  cases event with
  | comment span => exact h
  | directive span => exact h
  | filler token =>
      have hPlace := h.place
      refine ⟨?_, h.found⟩
      show (walk.place.absorb token).HasKind
      generalize walk.place = place at hPlace
      cases place <;> exact hPlace
  | word here next => exact h.readWord hEvent
  | ended offset => exact h.flushAt offset

theorem run (h : walk.HasKinds) {events : List Event} (hEvents : ∀ event ∈ events, event.IsRead) :
    (walk.run events).HasKinds := by
  induction events generalizing walk with
  | nil => exact h
  | cons event events ih =>
      obtain ⟨hEvent, hEvents⟩ := List.forall_mem_cons.1 hEvents
      exact ih (h.step hEvent) hEvents

theorem start (region : Region) : (Walk.start region).HasKinds := by
  have hFound : Findings.HasKinds {} := by simp [Findings.HasKinds]
  cases region
  all_goals first
    | exact ⟨trivial, hFound⟩
    | exact ⟨.named, hFound⟩

theorem finish (h : walk.HasKinds) (size : Nat) : (walk.finish size).found.HasKinds :=
  finish_of_flushAt (P := (·.found.HasKinds)) (h.flushAt size).found fun _ _ =>
    (h.flushAt size).found

end Walk.HasKinds

/-- Every object of a text is recorded under a kind. -/
theorem scan_objects (region : Region) (limit : Option Nat) (text : String) :
    (scan region limit text).table.HasKinds := by
  have hFound := (Walk.HasKinds.start region).run
    (Reader.upcoming_isRead text.utf8ByteSize (tokens limit text).list {}) |>.finish
      text.utf8ByteSize
  have hAligned := (walkThrough_located region limit text).align_eq_self
  show (walkThrough region _ _).found.align.HasKinds
  rw [hAligned]
  exact hFound

end HdlIndex.Verilog

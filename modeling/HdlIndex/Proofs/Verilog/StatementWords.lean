import HdlIndex.Proofs.Verilog.WalkWords
import HdlIndex.Verilog.Scan

/-! The words of always blocks and of module items, and the walk as a whole. An open always block is
part of the place, and so are the names of a statement that may turn out to be an instance. All
tokens of a scan but the sentinel stand in the text, so every name of the table does, and every type
is within the text. An included file is the part of a directive line between its quotes. -/
namespace HdlIndex.Verilog

section Statements

variable {P Q : Word → Prop}

namespace Block.All

variable {block : Block} {here : Lexeme}

/-- Counters and statements hold no words. -/
theorem of_eq {other : Block} (h : block.All P) (hProcess : other.process = block.process) :
    other.All P := by
  intro process hMem
  exact h process (hProcess ▸ hMem)

theorem readBodyWord (h : block.All P) (hHere : P here.word) :
    (Walk.readBodyWord block here).All P := by
  rw [Walk.readBodyWord]
  dsimp only
  split
  · next process _ hProcess =>
    rintro _ ⟨⟩
    exact (h process hProcess).pushBody hHere _
  · exact h.of_eq rfl

theorem readOpener (h : block.All P) : (Walk.readOpener block here).All P := by
  unfold Walk.readOpener
  dsimp only
  split <;> exact h.of_eq rfl

theorem readCloser (h : block.All P) : (Walk.readCloser block here).All P := by
  unfold Walk.readCloser
  dsimp only
  split <;> exact h.of_eq rfl

end Block.All

/-- The always block that is open at a place is part of the place. -/
theorem Place.All.process? {place : Place} (h : place.All P Q) :
    ∀ process ∈ place.process?, process.All P := by
  cases place with
  | alwaysHeader process =>
      rintro _ ⟨⟩
      exact h
  | sensitivityList process depth =>
      rintro _ ⟨⟩
      exact h
  | alwaysBlock clocked block => exact h
  | _ => simp [Place.process?]

namespace Walk.All

variable {walk : Walk} {place : Place} {item : Item} {name : Word} {home : Home} {here : Lexeme}
  {next : Option Lexeme} {process : HdlProcess} {block : Block} {clocked : Bool} {depth : Nat}
  {expr : Capture} {statement : Instantiation} {kind : GenerateKind} {word : Keyword}

theorem endStatement (h : walk.All P Q) (hPQ : Located P Q) (hHere : P here.word)
    (hBlock : block.All P) : (walk.endStatement clocked block here next).All P Q := by
  rw [Walk.endStatement]
  split
  · exact h.goto hBlock
  · split
    · next process hProcess =>
      exact (h.commitProcess (hBlock process hProcess) (hPQ.behind hHere)).backToBody
    · exact h.backToBody

/-- The words that are recorded as clocked signals are stems of words of the block. -/
theorem recordClocked_foldl {found : Findings} {targets : List Word} (h : found.All P Q)
    (hP : Rooted P) (hTargets : ∀ target ∈ targets, P target) (conditions : List String) :
    (targets.foldl (recordClocked · · conditions) found).All P Q := by
  induction targets generalizing found with
  | nil => exact h
  | cons target targets ih =>
      rw [List.forall_mem_cons] at hTargets
      exact ih { h with clocked := h.clocked.record (hP.stem hTargets.1) conditions } hTargets.2

/-- Marking changes the roles of words and none of the words. -/
theorem mark_foldl {indices : List Nat} (hProcess : process.All P) (role : Role) :
    (indices.foldl (fun process index => process.mark index role) process).All P := by
  induction indices generalizing process with
  | nil => exact hProcess
  | cons index indices ih => exact ih (hProcess.mark index role)

/-- The targets of an assignment are words of the block, so that they are recorded with what is
known of these. -/
theorem readAssignment (h : walk.All P Q) (hPQ : Located P Q) (hBlock : block.All P)
    {nonBlocking : Bool} : (walk.readAssignment clocked block nonBlocking).All P Q := by
  rw [Walk.readAssignment]
  dsimp only
  split
  · exact h.goto hBlock
  · exact h.goto (hBlock.of_eq rfl)
  · next process hProcess _ =>
    have hBegun := hBlock process hProcess
    have hMarked : ∀ statement, (walk.goto (.alwaysBlock clocked { block with
        statement
        process := some (block.statement.targets.foldl
          (fun process index => process.mark index .target) process) })).All P Q :=
      fun statement => h.goto (by rintro _ ⟨⟩; exact mark_foldl hBegun _)
    split
    · refine (hMarked _).collect (recordClocked_foldl h.found hPQ.toRooted ?_ _)
      intro word hMem
      obtain ⟨index, -, hWord⟩ := List.mem_filterMap.1 hMem
      exact hBegun.bodyWord? hWord
    · exact hMarked _

/-- A block that ends hands its words on to the processes and its targets to the clocked signals. -/
theorem readBlockKeyword (h : walk.All P Q) (hPQ : Located P Q) (hHere : P here.word)
    (hBlock : block.All P) : (walk.readBlockKeyword clocked block word here next).All P Q := by
  have hStay : ∀ {other : Block}, other.process = block.process →
      (walk.goto (.alwaysBlock clocked other)).All P Q := fun hSame => h.goto (hBlock.of_eq hSame)
  have hLabel : ∀ {other : Block} {recorded}, other.process = block.process →
      ((walk.goto (.alwaysBlock clocked other)).expectLabel recorded next).All P Q :=
    fun hSame => (hStay hSame).expectLabel _
  have hClose : (let block := { block with nest := block.nest - 1, statement := {} }
      if block.nest = 0 then walk.endStatement clocked block here next
      else (walk.goto (.alwaysBlock clocked block)).expectLabel false next).All P Q := by
    dsimp only
    split
    · exact h.endStatement hPQ hHere (hBlock.of_eq rfl)
    · exact hLabel rfl
  unfold Walk.readBlockKeyword
  dsimp only
  split
  case h_9 =>
    split
    · exact hStay rfl
    split
    · exact hClose
    · exact h.goto (hBlock.readBodyWord hHere)
  all_goals first
    | exact hStay rfl
    | exact hLabel rfl

theorem readBlock (h : walk.All P Q) (hPQ : Located P Q) (hHere : P here.word)
    (hBlock : block.All P) : (walk.readBlock clocked block here next).All P Q := by
  have hStay : ∀ {other : Block}, other.process = block.process →
      (walk.goto (.alwaysBlock clocked other)).All P Q := fun hSame => h.goto (hBlock.of_eq hSame)
  rw [Walk.readBlock]
  dsimp only
  split
  · exact h.goto hBlock.readOpener
  split
  · exact h.goto hBlock.readCloser
  split
  · exact h.goto (hBlock.readBodyWord hHere)
  split
  · split
    · exact h.endStatement hPQ hHere (hBlock.of_eq rfl)
    · exact hStay rfl
  · exact h.readBlockKeyword hPQ hHere hBlock
  · exact hStay rfl
  · split <;> exact hStay rfl
  · exact h.readAssignment hPQ hBlock
  · exact h.readAssignment hPQ hBlock
  · exact hStay rfl
  · exact hStay rfl
  · exact h.goto (hBlock.readBodyWord hHere)

theorem readAlwaysHeader (h : walk.All P Q) (hPQ : Located P Q) (hHere : P here.word)
    (hProcess : process.All P) : (walk.readAlwaysHeader process here next).All P Q := by
  rw [Walk.readAlwaysHeader]
  split
  · exact h.goto hProcess
  · exact h.readBlock hPQ hHere (by rintro _ ⟨⟩; exact hProcess)

theorem readChoice (h : walk.All P Q) : (walk.readChoice depth expr here).All P Q := by
  rw [Walk.readChoice]
  dsimp only
  split
  · exact ⟨trivial, h.found⟩
  split
  · exact h.goto trivial
  split
  · exact h.goto trivial
  · exact h.goto trivial

theorem closeBlock (h : walk.All P Q) : walk.closeBlock.All P Q := by
  have hClosed : All P Q { walk with blocks := walk.blocks - 1 } := h.of_eq rfl rfl
  exact (hClosed.leaveFrames _).endItem

theorem closeCase (h : walk.All P Q) : walk.closeCase.All P Q := by
  rw [Walk.closeCase]
  split
  · exact h.endItem
  · exact endItem (h.of_eq rfl rfl)

theorem beginDeclaration (h : walk.All P Q) (hPQ : Located P Q) (hHere : P here.word)
    {kind : ItemKind} : (walk.beginDeclaration kind here).All P Q :=
  h.readDeclaration hPQ hHere ⟨by simp, by simp⟩

theorem readElse (h : walk.All P Q) : (walk.readElse next).All P Q := by
  have hTaken : All P Q { walk with pendingElse := none } := h.of_eq rfl rfl
  rw [Walk.readElse]
  dsimp only
  split
  · exact h.of_eq rfl rfl
  · exact hTaken.enterFrame _ _

theorem readItemKeyword (h : walk.All P Q) (hPQ : Located P Q) (hHere : P here.word) :
    (walk.readItemKeyword word here next).All P Q := by
  have hOpened : All P Q { walk with blocks := walk.blocks + 1 } := h.of_eq rfl rfl
  unfold Walk.readItemKeyword
  split
  all_goals try exact h.beginDeclaration hPQ hHere
  all_goals try exact h.beginAlways hPQ hHere
  all_goals try exact h.goto trivial
  all_goals try exact h.of_eq rfl rfl
  · exact hOpened.expectLabel _
  · exact h.closeBlock.expectLabel _
  · exact h.closeCase
  · exact ⟨trivial, h.found⟩
  · exact h.readElse
  · split
    · exact h.beginDeclaration hPQ hHere
    · exact h.goto trivial

theorem readItem (h : walk.All P Q) (hPQ : Located P Q) (hHere : P here.word) :
    (walk.readItem here next).All P Q := by
  rw [Walk.readItem]
  split
  · exact h.readChoice
  split
  · exact h.endItem
  · exact h.readItemKeyword hPQ hHere
  · exact h.goto ⟨hPQ.single hHere, by simp⟩
  · exact h.goto trivial

theorem enterGenerate (h : walk.All P Q) {header : String} :
    (walk.enterGenerate kind header next).All P Q := by
  have hChained : All P Q { walk with chained := none } := h.of_eq rfl rfl
  unfold Walk.enterGenerate
  split
  · exact hChained.enterFrame _ _
  · exact h.enterFrame _ _
  · exact h.of_eq rfl rfl

theorem readGenerate (h : walk.All P Q) :
    (walk.readGenerate kind depth expr here next).All P Q := by
  rw [Walk.readGenerate]
  dsimp only
  split
  · exact h.goto trivial
  split
  · exact h.goto trivial
  split
  · exact h.enterGenerate.goto trivial
  split
  · exact h.goto trivial
  split
  · exact h.goto trivial
  · exact h

theorem commitInstance (h : walk.All P Q) {type : Word} (hType : Q type) (hName : P name) :
    (walk.commitInstance type name).All P Q := by
  refine ⟨h.place, { h.found with instances := ?_ }⟩
  intro entry hMem
  rcases Array.mem_push.1 hMem with hMem | rfl
  · exact h.found.instances entry hMem
  · exact ⟨hName, hType⟩

/-- A name behind a qualifier makes one type with it. -/
theorem readInstanceName (h : walk.All P Q) (hPQ : Located P Q) (hHere : P here.word)
    (hStatement : statement.All P Q) : (walk.readInstanceName statement here).All P Q := by
  rw [Walk.readInstanceName]
  dsimp only
  split
  · exact h.goto ⟨hPQ.through _ hStatement.type (hPQ.single hHere), hStatement.name⟩
  split
  · exact h.goto ⟨hStatement.type, by rintro _ ⟨⟩; exact hHere⟩
  · exact h

/-- An instance is recorded from words of its statement, and a declaration likewise. -/
theorem readInstance (h : walk.All P Q) (hPQ : Located P Q) (hHere : P here.word)
    (hStatement : statement.All P Q) : (walk.readInstance statement depth here).All P Q := by
  have hStay : ∀ {other : Instantiation} depth, other.type = statement.type →
      other.name = statement.name → (walk.goto (.instanceHeader other depth)).All P Q :=
    fun _ hType hName => h.goto ⟨hType ▸ hStatement.type, hName ▸ hStatement.name⟩
  have hDeclaration : ∀ name, statement.name = some name → (walk.readDeclaration
      { kind := .bodyNet, type := some statement.type, name := some name } here).All P Q := by
    intro name hName
    refine h.readDeclaration hPQ hHere ⟨?_, ?_⟩
    · rintro _ ⟨⟩
      exact hStatement.name name hName
    · rintro _ ⟨⟩
      exact hStatement.type
  rw [Walk.readInstance]
  dsimp only
  split
  · split
    · exact hStay _ rfl rfl
    · exact hStay _ rfl rfl
    · exact h
  split
  · exact hStay _ rfl rfl
  · next name _ hName =>
    refine (h.commitInstance hStatement.type (hStatement.name name hName)).goto ?_
    exact ⟨hStatement.type, by simp⟩
  · split
    · exact hStay _ rfl rfl
    · exact h.goto trivial
  · exact hStay _ rfl rfl
  · next name _ hName => exact hDeclaration name hName
  · next name _ hName => exact hDeclaration name hName
  · next name _ hName => exact hDeclaration name hName
  · next name _ hName => exact hDeclaration name hName
  · exact h.backToBody
  · exact h.readInstanceName hPQ hHere hStatement
  · exact h.goto trivial

theorem readMap (h : walk.All P Q) (hStatement : statement.All P Q) :
    (walk.readMap statement depth here).All P Q := by
  unfold Walk.readMap
  split
  · exact h.goto hStatement
  split
  · exact h.goto hStatement
  split
  · exact h.goto hStatement
  · exact h.backToBody
  · exact h

/-- Reading a word keeps both properties. The place decides which words are at hand. -/
theorem read (h : walk.All P Q) (hPQ : Located P Q) (hHere : P here.word) :
    (walk.read here next).All P Q := by
  have hPlace := h.place
  rw [Walk.read]
  generalize walk.place = place at hPlace
  cases place with
  | moduleContext => exact h.readContext
  | moduleName => exact h.readModuleName hHere
  | moduleHeader announced => exact h.readModuleHeader
  | parameterList owner inside item => exact h.readParameters hPQ hHere hPlace
  | portList owner item => exact h.readPorts hPQ hHere hPlace
  | moduleBody => exact h.readItem hPQ hHere
  | declaration item => exact h.readDeclaration hPQ hHere hPlace
  | importClause home => exact h.readImport hHere
  | instanceHeader statement depth => exact h.readInstance hPQ hHere hPlace
  | instanceMap statement depth => exact h.readMap hPlace
  | generateHeader kind depth expr => exact h.readGenerate
  | generateChoice depth expr => exact h.readChoice
  | alwaysHeader process => exact h.readAlwaysHeader hPQ hHere hPlace
  | sensitivityList process depth => exact h.readSensitivity hHere hPlace
  | alwaysBlock clocked block => exact h.readBlock hPQ hHere hPlace
  | skipStatement depth => exact h.readSkipped
  | skipBlock closer home => exact h.readSkippedBlock

/-- A label is one word, or none. -/
theorem readLabel? (h : walk.All P Q) (hHere : P here.word) :
    ∀ labelled ∈ walk.readLabel? here, labelled.All P Q := by
  have hIdle : All P Q { walk with label := .idle } := h.of_eq rfl rfl
  rw [Walk.readLabel?]
  split
  · simp
  · split
    · rintro _ ⟨⟩
      exact h.of_eq rfl rfl
    · simp
  · split
    · rintro _ ⟨⟩
      split
      · exact hIdle.collect { h.found with labels := h.found.labels.push hHere }
      · exact hIdle
    · simp

theorem readWord (h : walk.All P Q) (hPQ : Located P Q) (hHere : P here.word) :
    (walk.readWord here next).All P Q := by
  rw [Walk.readWord]
  split
  · next labelled hLabel => exact h.readLabel? hHere labelled hLabel
  · exact read (h.of_eq rfl rfl) hPQ hHere

theorem flushAt (h : walk.All P Q) (hPQ : Located P Q) (offset : Nat) :
    (walk.flushAt offset).All P Q := by
  have hPlace := h.place
  rw [Walk.flushAt]
  generalize walk.place = place at hPlace
  cases place with
  | parameterList owner inside item => exact (h.flush hPQ hPlace).closeParameters
  | portList owner item => exact (h.flush hPQ hPlace).gotoOwner
  | declaration item => exact (h.flush hPQ hPlace).goto trivial
  | _ => exact h

/-- Blanks and string contents are no words. -/
theorem absorb (h : walk.All P Q) (token : Token) :
    All P Q { walk with place := walk.place.absorb token } := by
  have hPlace := h.place
  refine ⟨?_, h.found⟩
  dsimp only
  generalize walk.place = place at hPlace
  cases place with
  | parameterList owner inside item => exact Item.All.of_eq hPlace rfl rfl
  | portList owner item => exact Item.All.of_eq hPlace rfl rfl
  | declaration item => exact Item.All.of_eq hPlace rfl rfl
  | _ => exact hPlace

/-- What is known of the words of an event comes to be known of all words of the walk. -/
theorem step (h : walk.All P Q) (hPQ : Located P Q) {event : Event} (hEvent : event.All P) :
    (walk.step event).All P Q := by
  cases event with
  | comment span => exact h
  | directive span => exact h
  | filler token => exact h.absorb token
  | word here next => exact h.readWord hPQ hEvent
  | ended offset => exact h.flushAt hPQ offset

/-- A walk records what it reads, however many words it reads. -/
theorem run (h : walk.All P Q) (hPQ : Located P Q) {events : List Event}
    (hEvents : ∀ event ∈ events, event.All P) : (walk.run events).All P Q := by
  induction events generalizing walk with
  | nil => exact h
  | cons event events ih =>
      rw [List.forall_mem_cons] at hEvents
      exact ih (h.step hPQ hEvents.1) hEvents.2

theorem start (region : Region) : (Walk.start region).All P Q := by
  cases region
  all_goals first
    | exact ⟨trivial, Findings.All.empty⟩
    | exact ⟨⟨by simp, by simp⟩, Findings.All.empty⟩

/-- The declarations and the always block that the end of the text ends keep both properties. -/
theorem finish (h : walk.All P Q) (hPQ : Located P Q) {size : Nat} (hSize : P (.absent size)) :
    (walk.finish size).All P Q := by
  have hEnd := h.flushAt hPQ size
  unfold Walk.finish
  dsimp only
  split
  · next process hProcess => exact hEnd.commitProcess (hEnd.place.process? process hProcess) hSize
  · exact hEnd

end Walk.All

end Statements

section Tables

open String (utf8Len)

variable {P Q : Word → Prop} {found : Findings}

/-- The words of the categories that are recorded as they stand in the text, under the tags that ask
for them. -/
def Findings.fields (found : Findings) : List (String × List Word) :=
  [("module_name", found.modules.entries.toList),
   ("clocked_signals", found.clocked.entries.toList.map (·.signal)),
   ("instance_names", found.instances.toList.map (·.name)),
   ("label_names", found.labels.entries.toList),
   ("package_names", found.packages.entries.toList)]

/-- The names of a table that are read as words: those of its categories, of its declaration lists
and of its always blocks. -/
def Findings.names (found : Findings) : List Word :=
  found.fields.flatMap (·.2) ++ found.lists.flatMap (·.2.names) ++
    found.processes.toList.flatMap (·.words)

/-- The types of a table, which can be made of several words. -/
def Findings.types (found : Findings) : List Word :=
  found.instances.toList.map (·.module) ++ found.lists.flatMap (·.2.types)

namespace Findings.All

theorem lists (h : found.All P Q) : ∀ list ∈ found.lists, list.2.AllComplete P Q := by
  simp only [Findings.lists, List.forall_mem_cons]
  exact ⟨h.ports, h.parameters, h.objects, by simp⟩

theorem fields (h : found.All P Q) : ∀ field ∈ found.fields, ∀ word ∈ field.2, P word := by
  simp only [Findings.fields, List.forall_mem_cons, List.forall_mem_map, Array.mem_toList_iff]
  exact ⟨h.modules, h.clocked, fun entry hMem => (h.instances entry hMem).1, h.labels, h.packages,
    by simp⟩

theorem names (h : found.All P Q) : ∀ word ∈ found.names, P word := by
  simp only [Findings.names, List.forall_mem_append, List.forall_mem_flatMap, Array.mem_toList_iff]
  exact ⟨⟨h.fields, fun list hMem => (h.lists list hMem).toAll.names⟩,
    fun process hMem => (h.processes process hMem).words⟩

/-- The types found are among the words of the rows. -/
theorem types (h : found.All P Q) : ∀ word ∈ found.types, Q word := by
  simp only [Findings.types, List.forall_mem_append, List.forall_mem_flatMap, List.forall_mem_map,
    Array.mem_toList_iff]
  exact ⟨fun entry hMem => (h.instances entry hMem).2,
    fun list hMem => (h.lists list hMem).toAll.types⟩

/-- As no name waits for its attributes, completing the lists changes nothing. -/
theorem align_eq_self (h : found.All P Q) : found.align = found := by
  simp only [Findings.align, Declarations.align_eq_self h.ports.settled,
    Declarations.align_eq_self h.parameters.settled, Declarations.align_eq_self h.objects.settled]

/-- Nor has any list to be remarked. -/
theorem ragged_eq_nil (h : found.All P Q) : found.ragged = [] := by
  simp only [Findings.ragged, List.map_eq_nil_iff, List.filter_eq_nil_iff]
  intro list hMem
  simp [Declarations.isAligned, (h.lists list hMem).settled]

end Findings.All

/-- The name of an included file stands behind the first quote of its directive. -/
theorem includedFile?_parts {text : String} {span : Span} {file : Word}
    (h : includedFile? text span = some file) :
    ∃ lead behind, (span.slice text).toList = (lead ++ ['"']) ++ file.text.toList ++ behind ∧
      file.span.start = span.start + utf8Len (lead ++ ['"']) ∧
      file.span.stop = file.span.start + file.text.utf8ByteSize := by
  rw [includedFile?] at h
  dsimp only at h
  split at h
  swap
  · cases h
  generalize span.slice text = slice at h
  have hDrop : slice.toList.drop (slice.toList.takeWhile (· != '"')).length =
      slice.toList.dropWhile (· != '"') := by
    calc slice.toList.drop (slice.toList.takeWhile (· != '"')).length
        = (slice.toList.takeWhile (· != '"') ++ slice.toList.dropWhile (· != '"')).drop
            (slice.toList.takeWhile (· != '"')).length := by rw [List.takeWhile_append_dropWhile]
      _ = slice.toList.dropWhile (· != '"') := List.drop_left
  rw [hDrop] at h
  split at h
  · cases h
  next quote rest hRest =>
  split at h
  swap
  · cases h
  obtain rfl := Option.some.inj h
  have hQuote : quote = '"' := by
    have hHead := List.head?_dropWhile_not (· != '"') slice.toList
    simpa [hRest] using hHead
  subst hQuote
  refine ⟨slice.toList.takeWhile (· != '"'), rest.dropWhile (· != '"'), ?_, ?_, rfl⟩
  · conv_lhs => rw [← slice.toList.takeWhile_append_dropWhile (p := (· != '"')), hRest]
    simp
  · have hSize : '"'.utf8Size = 1 := rfl
    simp [String.utf8ByteSize_ofList, Nat.add_assoc, hSize]

/-- The name of an included file is a part of its directive. -/
theorem includedFile?_standsIn {text : String} {span : Span} {file : Word}
    (hSpan : span.Within text) (h : includedFile? text span = some file) : file.StandsIn text := by
  obtain ⟨lead, behind, hSlice, hStart, hStop⟩ := includedFile?_parts h
  have hPart := hSpan.covers_slice.part _ _ _ hSlice
  have hFile : file.span =
      ⟨file.span.start, file.span.start + utf8Len file.text.toList⟩ := by
    rw [← String.utf8ByteSize_ofList, String.ofList_toList, ← hStop]
  rw [← hStart, ← hFile, String.ofList_toList] at hPart
  exact hPart

/-- The reading of a text hands on words that stand in the text. -/
theorem events_standIn (limit : Option Nat) (text : String) :
    ∀ event ∈ readEvents text.utf8ByteSize (tokens limit text).list,
      event.All (·.StandsIn text) := by
  have hP := standsIn_inherited text
  refine readEvents_all (fun token hMem => ?_) (tokenize_contiguous delimiters limit true _)
    (tokenize_scanned_le delimiters limit true text) (absent_size_standsIn text)
  rcases tokenize_standsIn delimiters limit true text token hMem with hToken | ⟨-, rfl⟩
  · exact ⟨hP.before hToken, hP.behind hToken, fun _ => hToken⟩
  · have hScanned := tokenize_scanned delimiters limit true text
    exact ⟨hScanned, hScanned, by simp⟩

/-- Whatever region a walk starts in, the names that it records stand in the text, and the types are
within it. -/
theorem walkThrough_located (region : Region) (limit : Option Nat) (text : String) :
    (walkThrough region (readEvents text.utf8ByteSize (tokens limit text).list)
      text.utf8ByteSize).found.All (·.StandsIn text) (fun type => type.span.Within text) := by
  have hPQ := standsIn_located text
  have hEnd := absent_size_standsIn text
  exact (((Walk.All.start region).run hPQ (events_standIn limit text)).finish hPQ hEnd).found

/-- Every name recorded of a text stands in it, and every type lies within it. -/
theorem scan_located (region : Region) (limit : Option Nat) (text : String) :
    (scan region limit text).table.All (·.StandsIn text) (fun type => type.span.Within text) := by
  have hWalk := walkThrough_located region limit text
  have hAligned := hWalk.align_eq_self
  show Findings.All _ _ (Findings.align _)
  rwa [hAligned]

end Tables

end HdlIndex.Verilog

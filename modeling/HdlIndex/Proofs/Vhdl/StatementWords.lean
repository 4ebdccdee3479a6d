import HdlIndex.Proofs.Text.Folding
import HdlIndex.Proofs.Vhdl.WalkWords
import HdlIndex.Vhdl.Scan

/-! The words of statements and of processes, and the walk as a whole. A statement keeps its first
word for a label and the word that may name a component; a process keeps its words until it is
closed. The tokens of a scan stand in the folded text, so every word of the table does. -/
namespace HdlIndex.Vhdl

namespace Walk.All

open String (utf8Len)

variable {P : Word → Prop} {walk : Walk} {here : Lexeme} {before next : Option Lexeme}
  {process : HdlProcess} {statement : Statement}

theorem withGenerates (h : walk.All P) (generates : List Generate) :
    All P { walk with generates } :=
  ⟨h.place, h.process, h.label, h.found⟩

theorem withoutLabel (h : walk.All P) : All P { walk with label := none } :=
  ⟨h.place, h.process, by simp, h.found⟩

theorem modifyGenerate (h : walk.All P) (change : Generate → Generate) :
    (walk.modifyGenerate change).All P := by
  rw [Walk.modifyGenerate]
  split
  · exact h
  · exact h.withGenerates _

/-- An instance is recorded from its component and from the label that waits. -/
theorem commitInstance (h : walk.All P) {unit : Word} (hUnit : P unit) (library : String) :
    (walk.commitInstance unit library).All P := by
  rw [Walk.commitInstance]
  split
  · exact h
  · next label hLabel =>
    refine ⟨h.place, h.process, by simp, { h.found with instances := ?_ }⟩
    intro entry hMem
    rcases Array.mem_push.1 hMem with hMem | rfl
    · exact h.found.instances entry hMem
    · exact ⟨h.label label (by simp [hLabel]), hUnit⟩

/-- Closing a process records it with its own words, and the stems of its targets. -/
theorem commitProcess (h : walk.All P) (hP : Rooted P) (hProcess : process.All P) {offset : Nat}
    (hOffset : P (.absent offset)) : (walk.commitProcess process offset).All P := by
  have hClosed := hProcess.close hOffset
  refine ⟨h.place, h.process, h.label, { h.found with clocked := ?_, processes := ?_ }⟩
  · dsimp only [Walk.commitProcess]
    split
    · exact h.found.clocked.record_foldl hP hClosed.signalTargets _
    · exact h.found.clocked
  · intro other hMem
    rcases Array.mem_push.1 hMem with hMem | rfl
    · exact h.found.processes other hMem
    · exact hClosed

theorem takeLabel (h : walk.All P) {word : Option Word} (hWord : ∀ label ∈ word, P label) :
    (walk.takeLabel word).All P := by
  unfold Walk.takeLabel
  split
  · exact h
  · next label =>
    have hLabel := hWord label rfl
    exact ⟨h.place, h.process, by simpa using hLabel,
      { h.found with labels := h.found.labels.push hLabel }⟩

/-- A process starts at the label that waits for it, or at its keyword. -/
theorem beginProcess (h : walk.All P) (hP : Rooted P) (hHere : P here.word) :
    (walk.beginProcess here).All P := by
  refine ⟨by simp [Walk.beginProcess, Place.words], ?_, by simp [Walk.beginProcess], h.found⟩
  rintro process ⟨⟩
  refine HdlProcess.All.starting _ ?_
  cases hLabel : walk.label with
  | none => exact hP.before hHere
  | some label => exact hP.before (h.label label (by simp [hLabel]))

theorem beginGenerate (h : walk.All P) (kind : GenerateKind) : (walk.beginGenerate kind).All P :=
  h.gotoOutside rfl rfl

theorem readEnd (h : walk.All P) : (walk.readEnd next).All P := by
  rw [Walk.readEnd]
  split
  · exact (h.withGenerates _).gotoOutside rfl rfl
  split
  · exact h.gotoOutside rfl rfl
  split
  · exact (h.modifyGenerate _).gotoOutside rfl rfl
  · exact (h.withGenerates _).gotoOutside rfl rfl

theorem readOther (h : walk.All P) (hHere : P here.word)
    (hFirst : ∀ word ∈ statement.first, P word) : (walk.readOther statement here next).All P := by
  have hUnit : ∀ word ∈ if statement.count = 0 && walk.isUnitName here next then some here.word
      else none, P word := by
    split <;> simp [hHere]
  have hBegun : ∀ word ∈ if statement.count = 0 && here.symbol.isWord then some here.word
      else statement.first, P word := by
    split
    · simp [hHere]
    · exact hFirst
  refine h.goto (fun word hMem => ?_) (by simp [Place.process?])
  rcases List.mem_append.1 hMem with hMem | hMem
  · exact hBegun word (Option.mem_toList.1 hMem)
  · exact hUnit word (Option.mem_toList.1 hMem)

theorem readFirst (h : walk.All P) (hP : Rooted P) (hHere : P here.word) :
    (walk.readFirst here next).All P := by
  rw [Walk.readFirst]
  split
  all_goals try exact h.gotoOutside rfl rfl
  all_goals try exact h.readItem (by simp [Home.process?])
  all_goals try exact (h.modifyGenerate _).nextStatement
  all_goals try exact h.withoutLabel.beginGenerate _
  · exact h.beginProcess hP hHere
  · exact (h.modifyGenerate _).withoutLabel.nextStatement
  · split
    · exact (h.modifyGenerate _).gotoOutside rfl rfl
    · exact h.readOther hHere (by simp)
  · exact h.readEnd
  · exact h.readOther hHere (by simp)

theorem readLater (h : walk.All P) (hP : Rooted P) (hHere : P here.word)
    (hFirst : ∀ word ∈ statement.first, P word) : (walk.readLater statement here next).All P := by
  have hOther : (walk.readOther statement here next).All P := h.readOther hHere hFirst
  rw [Walk.readLater]
  split
  · split
    · exact (h.takeLabel hFirst).nextStatement
    · exact hOther
  · split
    · exact h.beginProcess hP hHere
    · exact hOther
  · exact hOther

/-- What a statement records are words of its own. -/
theorem readStatement (h : walk.All P) (hP : Rooted P) (hHere : P here.word)
    (hFirst : ∀ word ∈ statement.first, P word) (hUnit : ∀ word ∈ statement.unit, P word) :
    (walk.readStatement statement here next).All P := by
  rw [Walk.readStatement]
  split
  · next unit _ hSome => exact (h.commitInstance (hUnit unit hSome) "").gotoOutside rfl rfl
  · next unit _ hSome => exact (h.commitInstance (hUnit unit hSome) "").gotoOutside rfl rfl
  · next unit _ hSome => exact (h.commitInstance (hUnit unit hSome) "").nextStatement
  · exact h.withoutLabel.nextStatement
  · exact h.withoutLabel.gotoOutside rfl rfl
  · split
    · exact h.readFirst hP hHere
    · exact h.readLater hP hHere hFirst

/-- The unit's name ends the selected name, and the library is in front of it. -/
theorem selectedUnit (hP : Inherited P) {selected : Word} (h : P selected) :
    P (Vhdl.selectedUnit selected) := by
  have hText : selected.text.toList =
      (selected.text.toList.reverse.dropWhile (· != '.')).reverse ++
        (selected.text.toList.reverse.takeWhile (· != '.')).reverse ++ [] := by
    rw [List.append_nil, ← List.reverse_append, List.takeWhile_append_dropWhile,
      List.reverse_reverse]
  have hPart := hP.part _ _ _ h hText
  have hStop : selected.span.stop = selected.span.start +
      utf8Len (selected.text.toList.reverse.dropWhile (· != '.')).reverse +
        utf8Len (selected.text.toList.reverse.takeWhile (· != '.')).reverse := by
    rw [hP.stop_eq h, ← String.ofList_toList (s := selected.text),
      String.utf8ByteSize_ofList, hText]
    simp [Nat.add_assoc]
  have hStart : selected.span.stop -
      (String.ofList (selected.text.toList.reverse.takeWhile (· != '.')).reverse).utf8ByteSize =
      selected.span.start + utf8Len
        (selected.text.toList.reverse.dropWhile (· != '.')).reverse := by
    rw [String.utf8ByteSize_ofList]
    exact Nat.sub_eq_of_eq_add hStop
  rw [← hStop] at hPart
  rw [Vhdl.selectedUnit, hStart]
  exact hPart

theorem readInstance (h : walk.All P) (hUnit : P (Vhdl.selectedUnit here.word)) :
    (walk.readInstance here).All P := by
  rw [Walk.readInstance]
  split
  · exact (h.commitInstance hUnit _).gotoOutside rfl rfl
  · exact h

theorem readMap (h : walk.All P) {depth : Nat} : (walk.readMap depth here).All P := by
  rw [Walk.readMap]
  split
  · exact h.gotoOutside rfl rfl
  · exact h.gotoOutside rfl rfl
  · split
    · exact h.nextStatement
    · exact h
  · exact h

theorem enterGenerate (h : walk.All P) (kind : GenerateKind) (condition : String) :
    (walk.enterGenerate kind condition).All P := by
  unfold Walk.enterGenerate
  split
  · exact h.withGenerates _
  · split <;> exact h.withGenerates _
  · exact h.withGenerates _
  · exact h.withGenerates _

theorem readGenerate {kind : GenerateKind} {depth : Nat} {expr : Capture} (h : walk.All P) :
    (walk.readGenerate kind depth expr here).All P := by
  rw [Walk.readGenerate]
  dsimp only
  split
  · exact h.gotoOutside rfl rfl
  · exact h.gotoOutside rfl rfl
  · split
    · exact ((h.enterGenerate _ _).note _).nextStatement
    · exact h.gotoOutside rfl rfl
  · exact h.gotoOutside rfl rfl

theorem readChoice {expr : Capture} (h : walk.All P) : (walk.readChoice expr here).All P := by
  rw [Walk.readChoice]
  split
  · exact (h.modifyGenerate _).nextStatement
  · exact h.gotoOutside rfl rfl

/-- Going to a place of an open process changes only the process. -/
theorem gotoProcess {place : Place} (h : walk.All P) (hPlace : place.words = [])
    (hSame : place.process? = some process) (hProcess : process.All P) : (walk.goto place).All P :=
  h.gotoWithin hPlace hSame (by rintro _ ⟨⟩; exact hProcess)

theorem readSensitivity {depth : Option Nat} (h : walk.All P) (hHere : P here.word)
    (hProcess : process.All P) : (walk.readSensitivity process depth here).All P := by
  unfold Walk.readSensitivity
  split
  all_goals try exact h.gotoProcess rfl rfl hProcess
  · exact h.readItem (by rintro _ ⟨⟩; exact hProcess)
  · exact h
  · exact h.gotoProcess rfl rfl ⟨hProcess.span, hProcess.sensitivity, hProcess.body⟩
  · exact h.gotoProcess rfl rfl (hProcess.pushSensitivity hHere)
  · exact h.gotoProcess rfl rfl (hProcess.pushSensitivity hHere)
  · exact h

theorem readProcessDeclarations (h : walk.All P) (hProcess : process.All P) :
    (walk.readProcessDeclarations process here).All P := by
  rw [Walk.readProcessDeclarations]
  split
  · exact h.gotoProcess rfl rfl hProcess
  · exact h.readItem (by rintro _ ⟨⟩; exact hProcess)

/-- A word of the body goes into the process as it is. -/
theorem readBodyWord {depth : Nat} {statement : Sequential} {ticked : Bool} (h : walk.All P)
    (hHere : P here.word) (hProcess : process.All P) :
    (walk.readBodyWord process depth statement here ticked).All P := by
  have hDetected : (if detectsEdge here ticked then { process with clocked := true }
      else process).All P := by
    split
    · exact ⟨hProcess.span, hProcess.sensitivity, hProcess.body⟩
    · exact hProcess
  rw [Walk.readBodyWord]
  dsimp only
  split
  · exact h.gotoProcess rfl rfl (hDetected.pushBody hHere _)
  · exact h.gotoProcess rfl rfl hDetected

theorem markTarget {statement : Sequential} (h : walk.All P) (hProcess : process.All P)
    (role : Role) : (walk.markTarget process statement role).All P := by
  rw [Walk.markTarget]
  split
  · exact h.gotoProcess rfl rfl (hProcess.mark _ _)
  · exact h

/-- The span of a process that ends is made of its start and of the stop of the word behind `end`,
which was seen ahead. -/
theorem readBody {depth : Nat} {statement : Sequential} (h : walk.All P) (hP : Rooted P)
    (hHere : P here.word) (hNext : ∀ lexeme ∈ next, P (.absent lexeme.span.stop))
    (hProcess : process.All P) :
    (walk.readBody process depth statement here before next).All P := by
  have hStay : (walk.readBodyWord process depth statement here
      (before.any (·.symbol = .tick))).All P := h.readBodyWord hHere hProcess
  unfold Walk.readBody
  dsimp only
  split
  all_goals try exact h.gotoProcess rfl rfl hProcess
  · split
    · exact h.gotoProcess rfl rfl hProcess
    · exact hStay
  · split
    · exact h.markTarget hProcess _
    · exact hStay
  · split
    · exact h.markTarget hProcess _
    · exact hStay
  · split
    · next token =>
      have hEnd : P (.absent token.span.stop) := hNext ⟨token, .keyword .process⟩ rfl
      exact (h.commitProcess hP hProcess hEnd).gotoOutside rfl rfl
    · exact hStay
  · exact hStay

/-- Reading a word keeps the property. The place decides which words are at hand, and what the word
is taken for. -/
theorem read (h : walk.All P) (hP : Rooted P) (hTaken : ∀ word ∈ walk.place.taken here.word, P word)
    (hNext : ∀ lexeme ∈ next, P (.absent lexeme.span.stop)) :
    (walk.read here before next).All P := by
  have hWords := h.place
  have hProcess := h.process
  have hWhole (hSame : walk.place.taken here.word = [here.word]) : P here.word :=
    hTaken _ (by simp [hSame])
  rw [Walk.read]
  generalize walk.place = place at hWords hProcess hTaken hWhole
  cases place with
  | entityContext => exact h.readContext
  | libraryClause => exact h.readLibrary (hWhole rfl)
  | useClause home =>
      exact h.readUse (fun package hSome => hTaken package (Option.mem_toList.2 hSome)) hProcess
  | configurationDeclaration => exact h.readConfiguration
  | entityName => exact h.readEntityName (hWhole rfl)
  | entityHeader => exact h.readEntityHeader
  | entityStatements => exact h.readEntityStatements
  | interfaceListOpen kind owner =>
      rw [Place.process?_interfaceListOpen] at hProcess
      exact h.readListOpen hProcess
  | interfaceDeclaration list element =>
      rw [Place.process?_interfaceDeclaration] at hProcess
      exact h.readInterface hP (hWhole rfl)
        (fun word hMem => hWords word (Option.mem_toList.2 hMem))
        hProcess
  | objectDeclaration kind home element =>
      exact h.readObject hP (hWhole rfl)
        (fun word hMem => hWords word (Option.mem_toList.2 hMem)) hProcess
  | typeDeclaration home type =>
      exact h.readType (hWhole rfl)
        (fun word hMem => hWords word (Option.mem_toList.2 hMem)) hProcess
  | architectureName named => exact h.readArchitectureName (hWhole rfl)
  | architectureHeader => exact h.readArchitectureHeader
  | architectureDeclarations => exact h.readArchitectureDeclarations
  | architectureBody statement =>
      refine h.readStatement hP (hWhole rfl) (fun word hMem => hWords word ?_)
        (fun word hMem => hWords word ?_)
      · exact List.mem_append_left _ (Option.mem_toList.2 hMem)
      · exact List.mem_append_right _ (Option.mem_toList.2 hMem)
  | componentName home => exact h.readComponentName (hWhole rfl) hProcess
  | componentHeader home => exact h.readComponentHeader hProcess
  | subprogramName home => exact h.readSubprogramName (hWhole rfl) hProcess
  | subprogramHeader home => exact h.readSubprogramHeader hProcess
  | subprogramBody home nest => exact h.readSubprogramBody hProcess
  | packageName => exact h.readPackageName (hWhole rfl)
  | packageDeclarations => exact h.readPackage (by simp [Home.process?])
  | packageBodyName => exact h.readPackageBodyName
  | packageBody => exact h.readPackage (by simp [Home.process?])
  | processSensitivity process depth => exact h.readSensitivity (hWhole rfl) (hProcess process rfl)
  | processDeclarations process => exact h.readProcessDeclarations (hProcess process rfl)
  | processBody process depth statement =>
      exact h.readBody hP (hWhole rfl) hNext (hProcess process rfl)
  | instanceHeader => exact h.readInstance (hTaken _ (List.mem_singleton.2 rfl))
  | instanceMap depth => exact h.readMap
  | generateHeader kind depth expr => exact h.readGenerate
  | generateChoice expr => exact h.readChoice
  | skipStatement home depth => exact h.readSkipped hProcess

/-- Blanks and string contents are no words. -/
theorem absorb (h : walk.All P) (token : Token) :
    All P { walk with place := walk.place.absorb token } := by
  have hWords : (walk.place.absorb token).words = walk.place.words := by
    cases walk.place <;> rfl
  have hProcess : (walk.place.absorb token).process? = walk.place.process? := by
    cases walk.place with
    | interfaceDeclaration list element =>
        rw [Place.absorb, Place.process?_interfaceDeclaration, Place.process?_interfaceDeclaration]
    | _ => rfl
  exact ⟨hWords ▸ h.place, hProcess ▸ h.process, h.label, h.found⟩

/-- An event adds to the findings what the place takes from it. -/
theorem step_taken (h : walk.All P) (hP : Rooted P) {event : Event}
    (hEvent : event.Taken P walk.place) :
    (walk.step event).All P := by
  cases event with
  | comment span => exact h
  | filler token => exact h.absorb token
  | word here before next => exact (h.note _).read hP hEvent.1 hEvent.2

/-- A walk records what it reads, however many words it reads. -/
theorem run_taken (h : walk.All P) (hP : Rooted P) {events : List Event}
    (hEvents : ∀ event ∈ events, ∀ place, event.Taken P place) : (walk.run events).All P := by
  induction events generalizing walk with
  | nil => exact h
  | cons event events ih =>
      rw [List.forall_mem_cons] at hEvents
      exact ih (h.step_taken hP (hEvents.1 _)) hEvents.2

/-- What a word is taken for is a part of it. -/
theorem isPartOf_taken {place : Place} {word part : Word} (h : part ∈ place.taken word) :
    part.IsPartOf word := by
  intro P hP hWord
  unfold Place.taken at h
  split at h
  · exact selectedPackage? hP hWord (Option.mem_toList.1 h)
  · obtain rfl := List.mem_singleton.1 h
    exact selectedUnit hP hWord
  · obtain rfl := List.mem_singleton.1 h
    exact hWord

/-- Words that a place takes from an event are words of that event. -/
theorem taken (hP : Inherited P) {event : Event} (hEvent : event.All P) (place : Place) :
    event.Taken P place := by
  cases event with
  | comment span => exact trivial
  | filler token => exact trivial
  | word here before next =>
      exact ⟨fun word hMem => isPartOf_taken hMem P hP hEvent.1,
        fun lexeme hNext => hP.behind (hEvent.2.2 lexeme hNext)⟩

theorem step (h : walk.All P) (hP : Inherited P) {event : Event} (hEvent : event.All P) :
    (walk.step event).All P :=
  h.step_taken hP.rooted (taken hP hEvent _)

theorem run (h : walk.All P) (hP : Inherited P) {events : List Event}
    (hEvents : ∀ event ∈ events, event.All P) : (walk.run events).All P :=
  h.run_taken hP.rooted fun event hMem => taken hP (hEvents event hMem)

theorem start (region : Region) : (Walk.start region).All P := by
  cases region <;> exact ⟨by simp [Walk.start, Place.ofEntry?, Place.words],
    by simp [Walk.start, Place.ofEntry?, Place.process?], by simp [Walk.start, Place.ofEntry?],
    Findings.All.empty⟩

/-- The declarations that the end of the text ends keep the property. -/
theorem flushed (h : walk.All P) (hP : Rooted P) (size : Nat) : (walk.flushed size).All P := by
  have hWords := h.place
  have hProcess := h.process
  rw [Walk.flushed]
  generalize walk.place = place at hWords hProcess
  cases place with
  | interfaceDeclaration list element =>
      rw [Place.process?_interfaceDeclaration] at hProcess
      exact (h.completeElement hP fun word hMem =>
        hWords word (Option.mem_toList.2 hMem)).closeList hProcess
  | objectDeclaration kind home element =>
      exact h.completeObject hP fun word hMem => hWords word (Option.mem_toList.2 hMem)
  | _ => exact h

/-- So does the process that it ends. -/
theorem finish (h : walk.All P) (hP : Rooted P) {size : Nat} (hSize : P (.absent size)) :
    (walk.finish size).All P := by
  have hEnd := h.flushed hP size
  rw [finish_eq_flushed]
  split
  · next process hSome => exact hEnd.commitProcess hP (hEnd.process process hSome) hSize
  · exact hEnd

end Walk.All

section Tables

variable {P : Word → Prop} {found : Findings}

/-- The words of the categories that are located in the text, under the tags that ask for them. -/
def Findings.fields (found : Findings) : List (String × List Word) :=
  [("entity_name", found.entities.entries.toList),
   ("architecture_name", found.architectures.entries.toList),
   ("entity_name_used_in_architecture", found.architectureEntities.entries.toList),
   ("package_declaration_name", found.packages.entries.toList),
   ("library_names", found.libraries.entries.toList),
   ("package_names", found.usedPackages.entries.toList),
   ("component_names", found.components.entries.toList),
   ("subprogram_names", found.subprograms.entries.toList),
   ("data_type_names", found.types.toList.map (·.name)),
   ("clocked_signals", found.clocked.entries.toList.map (·.signal)),
   ("instance_names", found.instances.toList.map (·.label)),
   ("instance_types", found.instances.toList.map (·.unit)),
   ("label_names", found.labels.entries.toList)]

/-- The names of a table: those of its categories, the names and types of its declaration lists, and
the words of its processes. -/
def Findings.names (found : Findings) : List Word :=
  found.fields.flatMap (·.2) ++ found.lists.flatMap (fun list => list.2.names ++ list.2.types) ++
    found.processes.toList.flatMap (·.words)

namespace Findings.All

theorem lists (h : found.All P) : ∀ list ∈ found.lists, list.2.All P P := by
  simp only [Findings.lists, List.forall_mem_cons]
  exact ⟨h.ports, h.generics, h.objects, h.componentPorts, h.componentGenerics, h.parameters,
    by simp⟩

/-- Every word of the findings is known, whichever field it is in. -/
theorem fields (h : found.All P) : ∀ field ∈ found.fields, ∀ word ∈ field.2, P word := by
  simp only [Findings.fields, List.forall_mem_cons, List.forall_mem_map, Array.mem_toList_iff]
  exact ⟨h.entities, h.architectures, h.architectureEntities, h.packages, h.libraries,
    h.usedPackages, h.components, h.subprograms, h.types, h.clocked,
    fun entry hMem => (h.instances entry hMem).1, fun entry hMem => (h.instances entry hMem).2,
    h.labels, by simp⟩

theorem names (h : found.All P) : ∀ word ∈ found.names, P word := by
  simp only [Findings.names, List.forall_mem_append, List.forall_mem_flatMap, Array.mem_toList_iff]
  exact ⟨⟨h.fields, fun list hMem => ⟨(h.lists list hMem).names, (h.lists list hMem).types⟩⟩,
    fun process hMem => (h.processes process hMem).words⟩

/-- Rows that are padded have absent words for types, which stand nowhere. -/
theorem align (h : found.All P) (hP : Rooted P) : found.align.All P := by
  have hAbsent : ∀ name, P name → P (.absent name.span.stop) := fun _ hName => hP.behind hName
  exact { h with
    ports := h.ports.align hAbsent
    generics := h.generics.align hAbsent
    objects := h.objects.align hAbsent
    componentPorts := h.componentPorts.align hAbsent
    componentGenerics := h.componentGenerics.align hAbsent
    parameters := h.parameters.align hAbsent }

end Findings.All

/-- The reading of a text hands on words that stand in the folded text. -/
theorem events_standIn (limit : Option Nat) (text : String) :
    ∀ event ∈ readEvents text.utf8ByteSize (tokens limit text).list,
      event.All (·.StandsIn (Text.foldCase text)) := by
  have hEnd := absent_size_standsIn (Text.foldCase text)
  have hScanned := tokenize_scanned_le delimiters limit false (Text.foldCase text)
  rw [Text.utf8ByteSize_foldCase] at hEnd hScanned
  refine readEvents_all (standsIn_inherited _) (fun token hMem => ?_)
    (tokenize_contiguous delimiters limit false _) hScanned hEnd
  simpa using tokenize_standsIn delimiters limit false (Text.foldCase text) token hMem

/-- Whatever region a scan starts in, the words that it records stand in the folded text. -/
theorem scan_standsIn (region : Region) (limit : Option Nat) (text : String) :
    (scan region limit text).table.All (·.StandsIn (Text.foldCase text)) := by
  have hP := standsIn_inherited (Text.foldCase text)
  have hEnd := absent_size_standsIn (Text.foldCase text)
  rw [Text.utf8ByteSize_foldCase] at hEnd
  have hWalk := ((Walk.All.start region).run hP (events_standIn limit text)).finish hP.rooted hEnd
  exact hWalk.found.align hP.rooted

end Tables

end HdlIndex.Vhdl

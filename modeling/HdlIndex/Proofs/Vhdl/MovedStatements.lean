import HdlIndex.Proofs.Vhdl.Moved

/-! Statements and whole runs of a walk whose text is part of another one. Closing a process and
naming a unit compute places of their own, so here the words of the walk have to be moved as
wholes. -/
namespace HdlIndex.Vhdl.Walk

open String (utf8Len)

variable {embedding : Embedding} {walk : Walk} {here : Lexeme} {before next : Option Lexeme}
  {process : HdlProcess} {statement : Statement} {depth : Nat}

@[simp]
theorem conditions_within : (walk.within embedding).conditions = walk.conditions := rfl

theorem modifyGenerate_within (change : Generate → Generate) :
    (walk.within embedding).modifyGenerate change =
      (walk.modifyGenerate change).within embedding := by
  have hGenerates : (walk.within embedding).generates = walk.generates := rfl
  rw [modifyGenerate, modifyGenerate, hGenerates]
  cases walk.generates <;> rfl

/-- An instance is recorded behind those found before. -/
theorem commitInstance_within (unit : Word) (library : String) :
    (walk.within embedding).commitInstance (unit.moved embedding.move) library =
      (walk.commitInstance unit library).within embedding := by
  have hLabel : (walk.within embedding).label = walk.label.map (·.moved embedding.move) := rfl
  rw [commitInstance, commitInstance, hLabel]
  cases walk.label with
  | none => rfl
  | some label =>
      simp [within, note, Findings.within, Findings.moved, Findings.followedBy, Note.moved,
        Instance.moved, Word.moved]

/-- The signals that a process drives are recorded in the text around it as in its own. -/
theorem commitProcess_within (hMove : Monotone embedding.move)
    (hProcess : process.All (·.IsRigid embedding.move)) (offset : Nat) :
    (walk.within embedding).commitProcess (process.moved embedding.move) (embedding.move offset) =
      (walk.commitProcess process offset).within embedding := by
  have hTargets : ∀ target ∈ (process.close offset).signalTargets, target.IsRigid embedding.move :=
    fun target hMem => hProcess.signalTargets target hMem
  have hClocked : (walk.within embedding).found.clocked =
      embedding.found.clocked.followedBy (walk.found.clocked.moved embedding.move) := rfl
  have hFlag : ((process.close offset).moved embedding.move).clocked =
      (process.close offset).clocked := rfl
  rw [commitProcess, commitProcess, ← process.close_moved hMove, conditions_within, hClocked,
    HdlProcess.signalTargets_moved, hFlag]
  symm
  rw [collect_within]
  · rfl
  split
  · simp [Findings.within, Findings.moved, Findings.followedBy, note,
      ClockedSignals.record_stems_moved _ hTargets, ClockedSignals.record_stems_followedBy]
  · simp [Findings.within, Findings.moved, Findings.followedBy, note]

theorem takeLabel_within (word : Option Word) :
    (walk.within embedding).takeLabel (word.map (·.moved embedding.move)) =
      (walk.takeLabel word).within embedding := by
  cases word with
  | none => rfl
  | some word => simp [takeLabel, within, Findings.within, Findings.moved, Findings.followedBy]

theorem beginProcess_within :
    (walk.within embedding).beginProcess (here.moved embedding.move) =
      (walk.beginProcess here).within embedding := by
  have hLabel : (walk.within embedding).label = walk.label.map (·.moved embedding.move) := rfl
  rw [beginProcess, beginProcess, hLabel]
  cases walk.label <;>
    simp [within, Place.moved, HdlProcess.starting_moved, Word.moved, Span.moved, Lexeme.span_moved]

theorem beginElse_within :
    (walk.within embedding).beginElse = walk.beginElse.within embedding := by
  rw [beginElse, beginElse, modifyGenerate_within]
  rfl

theorem readEnd_within :
    (walk.within embedding).readEnd (next.map (·.moved embedding.move)) =
      (walk.readEnd next).within embedding := by
  have hGenerates : (walk.within embedding).generates = walk.generates := rfl
  rw [readEnd, readEnd, isNext_moved, isNext_moved, hGenerates, modifyGenerate_within]
  split
  · rfl
  split
  · rfl
  split <;> rfl

theorem isUnitName_within :
    (walk.within embedding).isUnitName (here.moved embedding.move)
        (next.map (·.moved embedding.move)) =
      walk.isUnitName here next := by
  have hLabel : (walk.within embedding).label.isSome = walk.label.isSome := by simp [within]
  rw [isUnitName, isUnitName, hLabel, isNext_moved, isNext_moved, Lexeme.symbol_moved]
  cases next <;> rfl

theorem readOther_within (statement : Statement) :
    (walk.within embedding).readOther (statement.moved embedding.move) (here.moved embedding.move)
        (next.map (·.moved embedding.move)) =
      (walk.readOther statement here next).within embedding := by
  have hCount : (statement.moved embedding.move).count = statement.count := rfl
  rw [readOther, readOther, isUnitName_within, hCount, Lexeme.symbol_moved, Lexeme.word_moved,
    goto_within]
  congr 1
  simp only [Place.moved, Statement.moved]
  congr 2 <;> split <;> rfl

theorem readFirst_within :
    (walk.within embedding).readFirst (here.moved embedding.move)
        (next.map (·.moved embedding.move)) =
      (walk.readFirst here next).within embedding := by
  have hGenerates : (walk.within embedding).generates = walk.generates := rfl
  have hOther : (walk.within embedding).readOther {} (here.moved embedding.move)
      (next.map (·.moved embedding.move)) = (walk.readOther {} here next).within embedding :=
    readOther_within {}
  have hItem : (walk.within embedding).readItem .architectureBody (here.moved embedding.move) =
      (walk.readItem .architectureBody here).within embedding := readItem_within .architectureBody
  rw [readFirst, readFirst, Lexeme.symbol_moved, hGenerates, beginElse_within,
    modifyGenerate_within, modifyGenerate_within, readEnd_within, beginProcess_within,
    hOther, hItem]
  split
  all_goals first
    | rfl
    | (split <;> rfl)

/-- Whether the first word is a label is asked of the text of the second. -/
theorem readLater_within :
    (walk.within embedding).readLater (statement.moved embedding.move) (here.moved embedding.move)
        (next.map (·.moved embedding.move)) =
      (walk.readLater statement here next).within embedding := by
  have hCount : (statement.moved embedding.move).count = statement.count := rfl
  have hFirst : (statement.moved embedding.move).first =
      statement.first.map (·.moved embedding.move) := rfl
  have hPostponed : (statement.first.map (·.moved embedding.move)).any (·.text = "postponed") =
      statement.first.any (·.text = "postponed") := by
    cases statement.first <;> rfl
  rw [readLater, readLater, Lexeme.symbol_moved, hCount, hFirst, hPostponed, takeLabel_within,
    readOther_within, beginProcess_within]
  split
  · split <;> rfl
  · split <;> rfl
  · rfl

/-- A statement is read in the part as it is behind other text. -/
theorem readStatement_within :
    (walk.within embedding).readStatement (statement.moved embedding.move)
        (here.moved embedding.move) (next.map (·.moved embedding.move)) =
      (walk.readStatement statement here next).within embedding := by
  have hCount : (statement.moved embedding.move).count = statement.count := rfl
  have hUnit : (statement.moved embedding.move).unit =
      statement.unit.map (·.moved embedding.move) := rfl
  rw [readStatement, readStatement, Lexeme.symbol_moved, hCount, hUnit, readFirst_within,
    readLater_within]
  have hBegun : (if statement.count = 0 then (walk.readFirst here next).within embedding
        else (walk.readLater statement here next).within embedding) =
      (if statement.count = 0 then walk.readFirst here next
        else walk.readLater statement here next).within embedding := by
    split <;> rfl
  cases statement.unit with
  | none =>
      dsimp only [Option.map_none]
      split <;> first
        | rfl
        | contradiction
        | exact hBegun
  | some unit =>
      have hCommit : (walk.within embedding).commitInstance (unit.moved embedding.move) "" =
          (walk.commitInstance unit "").within embedding := commitInstance_within unit ""
      generalize here.symbol = symbol
      cases symbol with
      | semicolon => exact congrArg nextStatement hCommit
      | keyword word =>
          cases word <;> first
            | rfl
            | exact congrArg (goto · (.instanceMap 0)) hCommit
            | exact hBegun
      | _ => exact hBegun

/-- The unit that a name ends with is moved with it. -/
theorem readInstance_within (hHere : here.word.IsRigid embedding.move) :
    (walk.within embedding).readInstance (here.moved embedding.move) =
      (walk.readInstance here).within embedding := by
  have hStop : here.span.stop = here.span.start + here.text.utf8ByteSize := hHere.size
  have hMoved : ∀ count ≤ here.text.utf8ByteSize,
      embedding.move (here.span.start + count) = embedding.move here.span.start + count :=
    hHere.together
  have hUnit : utf8Len (here.text.toList.reverse.takeWhile (· != '.')).reverse ≤
      here.text.utf8ByteSize := by
    have hText : here.text.toList =
        (here.text.toList.reverse.dropWhile (· != '.')).reverse ++
          (here.text.toList.reverse.takeWhile (· != '.')).reverse := by
      rw [← List.reverse_append, List.takeWhile_append_dropWhile, List.reverse_reverse]
    have hSize := congrArg utf8Len hText
    rw [String.utf8Len_append, ← String.utf8ByteSize_ofList, String.ofList_toList] at hSize
    omega
  rw [readInstance, readInstance, Lexeme.symbol_moved, Lexeme.text_moved, Lexeme.span_moved]
  split
  · dsimp only
    rw [goto_within, ← commitInstance_within, Word.moved, Span.moved, Span.moved]
    rw [← String.utf8ByteSize_ofList] at hUnit
    have hFull := hMoved _ (Nat.le_refl _)
    have hPart := hMoved _ (Nat.sub_le here.text.utf8ByteSize
      (String.ofList (here.text.toList.reverse.takeWhile (· != '.')).reverse).utf8ByteSize)
    rw [← Nat.add_sub_assoc hUnit, ← hStop] at hPart
    rw [← hStop] at hFull
    rw [hPart, hFull, Nat.add_sub_assoc hUnit]
    rfl
  · rfl

theorem readMap_within :
    (walk.within embedding).readMap depth (here.moved embedding.move) =
      (walk.readMap depth here).within embedding := by
  rw [readMap, readMap, Lexeme.symbol_moved]
  split
  case h_3 => split <;> rfl
  all_goals rfl

theorem enterGenerate_within (kind : GenerateKind) (condition : String) :
    (walk.within embedding).enterGenerate kind condition =
      (walk.enterGenerate kind condition).within embedding := by
  have hGenerates : (walk.within embedding).generates = walk.generates := rfl
  unfold enterGenerate
  rw [hGenerates]
  cases kind with
  | elsif => cases walk.generates <;> rfl
  | _ => rfl

theorem readGenerate_within {kind : GenerateKind} {expr : Capture} :
    (walk.within embedding).readGenerate kind depth expr (here.moved embedding.move) =
      (walk.readGenerate kind depth expr here).within embedding := by
  rw [readGenerate, readGenerate, Lexeme.symbol_moved, enterGenerate_within]
  split
  case h_3 => split <;> rfl
  all_goals rfl

theorem readChoice_within {expr : Capture} :
    (walk.within embedding).readChoice expr (here.moved embedding.move) =
      (walk.readChoice expr here).within embedding := by
  rw [readChoice, readChoice, Lexeme.symbol_moved, modifyGenerate_within]
  split <;> rfl

theorem readSensitivity_within {depth : Option Nat} :
    (walk.within embedding).readSensitivity (process.moved embedding.move) depth
        (here.moved embedding.move) =
      (walk.readSensitivity process depth here).within embedding := by
  have hPush : (process.moved embedding.move).pushSensitivity (here.word.moved embedding.move) =
      (process.pushSensitivity here.word).moved embedding.move := by simp
  unfold readSensitivity
  dsimp only
  rw [Lexeme.symbol_moved, Lexeme.word_moved, hPush]
  split
  case h_4 => exact readItem_within (.processDeclarations process)
  all_goals rfl

theorem readProcessDeclarations_within :
    (walk.within embedding).readProcessDeclarations (process.moved embedding.move)
        (here.moved embedding.move) =
      (walk.readProcessDeclarations process here).within embedding := by
  rw [readProcessDeclarations, readProcessDeclarations, Lexeme.symbol_moved]
  split
  · rfl
  · exact readItem_within (.processDeclarations process)

/-- A word of a process is added to it at its place. -/
theorem readBodyWord_within {statement : Sequential} {ticked : Bool} :
    (walk.within embedding).readBodyWord (process.moved embedding.move) depth statement
        (here.moved embedding.move) ticked =
      (walk.readBodyWord process depth statement here ticked).within embedding := by
  have hEdge : detectsEdge (here.moved embedding.move) ticked = detectsEdge here ticked := rfl
  have hRaised : (if detectsEdge here ticked then
        { process.moved embedding.move with clocked := true } else process.moved embedding.move) =
      (if detectsEdge here ticked then { process with clocked := true } else process).moved
        embedding.move := by
    split <;> rfl
  unfold readBodyWord
  dsimp only
  rw [hEdge, Lexeme.symbol_moved, Lexeme.word_moved, hRaised, HdlProcess.size_body_moved]
  split
  · rw [← HdlProcess.pushBody_moved]
    rfl
  · rfl

theorem markTarget_within {statement : Sequential} {role : Role} :
    (walk.within embedding).markTarget (process.moved embedding.move) statement role =
      (walk.markTarget process statement role).within embedding := by
  rw [markTarget, markTarget]
  split
  · rw [← HdlProcess.mark_moved]
    rfl
  · rfl

/-- What ends the process is asked of texts, and the words of the process are rigid, so that the
stems recorded as clocked signals are the same. -/
theorem readBody_within {statement : Sequential} (hMove : Monotone embedding.move)
    (hProcess : process.All (·.IsRigid embedding.move)) :
    (walk.within embedding).readBody (process.moved embedding.move) depth statement
        (here.moved embedding.move) (before.map (·.moved embedding.move))
        (next.map (·.moved embedding.move)) =
      (walk.readBody process depth statement here before next).within embedding := by
  have hTicked : (before.map (·.moved embedding.move)).any (·.symbol = .tick) =
      before.any (·.symbol = .tick) := by
    cases before <;> rfl
  unfold readBody
  dsimp only
  rw [hTicked, Lexeme.symbol_moved, readBodyWord_within, markTarget_within, markTarget_within]
  split
  case h_11 =>
    have hCommit : ∀ offset, (((walk.within embedding).commitProcess
        (process.moved embedding.move) (embedding.move offset)).skip .architectureBody) =
        ((walk.commitProcess process offset).skip .architectureBody).within embedding := by
      intro offset
      rw [commitProcess_within hMove hProcess]
      rfl
    cases next with
    | none => rfl
    | some lexeme =>
        obtain ⟨token, symbol⟩ := lexeme
        cases symbol with
        | keyword word =>
            cases word <;> first
              | rfl
              | exact hCommit token.span.stop
        | _ => rfl
  all_goals first
    | rfl
    | (split <;> rfl)

/-- Reading a word in a text comes to reading it in the text around it. -/
theorem read_within (h : walk.All (·.IsRigid embedding.move)) (hMove : Monotone embedding.move)
    (hHere : here.word.IsRigid embedding.move) :
    (walk.within embedding).read (here.moved embedding.move) (before.map (·.moved embedding.move))
        (next.map (·.moved embedding.move)) =
      (walk.read here before next).within embedding := by
  have hPlace : (walk.within embedding).place = walk.place.moved embedding.move := rfl
  have hProcess := h.process
  rw [read, read, hPlace]
  cases hHome : walk.place with
  | entityContext => exact readContext_within
  | libraryClause => exact readLibrary_within
  | useClause home => exact readUse_within hHere
  | configurationDeclaration => exact readConfiguration_within
  | entityName => exact readEntityName_within
  | entityHeader => exact readEntityHeader_within
  | entityStatements => exact readEntityStatements_within
  | interfaceListOpen kind owner => exact readListOpen_within
  | interfaceDeclaration list element => exact readInterface_within
  | objectDeclaration kind home element => exact readObject_within
  | typeDeclaration home type => exact readType_within
  | architectureName named => exact readArchitectureName_within
  | architectureHeader => exact readArchitectureHeader_within
  | architectureDeclarations => exact readArchitectureDeclarations_within
  | architectureBody statement => exact readStatement_within
  | componentName home => exact readComponentName_within
  | componentHeader home => exact readComponentHeader_within
  | subprogramName home => exact readSubprogramName_within
  | subprogramHeader home => exact readSubprogramHeader_within
  | subprogramBody home nest => exact readSubprogramBody_within
  | packageName => exact readPackageName_within
  | packageDeclarations => exact readPackage_within .packageDeclarations
  | packageBodyName => exact readPackageBodyName_within
  | packageBody => exact readPackage_within .packageBody
  | processSensitivity process depth => exact readSensitivity_within
  | processDeclarations process => exact readProcessDeclarations_within
  | processBody process depth statement =>
      exact readBody_within hMove (hProcess process (by rw [hHome]; rfl))
  | instanceHeader => exact readInstance_within hHere
  | instanceMap depth => exact readMap_within
  | generateHeader kind depth expr => exact readGenerate_within
  | generateChoice expr => exact readChoice_within
  | skipStatement home depth => exact readSkipped_within

theorem region_moved (move : Nat → Nat) (place : Place) :
    (place.moved move).region = place.region := by
  cases place <;> rfl

theorem absorb_moved (move : Nat → Nat) (place : Place) (token : Token) :
    (place.moved move).absorb (token.moved move) = (place.absorb token).moved move := by
  cases place <;> rfl

/-- One event is read in the part as it is behind other text. -/
theorem step_within {event : Event} (h : walk.All (·.IsRigid embedding.move))
    (hMove : Monotone embedding.move) (hEvent : event.All (·.IsRigid embedding.move)) :
    (walk.within embedding).step (event.moved embedding.move) =
      (walk.step event).within embedding := by
  cases event with
  | comment span => rfl
  | filler token =>
      have hPlace : (walk.within embedding).place.absorb (token.moved embedding.move) =
          (walk.place.absorb token).moved embedding.move := absorb_moved _ _ _
      rw [Event.moved, step, hPlace]
      rfl
  | word here before next =>
      have hRegion : (walk.within embedding).place.region = walk.place.region :=
        region_moved embedding.move walk.place
      rw [Event.moved, step, hRegion, step]
      exact read_within (h.note (.visited walk.place.region.name here.text)) hMove hEvent.1

/-- Taking the events of a text comes to taking them in the text around it. -/
theorem run_within {events : List Event} (h : walk.All (·.IsRigid embedding.move))
    (hMove : Monotone embedding.move)
    (hEvents : ∀ event ∈ events, event.All (·.IsRigid embedding.move)) :
    (walk.within embedding).run (events.map (·.moved embedding.move)) =
      (walk.run events).within embedding := by
  induction events generalizing walk with
  | nil => rfl
  | cons event events ih =>
      rw [List.forall_mem_cons] at hEvents
      have hStep := step_within h hMove hEvents.1
      have hRest := ih (h.step (isRigid_inherited _) hEvents.1) hEvents.2
      rw [← hStep] at hRest
      exact hRest

/-- The process that is open moves along with its place. -/
theorem process?_moved (move : Nat → Nat) (place : Place) :
    (place.moved move).process? = place.process?.map (·.moved move) := by
  have hHome : ∀ home : Home, (home.moved move).process? = home.process?.map (·.moved move) := by
    intro home
    cases home <;> rfl
  have hOwner : ∀ owner : Owner,
      (owner.moved move).process? = owner.process?.map (·.moved move) := by
    intro owner
    cases owner <;> first
      | rfl
      | exact hHome _
  cases place with
  | interfaceListOpen kind owner =>
      rw [Place.process?_interfaceListOpen, ← hOwner]
      exact Place.process?_interfaceListOpen kind _
  | interfaceDeclaration list element =>
      rw [Place.process?_interfaceDeclaration, ← hOwner]
      exact Place.process?_interfaceDeclaration _ _
  | _ => first
      | rfl
      | exact hHome _

/-- The end of the text completes the same element in both. -/
theorem flushed_within (size : Nat) :
    (walk.within embedding).flushed (embedding.move size) =
      (walk.flushed size).within embedding := by
  have hPlace : (walk.within embedding).place = walk.place.moved embedding.move := rfl
  rw [flushed, flushed, hPlace]
  cases walk.place with
  | interfaceDeclaration list element =>
      dsimp only [Place.moved]
      rw [completeElement_within, closeList_within]
  | objectDeclaration kind home element => exact completeObject_within
  | _ => rfl

/-- The end of a text comes to the end of the text around it. -/
theorem finish_within (h : walk.All (·.IsRigid embedding.move)) (hMove : Monotone embedding.move)
    (size : Nat) :
    (walk.within embedding).finish (embedding.move size) = (walk.finish size).within embedding := by
  have hEnd := h.flushed (isRigid_inherited _).rooted size
  rw [finish_eq_flushed, finish_eq_flushed, flushed_within]
  generalize walk.flushed size = flushed at hEnd
  have hProcess : (flushed.within embedding).place.process? =
      flushed.place.process?.map (·.moved embedding.move) := process?_moved _ _
  rw [hProcess]
  cases hOpen : flushed.place.process? with
  | none => rfl
  | some process => exact commitProcess_within hMove (hEnd.process process hOpen) size

end HdlIndex.Vhdl.Walk

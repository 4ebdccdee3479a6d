import HdlIndex.Proofs.Aligned
import HdlIndex.Proofs.Faithful
import HdlIndex.Proofs.Text.Slices
import HdlIndex.Proofs.Token.Truncated
import HdlIndex.Proofs.Vhdl.MovedStatements
import HdlIndex.Proofs.Vhdl.PartReading

/-! VHDL texts that are read up to a limit. What was read is read alike when it is the whole text,
so that the two walks differ in nothing but what they take for the end of an open comment, generic
clause or process. -/
namespace HdlIndex.Vhdl

variable {text : String} {region : Region} {walk : Walk}

/-- The byte offset at which the comment opened that is open. -/
def Mode.comment? : Mode → Option Nat
  | .lineComment start | .blockComment start => some start
  | .code | .string => none

/-- A generic clause is open. -/
def Place.isInClause : Place → Bool
  | .interfaceDeclaration list _ => list.kind = .generics
  | _ => false

/-- What was found, without the generic clause and the processes. -/
def Findings.apart (found : Findings) : Findings :=
  { found with genericClause := none, processes := #[] }

/-- The reader behind the tokens of a text. -/
def readerAt (limit : Option Nat) (text : String) : Reader :=
  Reader.readAll {} (tokens limit text).list

/-- The walk behind the tokens of a text, in front of its end. -/
def walkAt (region : Region) (limit : Option Nat) (text : String) : Walk :=
  (Walk.start region).run (readerAt limit text).events.toList

section Finish

/-- A comment that the end of a text ends is nothing to a walk. -/
theorem Walk.run_finish (walk : Walk) (reader : Reader) (size : Nat) :
    walk.run (reader.finish size).toList = walk.run reader.events.toList := by
  rw [Reader.finish]
  cases reader.mode with
  | code => rfl
  | string => rfl
  | _ =>
      rw [Array.toList_push, run, run, List.foldl_append]
      rfl

/-- Walking through the events of a text is walking to its sentinel and finishing there. -/
theorem walkThrough_eq (region : Region) (limit : Option Nat) (text : String) (size : Nat) :
    walkThrough region (readEvents size (tokens limit text).list) size =
      (walkAt region limit text).finish size := by
  rw [walkThrough, readEvents, Walk.run_finish]
  rfl

namespace Walk

/-- Where the text ends makes a difference to places only, which `apart` leaves out. -/
theorem flushed_apart (walk : Walk) (size size' : Nat) :
    (walk.flushed size).found.apart = (walk.flushed size').found.apart := by
  rw [flushed, flushed]
  cases walk.place with
  | interfaceDeclaration list element =>
      dsimp only
      rw [closeList, closeList]
      split <;> rfl
  | _ => rfl

/-- Outside of a clause the end of the text adds nothing to one. -/
theorem genericClause_flushed (h : walk.place.isInClause = false) (size : Nat) :
    (walk.flushed size).found.genericClause = walk.found.genericClause := by
  rw [flushed]
  cases hPlace : walk.place with
  | interfaceDeclaration list element =>
      have hKind : list.kind ≠ .generics := by simpa [hPlace, Place.isInClause] using h
      dsimp only
      rw [closeList, if_neg hKind]
      cases hCase : list.kind <;> simp [completeElement, collect, goto, Findings.modifyList, hCase]
  | _ => rfl

/-- And the element it completes is no process. -/
theorem processes_flushed (walk : Walk) (size : Nat) :
    (walk.flushed size).found.processes = walk.found.processes := by
  rw [flushed]
  cases walk.place with
  | interfaceDeclaration list element =>
      dsimp only
      rw [closeList]
      split <;> cases hCase : list.kind <;>
        simp [completeElement, collect, goto, Findings.modifyList, hCase]
  | _ => rfl

/-- Where a process ends decides nothing but its range. -/
theorem commitProcess_apart {walk' : Walk} {process : HdlProcess}
    (hFound : walk.found.apart = walk'.found.apart) (hGenerates : walk.generates = walk'.generates)
    (offset offset' : Nat) :
    (walk.commitProcess process offset).found.apart =
      (walk'.commitProcess process offset').found.apart := by
  have hCommit : ∀ (other : Walk) (offset : Nat),
      (other.commitProcess process offset).found.apart =
        { other.found.apart with
          clocked :=
            if process.clocked then
              process.signalTargets.foldl
                (fun signals target => signals.record target.stem other.conditions)
                other.found.apart.clocked
            else other.found.apart.clocked } := fun _ _ => rfl
  rw [hCommit, hCommit, hFound, conditions, conditions, hGenerates]

/-- Where the text ends decides nothing but where the generic clause and the last process end. -/
theorem finish_apart (walk : Walk) (size size' : Nat) :
    (walk.finish size).found.apart = (walk.finish size').found.apart := by
  have hFlushed := walk.flushed_apart size size'
  rw [finish_eq_flushed, finish_eq_flushed, process?_flushed, process?_flushed]
  cases walk.place.process? with
  | none => exact hFlushed
  | some process =>
      have hGenerates := (walk.generates_flushed size).trans (walk.generates_flushed size').symm
      exact commitProcess_apart hFlushed hGenerates size size'

theorem genericClause_finish (h : walk.place.isInClause = false) (size : Nat) :
    (walk.finish size).found.genericClause = walk.found.genericClause := by
  have hFlushed := genericClause_flushed h size
  exact finish_of_flushed (P := (·.found.genericClause = walk.found.genericClause)) hFlushed
    fun _ _ => hFlushed

/-- The process that is open becomes the last one. -/
theorem processes_finish (size : Nat) : (walk.finish size).found.processes.toList =
    walk.found.processes.toList ++ (walk.place.process?.map (·.close size)).toList := by
  have hFlushed := walk.processes_flushed size
  rw [finish_eq_flushed, process?_flushed]
  cases walk.place.process? with
  | none => simp [hFlushed]
  | some process => simp [commitProcess, collect, note, hFlushed]

end Walk

end Finish

section Reading

/-- What was read is read alike when it is the whole text. -/
theorem tokens_readPart (limit : Option Nat) (text : String) :
    tokens none ((tokens limit text).readPart text) = tokens limit text := by
  have hWithin := (tokenize_isLossless delimiters limit false (Text.foldCase text)).scanned_within
  have hFolded : Text.foldCase ((tokens limit text).readPart text) =
      (tokens limit text).readPart (Text.foldCase text) :=
    (Text.slice_foldCase (Text.within_foldCase.1 hWithin)).symm
  rw [tokens, hFolded]
  exact tokenize_readPart delimiters limit false (Text.foldCase text)

theorem readPart_append (limit : Option Nat) (text : String) :
    ∃ rest, text = (tokens limit text).readPart text ++ rest ∧
      ((tokens limit text).readPart text).utf8ByteSize = (tokens limit text).scanned :=
  Tokens.readPart_append (Text.within_foldCase.1
    (tokenize_isLossless delimiters limit false (Text.foldCase text)).scanned_within)

theorem list_tokens {tokens : List Token} {opened : Bool}
    (h : SplitsUpTo delimiters 0 (Text.foldCase text).toList tokens opened) :
    (Vhdl.tokens none text).list = tokens ++ SplitsUpTo.closing false opened text.utf8ByteSize := by
  rw [Vhdl.tokens, (h.tokenize false).1, Text.utf8ByteSize_foldCase]
  exact List.append_nil _

theorem scanned_tokens (text : String) : (tokens none text).scanned = text.utf8ByteSize := by
  obtain ⟨_, _, hTokens⟩ := SplitsUpTo.total delimiters 0 (Text.foldCase text).toList
  rw [tokens, (hTokens.tokenize false).2, Text.utf8ByteSize_foldCase]

/-- The end of the text adds the comment that is still open, and no other. -/
theorem comments_finish (reader : Reader) (size : Nat) :
    (reader.finish size).toList.filterMap Event.comment? =
      reader.events.toList.filterMap Event.comment? ++
        (reader.mode.comment?.map fun start => (⟨start, size⟩ : Span)).toList := by
  rw [Reader.finish]
  cases reader.mode <;> simp [Mode.comment?, Event.comment?]

/-- It adds no keyword. -/
theorem keywords_finish (reader : Reader) (size : Nat) :
    (reader.finish size).toList.filterMap Event.keyword? =
      reader.events.toList.filterMap Event.keyword? := by
  rw [Reader.finish]
  cases reader.mode <;> simp [Event.keyword?]

/-- The words of a text do not care where the places behind the text are. -/
theorem events_areRigid_clamp (text : String) :
    ∀ event ∈ readEvents text.utf8ByteSize (tokens none text).list,
      event.All (·.IsRigid (min · text.utf8ByteSize)) := by
  have hEnd := absent_size_standsIn (Text.foldCase text)
  have hSize := Text.utf8ByteSize_foldCase text
  rw [← hSize]
  refine readEvents_all (isRigid_inherited _) (fun token hMem => ?_)
    (tokenize_contiguous delimiters none false _) (tokenize_scanned_le delimiters none false _)
    hEnd.isRigid_clamp
  have hStands := tokenize_standsIn delimiters none false (Text.foldCase text) token hMem
  exact Word.StandsIn.isRigid_clamp (by simpa using hStands)

/-- The events of a text stand within it, so that clamping their places to its size moves none. -/
theorem events_clamp (text : String) :
    (readEvents text.utf8ByteSize (tokens none text).list).map (·.moved (min · text.utf8ByteSize)) =
      readEvents text.utf8ByteSize (tokens none text).list := by
  have hWithin : ∀ token ∈ (tokens none text).list, token.span.Within text := by
    intro token hMem
    have hStands := tokenize_standsIn delimiters none false (Text.foldCase text) token hMem
    have hWord : token.word.StandsIn (Text.foldCase text) := by simpa using hStands
    exact Text.within_foldCase.1 hWord.within
  have hMatches : Reader.Matches (min · text.utf8ByteSize) {} {} := ⟨rfl, rfl, rfl, rfl, by simp⟩
  have hSame := hMatches.upcoming_eq text.utf8ByteSize (tokens none text).list
  rw [Token.map_moved_clamp hWithin, min_self, ← readEvents_eq_upcoming] at hSame
  exact hSame.symm

/-- The walk in front of a part is that in front of the whole text, as zero stays where it is. -/
theorem Walk.start_within (region : Region) {move : Nat → Nat} (hZero : move 0 = 0) :
    (Walk.start region).within { move } = Walk.start region := by
  have hFound : Findings.within { move } {} = {} := by
    simp [Findings.within, Findings.moved, Findings.followedBy, Words.moved, Words.followedBy,
      Words.isEmpty, Declarations.moved, Declarations.followedBy, ClockedSignals.moved,
      ClockedSignals.followedBy]
  cases region <;>
    simp [within, start, Place.ofEntry?, hFound, Place.moved, InterfaceList.moved, Owner.moved,
      Element.moved, Statement.moved, hZero, Note.moved]

/-- A generic clause lies in the text: to move the places behind the text would not change it. -/
theorem clause_le (region : Region) (text : String) :
    ∀ span ∈ ((Walk.start region).run (readEvents text.utf8ByteSize
        (tokens none text).list)).found.genericClause,
      span.start ≤ text.utf8ByteSize ∧ span.stop ≤ text.utf8ByteSize := by
  set events := readEvents text.utf8ByteSize (tokens none text).list with hDefinition
  have hRun : ((Walk.start region).within { move := (min · text.utf8ByteSize) }).run
      (events.map (·.moved (min · text.utf8ByteSize))) =
      ((Walk.start region).run events).within { move := (min · text.utf8ByteSize) } :=
    Walk.run_within (.start region) (monotone_clamp _) (events_areRigid_clamp text)
  have hZero : (fun offset => min offset text.utf8ByteSize) 0 = 0 := Nat.zero_min _
  rw [Walk.start_within region hZero, hDefinition, events_clamp, ← hDefinition] at hRun
  generalize (Walk.start region).run events = walk at hRun
  intro span hSpan
  have hFound : walk.found.genericClause =
      (walk.found.genericClause.map (·.moved (min · text.utf8ByteSize))).or none :=
    congrArg (·.found.genericClause) hRun
  rw [Option.mem_def.1 hSpan] at hFound
  have hMoved : span = span.moved (min · text.utf8ByteSize) := Option.some.inj hFound
  rw [hMoved]
  exact ⟨min_le_right _ _, min_le_right _ _⟩

end Reading

section Table

/-- The table of a text of `size` bytes of which `scanned` were read has what the table of the part
that was read has. A comment or a process that was open there is the last one, and it reaches to the
end of the whole text instead; a generic clause that was open may differ. -/
structure Table.Continues (table part : Table) (mode : Mode) (place : Place)
    (scanned size : Nat) : Prop where
  found : table.toFindings.apart = part.toFindings.apart
  keywords : table.keywords = part.keywords
  comments : AgreeUpToEnd (fun last last' => last.span = ⟨last'.span.start, size⟩)
    mode.comment?.isSome table.comments.entries.toList part.comments.entries.toList
  clause : place.isInClause = false → table.genericClause = part.genericClause ∧
    table.genericDefinition = part.genericDefinition
  processes : AgreeUpToEnd (fun last last' => last = last'.close size) place.process?.isSome
    table.processes.toList part.processes.toList
  diagnostics : table.diagnostics = part.diagnostics ++
    if scanned < size then [.truncated scanned size] else []

theorem ragged_apart (found : Findings) : found.apart.ragged = found.ragged := rfl

theorem scan_eq_tabulate (region : Region) (limit : Option Nat) (text : String) :
    (scan region limit text).table =
      tabulate text ((readerAt limit text).finish text.utf8ByteSize).toList
        (tokens limit text).scanned ((walkAt region limit text).finish text.utf8ByteSize) := by
  rw [← walkThrough_eq]
  rfl

/-- The ranges that a reader has closed lie in what was read. -/
theorem commentAt_readPart (part rest : String) :
    ((readerAt none part).events.toList.filterMap Event.comment?).map (commentAt (part ++ rest)) =
      ((readerAt none part).events.toList.filterMap Event.comment?).map (commentAt part) := by
  refine List.map_congr_left fun span hMem => ?_
  have hEvents : span ∈ (readEvents part.utf8ByteSize (tokens none part).list).filterMap
      Event.comment? := by
    have hFinish := comments_finish (readerAt none part) part.utf8ByteSize
    exact hFinish ▸ List.mem_append_left _ hMem
  obtain ⟨event, hEvent, hSpan⟩ := List.mem_filterMap.1 hEvents
  have hWithin :=
    Text.within_foldCase.1 ((events_standIn none part event hEvent).comment? span hSpan).within
  rw [commentAt, commentAt,
    Span.slice_append_left (hWithin.ordered.trans hWithin.stop_le) hWithin.stop_le]

/-- A longer text adds the diagnostic that it was truncated, and no other. -/
theorem diagnose_finish (walk : Walk) (scanned size : Nat) :
    diagnose (walk.finish size) scanned size = diagnose (walk.finish scanned) scanned scanned ++
      if scanned < size then [.truncated scanned size] else [] := by
  have hRagged : (walk.finish size).found.ragged = (walk.finish scanned).found.ragged := by
    rw [← ragged_apart, walk.finish_apart size scanned, ragged_apart]
  rw [diagnose, diagnose, hRagged, Walk.generates_finish, Walk.generates_finish,
    if_neg (Nat.lt_irrefl scanned), List.append_nil]

/-- A scan is the scan of what it read, but for what was open there and for a remark on what was not
read. -/
theorem scan_continues (region : Region) (limit : Option Nat) (text : String) :
    (scan region limit text).table.Continues
      (scan region none ((tokens limit text).readPart text)).table (readerAt limit text).mode
      (walkAt region limit text).place (tokens limit text).scanned text.utf8ByteSize := by
  obtain ⟨rest, hText, hSize⟩ := readPart_append limit text
  have hTokens := tokens_readPart limit text
  generalize (tokens limit text).readPart text = part at hText hSize hTokens
  have hReader : readerAt limit text = readerAt none part :=
    congrArg (fun tokens : Tokens => Reader.readAll {} tokens.list) hTokens.symm
  have hWalk : walkAt region limit text = walkAt region none part :=
    congrArg (fun reader : Reader => (Walk.start region).run reader.events.toList) hReader
  have hClause := clause_le region part
  rw [readEvents, Walk.run_finish] at hClause
  change ∀ span ∈ (walkAt region none part).found.genericClause, _ at hClause
  have hComments := commentAt_readPart part rest
  rw [← hText] at hComments
  rw [scan_eq_tabulate, scan_eq_tabulate, hReader, hWalk, hTokens, ← hSize]
  generalize walkAt region none part = walk at hClause
  generalize readerAt none part = reader at hComments
  refine ⟨?_, ?_, ?_, fun hPlace => ?_, ?_, ?_⟩
  · exact congrArg Findings.align (walk.finish_apart text.utf8ByteSize part.utf8ByteSize)
  · exact (keywords_finish reader _).trans (keywords_finish reader _).symm
  · simp only [tabulate]
    rw [comments_finish, comments_finish, List.map_append, List.map_append, hComments]
    cases reader.mode.comment? with
    | none => simpa using AgreeUpToEnd.whole _
    | some start => exact .cut _ rfl
  · have hSame := (walk.genericClause_finish hPlace text.utf8ByteSize).trans
      (walk.genericClause_finish hPlace part.utf8ByteSize).symm
    refine ⟨hSame, ?_⟩
    have hDefinition :
        ∀ clause ∈ walk.found.genericClause, clause.slice text = clause.slice part := by
      intro clause hMem
      obtain ⟨hStart, hStop⟩ := hClause clause hMem
      rw [hText, Span.slice_append_left hStart hStop]
    show ((walk.finish _).found.genericClause.map _).getD "" =
      ((walk.finish _).found.genericClause.map _).getD ""
    rw [walk.genericClause_finish hPlace, walk.genericClause_finish hPlace]
    cases hSome : walk.found.genericClause with
    | none => rfl
    | some clause => exact hDefinition clause hSome
  · show AgreeUpToEnd _ _ (walk.finish _).found.processes.toList
      (walk.finish _).found.processes.toList
    rw [walk.processes_finish, walk.processes_finish]
    exact .of_option _ _ fun process => rfl
  · exact diagnose_finish walk _ _

end Table

end HdlIndex.Vhdl

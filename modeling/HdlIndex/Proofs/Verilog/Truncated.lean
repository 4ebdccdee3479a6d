import HdlIndex.Proofs.Aligned
import HdlIndex.Proofs.Faithful
import HdlIndex.Proofs.Text.Slices
import HdlIndex.Proofs.Token.Truncated
import HdlIndex.Proofs.Verilog.Moved
import HdlIndex.Proofs.Verilog.PartReading

/-! Verilog texts that are read up to a limit. What was read is read alike when it is the whole
text, so that the two walks differ in nothing but what they take for the end of an open comment,
parameter list or always block. A directive never is open there, as the sentinel ends it. -/
namespace HdlIndex.Verilog

variable {text : String} {region : Region} {walk : Walk}

/-- The byte offset at which the comment opened that is open. -/
def Mode.comment? : Mode → Option Nat
  | .lineComment start | .blockComment start => some start
  | .code | .string | .directive _ => none

/-- A parameter list is open. -/
def Place.isInClause : Place → Bool
  | .parameterList .. => true
  | _ => false

/-- What was found, without the parameter clause and the always blocks. -/
def Findings.apart (found : Findings) : Findings :=
  { found with genericClause := none, processes := #[] }

/-- The reader behind the tokens of a text. -/
def readerAt (limit : Option Nat) (text : String) : Reader :=
  Reader.readAll {} (tokens limit text).list

/-- The walk behind the tokens of a text, in front of its end. -/
def walkAt (region : Region) (limit : Option Nat) (text : String) : Walk :=
  (Walk.start region).run (readerAt limit text).events.toList

section Finish

/-- A comment or a directive that the end of a text ends is nothing to a walk. -/
theorem Walk.run_finish (walk : Walk) (reader : Reader) (size : Nat) :
    walk.run (reader.finish size).toList = walk.run reader.events.toList := by
  rw [Reader.finish]
  cases reader.mode with
  | code => rfl
  | string => rfl
  | _ =>
      rw [Array.toList_push, run, run, List.foldl_append]
      rfl

/-- Walking through the events of a text is walking to its sentinel and finishing there. -/
theorem walkThrough_eq (region : Region) (limit : Option Nat) (text : String) (size : Nat) :
    walkThrough region (readEvents size (tokens limit text).list) size =
      (walkAt region limit text).finish size := by
  rw [walkThrough, readEvents, Walk.run_finish]
  rfl

namespace Walk

theorem flushAt_apart (walk : Walk) (size size' : Nat) :
    (walk.flushAt size).found.apart = (walk.flushAt size').found.apart := by
  rw [flushAt, flushAt]
  cases walk.place <;> rfl

/-- An item that the end of the text completes adds to no clause and to no process. -/
theorem genericClause_flush (walk : Walk) (item : Item) :
    (walk.flush item).found.genericClause = walk.found.genericClause ∧
      (walk.flush item).found.processes = walk.found.processes := by
  rw [flush, collect]
  unfold declare declarePort declareNet
  split
  · exact ⟨rfl, rfl⟩
  split
  case h_4 => split <;> exact ⟨rfl, rfl⟩
  case h_5 => split <;> exact ⟨rfl, rfl⟩
  all_goals exact ⟨rfl, rfl⟩

/-- Outside of a clause the end of the text adds nothing to one. -/
theorem genericClause_flushAt (h : walk.place.isInClause = false) (size : Nat) :
    (walk.flushAt size).found.genericClause = walk.found.genericClause := by
  rw [flushAt]
  cases hPlace : walk.place with
  | parameterList owner inside item =>
      rw [hPlace] at h
      cases h
  | portList owner item => exact (walk.genericClause_flush item).1
  | declaration item => exact (walk.genericClause_flush item).1
  | _ => rfl

/-- Nor does it add a process. -/
theorem processes_flushAt (walk : Walk) (size : Nat) :
    (walk.flushAt size).found.processes = walk.found.processes := by
  rw [flushAt]
  cases walk.place with
  | parameterList owner inside item => exact (walk.genericClause_flush item).2
  | portList owner item => exact (walk.genericClause_flush item).2
  | declaration item => exact (walk.genericClause_flush item).2
  | _ => rfl

/-- Where an always block ends decides nothing but its range. -/
theorem commitProcess_apart {walk' : Walk} {process : HdlProcess}
    (hFound : walk.found.apart = walk'.found.apart) (offset offset' : Nat) :
    (walk.commitProcess process offset).found.apart =
      (walk'.commitProcess process offset').found.apart := hFound

/-- Where the text ends decides nothing but where the parameter clause and the last always block
end. -/
theorem finish_apart (walk : Walk) (size size' : Nat) :
    (walk.finish size).found.apart = (walk.finish size').found.apart := by
  have hFlushed := walk.flushAt_apart size size'
  unfold finish
  dsimp only
  rw [process?_flushAt, process?_flushAt]
  cases walk.place.process? with
  | none => exact hFlushed
  | some process => exact commitProcess_apart hFlushed size size'

theorem genericClause_finish (h : walk.place.isInClause = false) (size : Nat) :
    (walk.finish size).found.genericClause = walk.found.genericClause := by
  have hFlushed := genericClause_flushAt h size
  exact finish_of_flushAt (P := (·.found.genericClause = walk.found.genericClause)) hFlushed
    fun _ _ => hFlushed

/-- The always block that is open becomes the last one. -/
theorem processes_finish (size : Nat) : (walk.finish size).found.processes.toList =
    walk.found.processes.toList ++ (walk.place.process?.map (·.close size)).toList := by
  have hFlushed := walk.processes_flushAt size
  unfold finish
  dsimp only
  rw [process?_flushAt]
  cases walk.place.process? with
  | none => simp [hFlushed]
  | some process => simp [commitProcess, collect, note, hFlushed]

end Walk

end Finish

section Reading

/-- What was read is read alike when it is the whole text. -/
theorem tokens_readPart (limit : Option Nat) (text : String) :
    tokens none ((tokens limit text).readPart text) = tokens limit text :=
  tokenize_readPart delimiters limit true text

theorem readPart_append (limit : Option Nat) (text : String) :
    ∃ rest, text = (tokens limit text).readPart text ++ rest ∧
      ((tokens limit text).readPart text).utf8ByteSize = (tokens limit text).scanned :=
  Tokens.readPart_append (tokenize_isLossless delimiters limit true text).scanned_within

/-- A text that splits into tokens is read as these and the sentinel. -/
theorem list_tokens {text : String} {tokens : List Token} {opened : Bool}
    (h : SplitsUpTo delimiters 0 text.toList tokens opened) :
    (Verilog.tokens none text).list = tokens ++ [.sentinel text.utf8ByteSize] ∧
      (Verilog.tokens none text).scanned = text.utf8ByteSize := by
  obtain ⟨hList, hScanned⟩ := h.tokenize true
  refine ⟨?_, hScanned⟩
  rw [Verilog.tokens, hList]
  simp [SplitsUpTo.closing]

theorem scanned_tokens (text : String) : (tokens none text).scanned = text.utf8ByteSize := by
  obtain ⟨_, _, hTokens⟩ := SplitsUpTo.total delimiters 0 text.toList
  exact (list_tokens hTokens).2

theorem proper_tokens {text : String} {tokens : List Token} {opened : Bool}
    (h : SplitsUpTo delimiters 0 text.toList tokens opened) :
    (Verilog.tokens none text).proper = tokens := by
  have hLast := (tokenize_isLossless delimiters none true text).sentinel_last
  change (Verilog.tokens none text).list = (Verilog.tokens none text).proper ++
    [.sentinel (Verilog.tokens none text).scanned] at hLast
  rw [(list_tokens h).1, (list_tokens h).2] at hLast
  exact (List.append_cancel_right hLast).symm

/-- The end of the text adds the comment that is still open, and no other. -/
theorem comments_finish (reader : Reader) (size : Nat) :
    (reader.finish size).toList.filterMap Event.comment? =
      reader.events.toList.filterMap Event.comment? ++
        (reader.mode.comment?.map fun start => (⟨start, size⟩ : Span)).toList := by
  rw [Reader.finish]
  cases reader.mode <;> simp [Mode.comment?, Event.comment?]

/-- It adds no keyword. -/
theorem keywords_finish (reader : Reader) (size : Nat) :
    (reader.finish size).toList.filterMap Event.keyword? =
      reader.events.toList.filterMap Event.keyword? := by
  rw [Reader.finish]
  cases reader.mode <;> simp [Event.keyword?]

/-- The sentinel ends a directive. -/
theorem mode_read_sentinel (reader : Reader) (offset start : Nat) :
    (reader.read (.sentinel offset) []).mode ≠ .directive start := by
  have hSentinel := Token.isSentinel_sentinel offset
  have hOther : ∀ text, text ≠ Token.sentinelText → (Token.sentinel offset).text ≠ text :=
    fun text hText hSame => hText hSame.symm
  rw [Reader.read]
  cases hMode : reader.mode with
  | code =>
      dsimp only
      rw [Reader.readCode, if_neg (hOther "//" (by decide)), if_neg (hOther "/*" (by decide)),
        if_neg (hOther "\"" (by decide)), hSentinel]
      simp [Reader.emit, hMode]
  | string => dsimp only; split <;> simp
  | lineComment opened => simp [hOther "\n" (by decide), hMode]
  | blockComment opened => simp [hOther "*/" (by decide), hMode]
  | directive opened => simp [hSentinel]

/-- So the end of the text ends none. -/
theorem directives_finish (limit : Option Nat) (text : String) (size : Nat) :
    ((readerAt limit text).finish size).toList.filterMap Event.directive? =
      (readerAt limit text).events.toList.filterMap Event.directive? := by
  obtain ⟨lead, hList, -⟩ := tokenize_splitsInto delimiters limit true text
  have hMode : ∀ start, (readerAt limit text).mode ≠ .directive start := by
    intro start
    rw [readerAt, tokens, hList, Reader.isReader.readAll_eq_readOver,
      Reader.isReader.readOver_append]
    exact mode_read_sentinel _ _ start
  rw [Reader.finish]
  cases hCase : (readerAt limit text).mode with
  | directive start => exact absurd hCase (hMode start)
  | _ => simp [Event.directive?]

/-- The words of a text do not care where the places behind the text are. -/
theorem tokens_all_clamp (text : String) : ∀ token ∈ (tokens none text).list,
    TokenAll (·.IsRigid (min · text.utf8ByteSize)) token := by
  have hP := isRigid_inherited (min · text.utf8ByteSize)
  intro token hMem
  rcases tokenize_standsIn delimiters none true text token hMem with hToken | ⟨-, rfl⟩
  · have hRigid := hToken.isRigid_clamp
    exact ⟨hP.before hRigid, hP.behind hRigid, fun _ => hRigid⟩
  · have hScanned := (tokenize_scanned delimiters none true text).isRigid_clamp
    exact ⟨hScanned, hScanned, by simp⟩

theorem events_areRigid_clamp (text : String) :
    ∀ event ∈ readEvents text.utf8ByteSize (tokens none text).list,
      event.All (·.IsRigid (min · text.utf8ByteSize)) :=
  readEvents_all (tokens_all_clamp text) (tokenize_contiguous delimiters none true _)
    (tokenize_scanned_le delimiters none true text) (absent_size_standsIn text).isRigid_clamp

/-- The events of a text stand within it, so that clamping their places to its size moves none. -/
theorem events_clamp (text : String) :
    (readEvents text.utf8ByteSize (tokens none text).list).map (·.moved (min · text.utf8ByteSize)) =
      readEvents text.utf8ByteSize (tokens none text).list := by
  have hWithin : ∀ token ∈ (tokens none text).list, token.span.Within text := by
    intro token hMem
    rcases tokenize_standsIn delimiters none true text token hMem with hToken | ⟨-, rfl⟩
    · exact hToken.within
    · exact (tokenize_scanned delimiters none true text).within
  have hMatches : Reader.Matches (min · text.utf8ByteSize) {} {} := ⟨rfl, rfl, by simp⟩
  have hSame := hMatches.upcoming_eq text.utf8ByteSize (tokens_all_clamp text)
  rw [Token.map_moved_clamp hWithin, min_self, ← readEvents_eq_upcoming] at hSame
  exact hSame.symm

theorem Walk.start_moved (region : Region) {move : Nat → Nat} (hZero : move 0 = 0) :
    (Walk.start region).moved move = Walk.start region := by
  have hFound : Findings.moved move {} = {} := by
    simp [Findings.moved, Words.moved, Declarations.moved, ClockedSignals.moved]
  cases region <;>
    simp [moved, start, Place.ofEntry?, hFound, Place.moved, Item.moved, hZero, Note.moved]

/-- A parameter clause lies in the text: to move the places behind the text would not change it. -/
theorem clause_le (region : Region) (text : String) :
    ∀ span ∈ (walkAt region none text).found.genericClause,
      span.start ≤ text.utf8ByteSize ∧ span.stop ≤ text.utf8ByteSize := by
  set events := readEvents text.utf8ByteSize (tokens none text).list with hDefinition
  have hRun : ((Walk.start region).moved (min · text.utf8ByteSize)).run
      (events.map (·.moved (min · text.utf8ByteSize))) =
      ((Walk.start region).run events).moved (min · text.utf8ByteSize) :=
    Walk.run_moved (.start region) (monotone_clamp _) (events_areRigid_clamp text)
  have hZero : (fun offset => min offset text.utf8ByteSize) 0 = 0 := Nat.zero_min _
  rw [Walk.start_moved region hZero, hDefinition, events_clamp] at hRun
  rw [readEvents, Walk.run_finish] at hRun
  change walkAt region none text = (walkAt region none text).moved _ at hRun
  generalize walkAt region none text = walk at hRun
  intro span hSpan
  have hFound : walk.found.genericClause =
      walk.found.genericClause.map (·.moved (min · text.utf8ByteSize)) :=
    congrArg (·.found.genericClause) hRun
  rw [Option.mem_def.1 hSpan] at hFound
  have hMoved : span = span.moved (min · text.utf8ByteSize) := Option.some.inj hFound
  rw [hMoved]
  exact ⟨min_le_right _ _, min_le_right _ _⟩

end Reading

section Table

/-- The table of a text of `size` bytes of which `scanned` were read has what the table of the part
that was read has. A comment or an always block that was open there is the last one, and it reaches
to the end of the whole text instead; a parameter clause that was open may differ. -/
structure Table.Continues (table part : Table) (mode : Mode) (place : Place)
    (scanned size : Nat) : Prop where
  found : table.toFindings.apart = part.toFindings.apart
  includeFiles : table.includeFiles = part.includeFiles
  keywords : table.keywords = part.keywords
  comments : AgreeUpToEnd (fun last last' => last.span = ⟨last'.span.start, size⟩)
    mode.comment?.isSome table.comments.entries.toList part.comments.entries.toList
  clause : place.isInClause = false → table.genericClause = part.genericClause ∧
    table.genericDefinition = part.genericDefinition
  processes : AgreeUpToEnd (fun last last' => last = last'.close size) place.process?.isSome
    table.processes.toList part.processes.toList
  diagnostics : table.diagnostics = part.diagnostics ++
    if scanned < size then [.truncated scanned size] else []

theorem ragged_apart (found : Findings) : found.apart.ragged = found.ragged := rfl

theorem scan_eq_tabulate (region : Region) (limit : Option Nat) (text : String) :
    (scan region limit text).table =
      tabulate text ((readerAt limit text).finish text.utf8ByteSize).toList
        (tokens limit text).scanned ((walkAt region limit text).finish text.utf8ByteSize) := by
  rw [← walkThrough_eq]
  rfl

/-- The ranges that a reader has closed lie in what was read. -/
theorem slice_readPart {part rest : String} {event : Event} {span : Span}
    (hEvent : event ∈ (readerAt none part).events)
    (hSpan : event.comment? = some span ∨ event.directive? = some span) :
    span.slice (part ++ rest) = span.slice part := by
  have hMem : event ∈ readEvents part.utf8ByteSize (tokens none part).list := by
    rw [readEvents, Array.mem_toList_iff, Reader.finish]
    split <;> simp [readerAt] at hEvent ⊢ <;> simp [hEvent]
  have hAll := events_standIn none part event hMem
  have hWithin : span.Within part := by
    rcases hSpan with hSpan | hSpan
    · exact (hAll.comment? span hSpan).within
    · exact (hAll.directive? span hSpan).within
  exact Span.slice_append_left (hWithin.ordered.trans hWithin.stop_le) hWithin.stop_le

/-- Comments of a part of a text are read from that part. -/
theorem commentAt_readPart (part rest : String) :
    ((readerAt none part).events.toList.filterMap Event.comment?).map (commentAt (part ++ rest)) =
      ((readerAt none part).events.toList.filterMap Event.comment?).map (commentAt part) := by
  refine List.map_congr_left fun span hMem => ?_
  obtain ⟨event, hEvent, hSpan⟩ := List.mem_filterMap.1 hMem
  rw [commentAt, commentAt, slice_readPart (Array.mem_toList_iff.1 hEvent) (.inl hSpan)]

/-- The directives of a part of a text are read from that part: what follows it makes no
difference. -/
theorem includedFile?_readPart (part rest : String) :
    ((readerAt none part).events.toList.filterMap Event.directive?).filterMap
        (includedFile? (part ++ rest)) =
      ((readerAt none part).events.toList.filterMap Event.directive?).filterMap
        (includedFile? part) := by
  refine List.filterMap_congr fun span hMem => ?_
  obtain ⟨event, hEvent, hSpan⟩ := List.mem_filterMap.1 hMem
  rw [includedFile?, includedFile?, slice_readPart (Array.mem_toList_iff.1 hEvent) (.inr hSpan)]

/-- A longer text adds the diagnostic that it was truncated, and no other. -/
theorem diagnose_finish (walk : Walk) (scanned size : Nat) :
    diagnose (walk.finish size) scanned size = diagnose (walk.finish scanned) scanned scanned ++
      if scanned < size then [.truncated scanned size] else [] := by
  have hRagged : (walk.finish size).found.ragged = (walk.finish scanned).found.ragged := by
    rw [← ragged_apart, walk.finish_apart size scanned, ragged_apart]
  rw [diagnose, diagnose, hRagged, Walk.frames_finish, Walk.frames_finish,
    if_neg (Nat.lt_irrefl scanned), List.append_nil]

/-- A scan is the scan of what it read, but for what was open there and for a remark on what was not
read. -/
theorem scan_continues (region : Region) (limit : Option Nat) (text : String) :
    (scan region limit text).table.Continues
      (scan region none ((tokens limit text).readPart text)).table (readerAt limit text).mode
      (walkAt region limit text).place (tokens limit text).scanned text.utf8ByteSize := by
  obtain ⟨rest, hText, hSize⟩ := readPart_append limit text
  have hTokens := tokens_readPart limit text
  generalize (tokens limit text).readPart text = part at hText hSize hTokens
  have hReader : readerAt limit text = readerAt none part :=
    congrArg (fun tokens : Tokens => Reader.readAll {} tokens.list) hTokens.symm
  have hWalk : walkAt region limit text = walkAt region none part :=
    congrArg (fun reader : Reader => (Walk.start region).run reader.events.toList) hReader
  have hClause := clause_le region part
  have hComments := commentAt_readPart part rest
  have hIncluded := includedFile?_readPart part rest
  have hDirectives := directives_finish none part
  rw [← hText] at hComments hIncluded
  rw [scan_eq_tabulate, scan_eq_tabulate, hReader, hWalk, hTokens, ← hSize]
  generalize walkAt region none part = walk at hClause
  generalize readerAt none part = reader at hComments hIncluded hDirectives
  refine ⟨?_, ?_, ?_, ?_, fun hPlace => ?_, ?_, ?_⟩
  · exact congrArg Findings.align (walk.finish_apart text.utf8ByteSize part.utf8ByteSize)
  · simp only [tabulate]
    rw [hDirectives, hDirectives, hIncluded]
  · exact (keywords_finish reader _).trans (keywords_finish reader _).symm
  · simp only [tabulate]
    rw [comments_finish, comments_finish, List.map_append, List.map_append, hComments]
    cases reader.mode.comment? with
    | none => simpa using AgreeUpToEnd.whole _
    | some start => exact .cut _ rfl
  · have hSame := (walk.genericClause_finish hPlace text.utf8ByteSize).trans
      (walk.genericClause_finish hPlace part.utf8ByteSize).symm
    refine ⟨hSame, ?_⟩
    have hDefinition :
        ∀ clause ∈ walk.found.genericClause, clause.slice text = clause.slice part := by
      intro clause hMem
      obtain ⟨hStart, hStop⟩ := hClause clause hMem
      rw [hText, Span.slice_append_left hStart hStop]
    show ((walk.finish _).found.genericClause.map _).getD "" =
      ((walk.finish _).found.genericClause.map _).getD ""
    rw [walk.genericClause_finish hPlace, walk.genericClause_finish hPlace]
    cases hSome : walk.found.genericClause with
    | none => rfl
    | some clause => exact hDefinition clause hSome
  · show AgreeUpToEnd _ _ (walk.finish _).found.processes.toList
      (walk.finish _).found.processes.toList
    rw [walk.processes_finish, walk.processes_finish]
    exact .of_option _ _ fun process => rfl
  · exact diagnose_finish walk _ _

end Table

end HdlIndex.Verilog

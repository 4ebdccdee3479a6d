import HdlIndex.Proofs.Verilog.Assigning
import HdlIndex.Proofs.Verilog.Gathering
import HdlIndex.Proofs.Verilog.ProcessOrder
import HdlIndex.Proofs.Verilog.ReadingWords
import HdlIndex.Proofs.Verilog.StatementWords
import HdlIndex.Proofs.Verilog.WordOrder

/-! The names of a Verilog table in the order of the text. What reading a word of a module's body or
of an always block adds to the names of each category is known. Names of items and of instances are
recorded late, but none is overtaken by another one of its category, and clocked signals are
recorded statement by statement. -/
namespace HdlIndex.Verilog

namespace Walk.Gathers

variable {walk : Walk} {here : Lexeme} {word : Word} {next : Option Lexeme} {process : HdlProcess}
  {block : Block} {clocked : Bool}

theorem stay (other : Block) : walk.Gathers word (walk.goto (.alwaysBlock clocked other)) :=
  goto fun _ => rfl

/-- Expecting a label behind a block gathers nothing. -/
theorem label {recorded : Bool} (other : Block) :
    walk.Gathers word ((walk.goto (.alwaysBlock clocked other)).expectLabel recorded next) := by
  have hLabel := Idles.expectLabel (walk.goto (.alwaysBlock clocked other)) recorded next
  refine leaves (fun category => ?_) fun category => ?_
  · rw [hLabel.found]
    rfl
  · rw [hLabel.place]
    rfl

theorem beginAlways {keyword : Keyword} : walk.Gathers word (walk.beginAlways keyword here) := by
  unfold Walk.beginAlways
  dsimp only
  split <;> exact goto fun _ => rfl

/-- Names in an event control are gathered as they are read. -/
theorem readSensitivity {depth : Nat} :
    walk.Gathers word (walk.readSensitivity process depth here) := by
  have hListed : ∀ process : HdlProcess, walk.Gathers word
      (if depth = 0 then walk.enterBlock false (some process)
        else walk.goto (.sensitivityList process depth)) := by
    intro process
    split <;> exact goto fun _ => rfl
  rw [Walk.readSensitivity]
  dsimp only
  split
  · exact goto fun _ => rfl
  · split <;> exact goto fun _ => rfl
  · exact hListed _
  · exact goto fun _ => rfl
  · exact goto fun _ => rfl
  · exact hListed _
  · exact refl word walk

theorem endStatement : walk.Gathers word (walk.endStatement clocked block here next) := by
  rw [Walk.endStatement]
  split
  · exact stay block
  · split
    · exact backToBody fun _ => rfl
    · exact backToBody fun _ => rfl

theorem sameNames_recordClocked_foldl (found : Findings) (targets : List Word)
    (conditions : List String) :
    found.SameNames (targets.foldl (recordClocked · · conditions) found) := by
  induction targets generalizing found with
  | nil => exact fun _ => rfl
  | cons target targets ih =>
      exact fun category => ih (recordClocked found target conditions) category

/-- An assignment changes the role of a word that is gathered already. -/
theorem readAssignment {nonBlocking : Bool} :
    walk.Gathers word (walk.readAssignment clocked block nonBlocking) := by
  rw [Walk.readAssignment]
  dsimp only
  split
  · exact stay block
  · exact stay _
  · split
    · exact leaves (sameNames_recordClocked_foldl _ _ _) fun _ => rfl
    · exact stay _

/-- Keywords of a block gather nothing. Where they end it, the words of its process are taken over
in the order in which they were read. -/
theorem readBlockKeyword {keyword : Keyword} :
    walk.Gathers word (walk.readBlockKeyword clocked block keyword here next) := by
  have hClose : walk.Gathers word
      (let block := { block with nest := block.nest - 1, statement := {} }
      if block.nest = 0 then walk.endStatement clocked block here next
      else (walk.goto (.alwaysBlock clocked block)).expectLabel false next) := by
    dsimp only
    split
    · exact endStatement
    · exact label _
  unfold Walk.readBlockKeyword
  dsimp only
  split
  case h_9 =>
    split
    · exact stay _
    split
    · exact hClose
    · exact stay _
  all_goals first
    | exact stay _
    | exact label _

theorem readBlock : walk.Gathers word (walk.readBlock clocked block here next) := by
  rw [Walk.readBlock]
  dsimp only
  split
  · exact stay _
  split
  · exact stay _
  split
  · exact stay _
  split
  · split
    · exact endStatement
    · exact stay _
  · exact readBlockKeyword
  · exact stay _
  · split <;> exact stay _
  · exact readAssignment
  · exact readAssignment
  · exact stay _
  · exact stay _
  · exact stay _

theorem readAlwaysHeader : walk.Gathers word (walk.readAlwaysHeader process here next) := by
  rw [Walk.readAlwaysHeader]
  split
  · exact goto fun _ => rfl
  · exact readBlock

/-- A keyword between items opens what it announces, without a word of its own. -/
theorem readItemKeyword {keyword : Keyword} :
    walk.Gathers here.word (walk.readItemKeyword keyword here next) := by
  have hDeclares : ∀ kind, walk.Gathers here.word (walk.beginDeclaration kind here) := fun kind =>
    readDeclaration fun category => by
      rw [Item.held_eq_nil { kind } rfl]
      exact List.nil_sublist _
  unfold Walk.readItemKeyword
  split
  all_goals try with_reducible exact beginAlways
  all_goals try with_reducible exact hDeclares _
  all_goals try exact goto fun _ => rfl
  · have hBlocks : walk.Idles { walk with blocks := walk.blocks + 1 } := ⟨rfl, rfl⟩
    exact idles (hBlocks.trans (.expectLabel _ _ next))
  · exact idles ((Idles.closeBlock walk).trans (.expectLabel _ _ next))
  · exact idles (.closeCase walk)
  · exact idles ⟨rfl, rfl⟩
  · exact idles ⟨rfl, rfl⟩
  · exact idles (.readElse walk next)
  · split
    · exact hDeclares _
    · exact goto fun _ => rfl

theorem readItem : walk.Gathers here.word (walk.readItem here next) := by
  rw [Walk.readItem]
  split
  · exact readChoice
  split
  · exact idles (.endItem walk)
  · exact readItemKeyword
  · exact goto (Instantiation.held_eq_nil rfl)
  · exact goto fun _ => rfl

/-- Every word adds itself at the end of what is gathered, or nothing. -/
theorem read (walk : Walk) (here : Lexeme) (next : Option Lexeme) :
    walk.Gathers here.word (walk.read here next) := by
  rw [Walk.read]
  cases hPlace : walk.place with
  | moduleContext => exact readContext
  | moduleName => exact readModuleName
  | moduleHeader announced => exact readModuleHeader
  | parameterList owner inside item => exact readParameters hPlace
  | portList owner item => exact readPorts hPlace
  | moduleBody => exact readItem
  | declaration item =>
      refine readDeclaration fun category => ?_
      rw [hPlace]
      exact List.Sublist.refl _
  | importClause home => exact readImport hPlace
  | instanceHeader statement depth => exact readInstance hPlace
  | instanceMap statement depth => exact readMap hPlace
  | generateHeader kind depth expr => exact readGenerate
  | generateChoice depth expr => exact readChoice
  | alwaysHeader process => exact readAlwaysHeader
  | sensitivityList process depth => exact readSensitivity
  | alwaysBlock clocked block => exact readBlock
  | skipStatement depth => exact readSkipped
  | skipBlock closer home => exact readSkippedBlock

/-- A label is recorded beside what waits at the place. -/
theorem recordsLabel {other : Walk} (hPlace : other.place = walk.place)
    (hFound : walk.found.Adds .labels word other.found) : walk.Gathers word other := by
  intro category
  rw [Walk.trail, Walk.trail, hPlace, hFound category]
  split
  · next hLabels =>
    subst hLabels
    have hHeld : walk.place.held .labels = [] := by
      cases walk.place with
      | parameterList owner inside item | portList owner item | declaration item =>
          rw [Place.held, Item.held, if_neg (by cases item.kind <;> simp [ItemKind.category])]
      | _ => rfl
    rw [hHeld, List.append_nil, List.append_nil]
  · rw [List.append_nil]
    exact List.sublist_append_left _ _

/-- Wherever the walk stands, what reading a word adds is the word. -/
theorem readWord (walk : Walk) (here : Lexeme) (next : Option Lexeme) :
    walk.Gathers here.word (walk.readWord here next) := by
  rw [Walk.readWord]
  split
  · next labelled hLabel =>
    rw [Walk.readLabel?] at hLabel
    split at hLabel
    · cases hLabel
    · split at hLabel
      · cases hLabel
        exact idles ⟨rfl, rfl⟩
      · cases hLabel
    · split at hLabel
      · cases hLabel
        split
        · refine recordsLabel rfl fun category => ?_
          cases category <;> simp [Walk.collect, Findings.entries, Words.push]
        · exact idles ⟨rfl, rfl⟩
      · cases hLabel
  · exact read ({ walk with label := .idle }.note (.visited walk.place.region.name here.text)) here
      next

end Walk.Gathers

/-- The words of events. -/
def readWords (events : List Event) : List Word := (events.filterMap Event.word?).map Lexeme.word

/-- The words of events that follow an offset follow it as well. -/
theorem Follows.readWords {offset stop : Nat} {events : List Event}
    (h : Follows offset events stop) : Word.Follow offset (readWords events) stop := by
  induction events generalizing offset with
  | nil => exact h
  | cons event events ih =>
      cases event with
      | word here next =>
          obtain ⟨hBehind, hText, hRest⟩ := h
          exact ⟨hBehind, hText, ih hRest⟩
      | _ => exact ih h

namespace Walk

variable {walk other : Walk} {here : Lexeme} {next : Option Lexeme} {events : List Event}
  {offset stop : Nat}

theorem held_absorb (place : Place) (token : Token) (category : Category) :
    (place.absorb token).held category = place.held category := by
  cases place <;> rfl

/-- What a walk has of a category is taken from the words that it reads. -/
theorem trail_run (walk : Walk) (events : List Event) (category : Category) :
    ((walk.run events).trail category).Sublist (walk.trail category ++ readWords events) := by
  induction events generalizing walk with
  | nil => exact List.sublist_append_left _ _
  | cons event events ih =>
      cases event with
      | comment span => exact ih walk
      | directive span => exact ih walk
      | filler token =>
          have hSame : (walk.step (.filler token)).trail category = walk.trail category := by
            rw [trail, step, held_absorb, trail]
          have hRest := ih (walk.step (.filler token))
          rw [hSame] at hRest
          exact hRest
      | word here next =>
          have hWords : readWords (.word here next :: events) = [here.word] ++ readWords events :=
            rfl
          rw [hWords, ← List.append_assoc]
          exact (ih _).trans
            ((Gathers.readWord walk here next category).append (List.Sublist.refl _))
      | ended place =>
          exact (ih _).trans ((walk.trail_flushAt place category).append (List.Sublist.refl _))

/-- The end of a text records what waits, and closes a block. -/
theorem entries_finish (walk : Walk) (size : Nat) (category : Category) :
    ((walk.finish size).found.entries category).Sublist (walk.trail category) := by
  have hFlushed : ((walk.flushAt size).found.entries category).Sublist (walk.trail category) :=
    (List.sublist_append_left _ _).trans (walk.trail_flushAt size category)
  refine finish_of_flushAt
    (P := fun walk' => (walk'.found.entries category).Sublist (walk.trail category))
    hFlushed fun process _ => ?_
  have hSame : ((walk.flushAt size).commitProcess process size).found.entries category =
      (walk.flushAt size).found.entries category := by cases category <;> rfl
  rw [hSame]
  exact hFlushed

/-- In front of a byte offset clocked signals are in order, and so are the targets behind them that
are not recorded yet. -/
structure Records (offset : Nat) (walk : Walk) : Prop where
  sound : walk.place.IsSound
  lead : ∃ known fresh, walk.place.targets = known ++ fresh ∧
    walk.found.clocked.Lead offset known fresh

theorem Records.advance {later : Nat} (h : walk.Records offset) (hLater : offset ≤ later) :
    walk.Records later := by
  obtain ⟨known, fresh, hTargets, hLead⟩ := h.lead
  exact ⟨h.sound, known, fresh, hTargets, hLead.advance hLater⟩

/-- What leaves the targets alone or drops them may record them. -/
theorem Tracks.records_of_targets {word : Word} (h : walk.Tracks word other)
    (hWalk : walk.Records offset)
    (hTargets : other.place.targets = [] ∨ other.place.targets = walk.place.targets) :
    other.Records offset := by
  obtain ⟨known, fresh, hSplit, hLead⟩ := hWalk.lead
  refine ⟨h.sound, ?_⟩
  rcases h.clocked with hSame | ⟨hKept, conditions, hClocked⟩
  · rw [hSame]
    rcases hTargets with hNone | hKept
    · exact ⟨[], [], hNone, hLead.clear⟩
    · exact ⟨known, fresh, hKept.trans hSplit, hLead⟩
  · refine ⟨known ++ fresh, [], hKept.trans (by rw [hSplit, List.append_nil]), ?_⟩
    rw [hClocked, hSplit]
    exact hLead.record

/-- A word that touches no process keeps the records in order. -/
theorem Records.keeps (h : walk.Records offset) (hKeeps : walk.Keeps other)
    (hNone : walk.place.process? = none) : other.Records offset := by
  obtain ⟨known, fresh, -, hLead⟩ := h.lead
  have hOther := hKeeps.current.trans hNone
  refine ⟨Place.isSound_of_none hOther, [], [], Place.targets_of_none hOther, ?_⟩
  rw [hKeeps.clocked]
  exact hLead.clear

/-- An item that ends with the text is recorded from words read already. -/
theorem Records.flushAt (h : walk.Records offset) (place : Nat) :
    (walk.flushAt place).Records offset := by
  unfold Walk.flushAt
  split
  · next owner inside item hPlace =>
    have hNone : walk.place.process? = none := by rw [hPlace]; rfl
    exact h.keeps (.closeParameters (.flush walk item) hNone _ _) hNone
  · next owner item hPlace =>
    have hNone : walk.place.process? = none := by rw [hPlace]; rfl
    exact h.keeps ((Stays.flush walk item).gotoOwner hNone) hNone
  · next item hPlace =>
    have hNone : walk.place.process? = none := by rw [hPlace]; rfl
    exact h.keeps ((Stays.flush walk item).goto hNone rfl) hNone
  · exact h

/-- A word keeps clocked signals in order up to its end. -/
theorem Tracks.records {word : Word} (h : walk.Tracks word other) (hWalk : walk.Records offset)
    (hBehind : offset ≤ word.span.start) (hText : word.HasText)
    (hSize : word.span.stop = word.span.start + word.text.utf8ByteSize) :
    other.Records word.span.stop := by
  have hLater := hWalk.advance (hBehind.trans hText.le)
  rcases h.targets with hNone | hKept | hMore
  · exact h.records_of_targets hLater (.inl hNone)
  · exact h.records_of_targets hLater (.inr hKept)
  · obtain ⟨known, fresh, hSplit, hLead⟩ := hWalk.lead
    have hSame : other.found.clocked = walk.found.clocked := by
      refine h.clocked.resolve_right fun hRecords => ?_
      have hLengths := congrArg List.length (hMore.symm.trans hRecords.1)
      simp at hLengths
    refine ⟨h.sound, known, fresh ++ [word], ?_, hSame ▸ hLead.push hBehind hText hSize⟩
    rw [hMore, hSplit, List.append_assoc]

/-- Words that follow each other keep clocked signals in order. -/
theorem Records.run (h : walk.Records offset) (hFollows : Follows offset events stop)
    (hSizes : ∀ word ∈ readWords events, word.span.stop =
      word.span.start + word.text.utf8ByteSize) :
    (walk.run events).Records stop := by
  induction events generalizing walk offset with
  | nil => exact h.advance hFollows
  | cons event events ih =>
      cases event with
      | comment span => exact ih h hFollows hSizes
      | directive span => exact ih h hFollows hSizes
      | filler token =>
          have hPlace : (walk.place.absorb token).targets = walk.place.targets ∧
              ((walk.place.absorb token).IsSound ↔ walk.place.IsSound) := by
            cases walk.place <;> exact ⟨rfl, Iff.rfl⟩
          obtain ⟨known, fresh, hTargets, hLead⟩ := h.lead
          exact ih ⟨hPlace.2.2 h.sound, known, fresh, hPlace.1.trans hTargets,
            hLead⟩ hFollows hSizes
      | word here next =>
          have hWords : readWords (.word here next :: events) = here.word :: readWords events := rfl
          rw [hWords, List.forall_mem_cons] at hSizes
          obtain ⟨hBehind, hText, hRest⟩ := hFollows
          exact ih ((Tracks.readWord h.sound).records h hBehind hText hSizes.1) hRest hSizes.2
      | ended place => exact ih (h.flushAt place) hFollows hSizes

theorem records_start (region : Region) : (Walk.start region).Records 0 := by
  have hEmpty : ClockedSignals.Lead 0 {} [] [] :=
    ⟨.nil, by simp [ClockedSignals.words], by simp, by simp⟩
  cases region <;> exact ⟨trivial, [], [], rfl, hEmpty⟩

theorem Records.areInOrder (h : walk.Records offset) :
    Word.AreInOrder walk.found.clocked.words := by
  obtain ⟨known, fresh, -, hLead⟩ := h.lead
  exact hLead.order.sublist (List.sublist_append_left _ _)

/-- The end of a text closes a block without recording more of it. -/
theorem Records.finish (h : walk.Records offset) (size : Nat) :
    Word.AreInOrder (walk.finish size).found.clocked.words :=
  finish_of_flushAt (P := (Word.AreInOrder ·.found.clocked.words)) (h.flushAt size).areInOrder
    fun _ _ => (h.flushAt size).areInOrder

end Walk

section Scan

variable (region : Region) (limit : Option Nat) (text : String)

/-- Words are as long as their texts, as they are tokens of the text that is read. -/
theorem size_of_mem_readWords {word : Word}
    (hMem : word ∈ readWords (readEvents text.utf8ByteSize (tokens limit text).list)) :
    word.span.stop = word.span.start + word.text.utf8ByteSize := by
  obtain ⟨lexeme, hLexeme, rfl⟩ := List.mem_map.1 hMem
  obtain ⟨event, hEvent, hWord⟩ := List.mem_filterMap.1 hLexeme
  have hStands := events_standIn limit text event hEvent
  cases event with
  | word here next =>
      obtain rfl := Option.some.inj hWord
      exact (standsIn_inherited _).stop_eq hStands
  | _ => cases hWord

/-- The names of a table are those that its walk has recorded at the end. -/
theorem toFindings_scan : (scan region limit text).table.toFindings =
    (walkThrough region (readEvents text.utf8ByteSize (tokens limit text).list)
      text.utf8ByteSize).found :=
  (walkThrough_located region limit text).align_eq_self

/-- The words of one category stand in the order of the text. -/
theorem scan_entries (category : Category) :
    Word.AreInOrder ((scan region limit text).table.entries category) := by
  have hFollow := (follows_readEvents limit text text.utf8ByteSize).readWords
  have hRun := Walk.trail_run (Walk.start region)
    (readEvents text.utf8ByteSize (tokens limit text).list) category
  have hStart : (Walk.start region).trail category = [] := by
    cases region <;> cases category <;> rfl
  rw [hStart, List.nil_append] at hRun
  rw [toFindings_scan]
  exact hFollow.areInOrder.sublist ((Walk.entries_finish _ _ category).trans hRun)

/-- Clocked signals stand in the order of the targets that they were first recorded for. -/
theorem scan_clocked : Word.AreInOrder (scan region limit text).table.clocked.words := by
  have hRun := (Walk.records_start region).run (follows_readEvents limit text text.utf8ByteSize)
    fun word => size_of_mem_readWords limit text
  rw [toFindings_scan]
  exact hRun.finish text.utf8ByteSize

/-- Each category of names is in the order of the text. -/
theorem areInOrder_fields :
    ∀ field ∈ (scan region limit text).table.fields, Word.AreInOrder field.2 := by
  have hEntries := scan_entries region limit text
  simp only [Findings.fields, List.forall_mem_cons]
  exact ⟨hEntries .modules, scan_clocked region limit text, hEntries .instances, hEntries .labels,
    hEntries .packages, by simp⟩

theorem areInOrder_lists :
    ∀ list ∈ (scan region limit text).table.lists, Word.AreInOrder list.2.names := by
  have hEntries := scan_entries region limit text
  simp only [Findings.lists, List.forall_mem_cons]
  exact ⟨hEntries .ports, hEntries .parameters, hEntries .objects, by simp⟩

end Scan

end HdlIndex.Verilog

import HdlIndex.Proofs.Symbols.Ledger
import HdlIndex.Proofs.Vhdl.Turns
import HdlIndex.Proofs.Vhdl.WordOrder

/-! The processes of a walk, event by event: how the ledger changes, and where its processes stand
in the text. The end of a process is known one word early, so that for one word the walk is ahead of
what it has read: it waits for the word `process`, which changes nothing. -/
namespace HdlIndex.Vhdl.Walk

variable {walk other : Walk} {here : Lexeme} {next : Option Lexeme} {word : Word}
  {events : List Event} {offset stop size : Nat}

/-- The ledgers in front of the events and behind each of them. -/
def ledgers : Walk → List Event → List Ledger
  | walk, [] => [walk.ledger]
  | walk, event :: events => walk.ledger :: ledgers (walk.step event) events

theorem Keeps.ledger (h : walk.Keeps word other) : other.ledger = walk.ledger := by
  rw [Walk.ledger, h.current, h.processes, Walk.ledger]

/-- Reading a word is a step of the ledger. -/
theorem Turn.ledgerStep (h : walk.Turn here next other) : Ledger.Step walk.ledger other.ledger := by
  cases h with
  | keeps h => exact h.ledger ▸ .refl walk.ledger
  | opens h =>
      rw [ledger, h]
      exact .opens _ (HdlProcess.isFresh_starting _ _)
  | grows h hContinues hPlace =>
      rw [ledger, ledger, h, goto, hPlace]
      exact .grows _ _ hContinues
  | @closes process token h hNext =>
      have hClosed : ((walk.commitProcess process token.span.stop).skip .architectureBody).ledger =
          ⟨none, walk.found.processes.toList ++ [process.close token.span.stop]⟩ := by
        simp [ledger, commitProcess, skip, goto, collect, note, Place.process?, Home.process?]
      rw [hClosed, ledger, h]
      exact .closes _ _ _

theorem process?_absorb (place : Place) (token : Token) :
    (place.absorb token).process? = place.process? := by
  cases place with
  | interfaceDeclaration list element =>
      rw [Place.absorb, Place.process?_interfaceDeclaration, Place.process?_interfaceDeclaration]
  | _ => rfl

/-- One event opens a process, closes it or leaves the ledger alone. -/
theorem step_ledger (h : walk.place.Lists) (event : Event) :
    Ledger.Step walk.ledger (walk.step event).ledger ∧ (walk.step event).place.Lists := by
  cases event with
  | comment span => exact ⟨.refl walk.ledger, h⟩
  | filler token =>
      have hSame : (walk.step (.filler token)).ledger = walk.ledger := by
        rw [ledger, step, process?_absorb, ledger]
      exact ⟨hSame ▸ .refl walk.ledger, lists_absorb h token⟩
  | word here before next =>
      have hTurn : (walk.note (.visited walk.place.region.name here.text)).Turn here next
          (walk.step (.word here before next)) := Turn.read h
      exact ⟨hTurn.ledgerStep, hTurn.lists⟩

/-- So the ledgers along a run form a chain of steps. -/
theorem isChain_ledgers (h : walk.place.Lists) (events : List Event) :
    (walk.ledgers events).IsChain Ledger.Step := by
  induction events generalizing walk with
  | nil => exact .singleton _
  | cons event events ih =>
      obtain ⟨hStep, hLists⟩ := step_ledger h event
      have hRest := ih hLists
      cases events with
      | nil => exact .cons_cons hStep hRest
      | cons second events => exact .cons_cons hStep hRest

/-- The last of the ledgers is that of the walk the run ends in. -/
theorem getLast?_ledgers (walk : Walk) (events : List Event) :
    (walk.ledgers events).getLast? = some (walk.run events).ledger := by
  induction events generalizing walk with
  | nil => rfl
  | cons event events ih =>
      have hRest := ih (walk.step event)
      rw [ledgers, List.getLast?_cons, hRest]
      rfl

/-- In front of a byte offset the processes are in order, and a process that begins now begins
behind all of them. A label waits for a process only where none is open. -/
structure Ordered (offset : Nat) (walk : Walk) : Prop where
  ledger : walk.ledger.Ordered offset
  begins : ∀ word, word ∈ walk.label ∨ word ∈ walk.place.first? → word.span.start < offset ∧
    ∀ process ∈ walk.found.processes.toList, process.span.stop ≤ word.span.start
  free : walk.place.process?.isSome = true → walk.label = none
  lists : walk.place.Lists

/-- The walk is ahead of the events up to the end of the word `process` that comes next. -/
def Awaits (events : List Event) (walk : Walk) : Prop :=
  ∃ lexeme, firstWord? events = some lexeme ∧ lexeme.symbol = .keyword .process ∧
    walk.place = .skipStatement .architectureBody 0 ∧ walk.Ordered lexeme.span.stop

/-- What is in order up to an offset is so up to a later one. -/
theorem Ordered.advance {later : Nat} (h : walk.Ordered offset) (hLater : offset ≤ later) :
    walk.Ordered later where
  __ := h
  ledger := h.ledger.advance hLater
  begins word hWord := ⟨(h.begins word hWord).1.trans_le hLater, (h.begins word hWord).2⟩

/-- A word that leaves the processes alone leaves them in order, up to its end. -/
theorem Ordered.keeps (h : walk.Ordered offset) (hKeeps : walk.Keeps here.word other)
    (hBehind : offset ≤ here.span.start) (hOrder : here.span.start < here.span.stop) :
    other.Ordered here.span.stop := by
  have hLater : offset ≤ here.span.stop := hBehind.trans hOrder.le
  have hHere : here.word.span.start < here.span.stop ∧
      ∀ process ∈ walk.found.processes.toList, process.span.stop ≤ here.word.span.start :=
    ⟨hOrder, fun process hMem => (h.ledger.ended process hMem).2.trans hBehind⟩
  refine ⟨hKeeps.ledger ▸ h.ledger.advance hLater, fun word hWord => ?_, fun hOpen => ?_,
    hKeeps.lists⟩
  · rw [hKeeps.processes]
    rcases hWord with hLabel | hFirst
    · exact (h.advance hLater).begins word (hKeeps.label word hLabel)
    · rcases hKeeps.first word hFirst with rfl | hFirst
      · exact hHere
      · exact (h.advance hLater).begins word (.inr hFirst)
  · rw [hKeeps.current] at hOpen
    rw [Option.eq_none_iff_forall_not_mem]
    intro word hLabel
    rcases hKeeps.label word hLabel with hOld | hFirst
    · simp [h.free hOpen] at hOld
    · simp [Place.first?_of_process? hOpen] at hFirst

/-- A process begins at its label or at its first word. -/
theorem Ordered.opens (h : walk.Ordered offset) (hNone : walk.place.process? = none)
    (hBehind : offset ≤ here.span.start) (hOrder : here.span.start < here.span.stop) :
    (walk.beginProcess here).Ordered here.span.stop := by
  have hLater : offset ≤ here.span.stop := hBehind.trans hOrder.le
  have hLedger := h.ledger
  rw [Walk.ledger, hNone] at hLedger
  have hStart : (walk.label.map (·.span.start)).getD here.span.start < here.span.stop ∧
      ∀ process ∈ walk.found.processes.toList,
        process.span.stop ≤ (walk.label.map (·.span.start)).getD here.span.start := by
    cases hLabel : walk.label with
    | none => exact ⟨hOrder, fun process hMem => (h.ledger.ended process hMem).2.trans hBehind⟩
    | some label => exact (h.advance hLater).begins label (.inl hLabel)
  refine ⟨hLedger.opens (HdlProcess.isFresh_starting _ _) hStart.1 hLater hStart.2, ?_,
    fun _ => rfl, rfl⟩
  rintro word (hLabel | hFirst)
  · cases hLabel
  · cases hFirst

/-- A word that is added to the process stands behind all of its words. -/
theorem Ordered.grows {process grown : HdlProcess} {place : Place} (h : walk.Ordered offset)
    (hOpen : walk.place.process? = some process) (hContinues : process.Continues here.word grown)
    (hPlace : place.process? = some grown) (hLists : place.Lists)
    (hBehind : offset ≤ here.span.start) (hOrder : here.span.start < here.span.stop) :
    (walk.goto place).Ordered here.span.stop := by
  have hLedger := h.ledger
  rw [Walk.ledger, hOpen] at hLedger
  have hLabel : walk.label = none := h.free (by simp [hOpen])
  refine ⟨?_, ?_, fun _ => hLabel, hLists⟩
  · rw [Walk.ledger, goto, hPlace]
    exact hLedger.grows hContinues hBehind hOrder
  · rintro word (hWord | hFirst)
    · rw [goto, hLabel] at hWord
      cases hWord
    · rw [goto, Place.first?_of_process? (by simp [hPlace])] at hFirst
      cases hFirst

/-- A closed process ends at the offset up to which the walk is in order then. -/
theorem Ordered.commitProcess {process : HdlProcess} (h : walk.Ordered offset)
    (hOpen : walk.place.process? = some process) (hLater : offset ≤ stop) :
    Ledger.Ordered stop ⟨none, (walk.commitProcess process stop).found.processes.toList⟩ := by
  have hLedger := h.ledger
  rw [Walk.ledger, hOpen] at hLedger
  simpa [Walk.commitProcess, collect, note] using hLedger.closes hLater

/-- A process that closes ends behind all of its words, where the next one cannot have begun. -/
theorem Ordered.closes {process : HdlProcess} (h : walk.Ordered offset)
    (hOpen : walk.place.process? = some process) (hLater : offset ≤ stop) :
    ((walk.commitProcess process stop).skip .architectureBody).Ordered stop := by
  have hLabel : walk.label = none := h.free (by simp [hOpen])
  refine ⟨h.commitProcess hOpen hLater, ?_, fun _ => hLabel, trivial⟩
  rintro word (hWord | hFirst)
  · have hNone : word ∈ walk.label := hWord
    rw [hLabel] at hNone
    cases hNone
  · cases hFirst

/-- Behind a word the walk is in order up to the word's end, or up to the end of the next one. -/
theorem Turn.ordered (h : walk.Turn here next other) (hWalk : walk.Ordered offset)
    (hBehind : offset ≤ here.span.start) (hOrder : here.span.start < here.span.stop)
    (hNext : ∀ lexeme ∈ next, lexeme.symbol.isKeyword = true → firstWord? events = some lexeme)
    (hFollows : Follows here.span.stop events stop) :
    other.Ordered here.span.stop ∨ other.Awaits events := by
  cases h with
  | keeps h => exact .inl (hWalk.keeps h hBehind hOrder)
  | opens h => exact .inl (hWalk.opens h hBehind hOrder)
  | grows h hContinues hPlace hFirst hLists =>
      exact .inl (hWalk.grows h hContinues hPlace hLists hBehind hOrder)
  | @closes process token h hSeen =>
      have hComes : firstWord? events = some ⟨token, .keyword .process⟩ := hNext _ hSeen rfl
      obtain ⟨hStart, hToken⟩ := hFollows.firstWord hComes
      refine .inr ⟨_, hComes, rfl, rfl, hWalk.closes h ?_⟩
      exact ((hBehind.trans hOrder.le).trans hStart).trans hToken.le

/-- The word `process` that the walk waits for changes nothing. -/
theorem Awaits.read {before : Option Lexeme} (h : walk.Awaits (.word here before next :: events)) :
    walk.read here before next = walk ∧ walk.Ordered here.span.stop := by
  obtain ⟨lexeme, hFirst, hSymbol, hPlace, hOrdered⟩ := h
  obtain rfl : here = lexeme := Option.some.inj hFirst
  rw [Walk.read, hPlace]
  dsimp only
  rw [readSkipped, hSymbol]
  exact ⟨rfl, hOrdered⟩

/-- Blanks change no process. -/
theorem Ordered.absorb (h : walk.Ordered offset) (token : Token) :
    Ordered offset { walk with place := walk.place.absorb token } where
  ledger := by
    have hSame : Walk.ledger { walk with place := walk.place.absorb token } = walk.ledger := by
      rw [Walk.ledger, process?_absorb, Walk.ledger]
    exact hSame ▸ h.ledger
  begins word hWord := by
    have hFirst : (walk.place.absorb token).first? = walk.place.first? := by
      cases walk.place <;> rfl
    exact h.begins word (hWord.imp_right (hFirst ▸ ·))
  free hOpen := h.free (by rwa [process?_absorb] at hOpen)
  lists := lists_absorb h.lists token

theorem Ordered.note (h : walk.Ordered offset) (note : Note) : (walk.note note).Ordered offset :=
  ⟨h.ledger, h.begins, h.free, h.lists⟩

theorem Awaits.note (h : walk.Awaits events) (note : Note) : (walk.note note).Awaits events := by
  obtain ⟨lexeme, hFirst, hSymbol, hPlace, hOrdered⟩ := h
  exact ⟨lexeme, hFirst, hSymbol, hPlace, hOrdered.note note⟩

/-- Blanks and string contents keep the walk in order, or let it wait. -/
theorem ordered_filler (token : Token)
    (h : walk.Ordered offset ∨ walk.Awaits (.filler token :: events)) :
    (walk.step (.filler token)).Ordered offset ∨ (walk.step (.filler token)).Awaits events := by
  refine h.imp (·.absorb token) ?_
  rintro ⟨lexeme, hFirst, hSymbol, hPlace, hOrdered⟩
  refine ⟨lexeme, hFirst, hSymbol, ?_, hOrdered.absorb token⟩
  rw [step, hPlace]
  rfl

/-- A word leads the walk in order to its end, or to the end of the next one. -/
theorem ordered_word {before : Option Lexeme}
    (hFollows : Follows offset (.word here before next :: events) stop)
    (h : walk.Ordered offset ∨ walk.Awaits (.word here before next :: events)) :
    (walk.step (.word here before next)).Ordered here.span.stop ∨
      (walk.step (.word here before next)).Awaits events := by
  obtain ⟨hBehind, hOrder, hNext, hRest⟩ := hFollows
  rcases h with hOrdered | hAwaits
  · have hNoted := hOrdered.note (.visited walk.place.region.name here.text)
    exact Turn.ordered (Turn.read hNoted.lists) hNoted hBehind hOrder hNext hRest
  · obtain ⟨hSame, hEnd⟩ := (hAwaits.note (.visited walk.place.region.name here.text)).read
    exact .inl (by rwa [step, hSame])

/-- Words that follow each other lead the walk in order to where they end. -/
theorem ordered_run (hFollows : Follows offset events stop)
    (h : walk.Ordered offset ∨ walk.Awaits events) : (walk.run events).Ordered stop := by
  induction events generalizing walk offset with
  | nil =>
      rcases h with hOrdered | ⟨lexeme, hFirst, -⟩
      · exact hOrdered.advance hFollows
      · cases hFirst
  | cons event events ih =>
      cases event with
      | comment span => exact ih hFollows h
      | filler token => exact ih hFollows (ordered_filler token h)
      | word here before next => exact ih hFollows.2.2.2 (ordered_word hFollows h)

theorem ordered_start (region : Region) : (Walk.start region).Ordered 0 := by
  cases region
  all_goals
    refine ⟨.empty 0, ?_, fun _ => rfl, trivial⟩
    rintro word (hLabel | hFirst)
    · cases hLabel
    · cases hFirst

/-- The end of the text closes what is open. -/
theorem ordered_finish (h : walk.Ordered offset) (hSize : offset ≤ size) :
    Ledger.Ordered size ⟨none, (walk.finish size).found.processes.toList⟩ ∧
    Ledger.Step walk.ledger ⟨none, (walk.finish size).found.processes.toList⟩ := by
  obtain ⟨ended, hKeeps, hFinish⟩ := finish_eq h.lists size (.absent size)
  have hLedger : ended.ledger = walk.ledger := hKeeps.ledger
  cases hOpen : walk.place.process? with
  | none =>
      have hNone : ended.ledger = ⟨none, (walk.finish size).found.processes.toList⟩ := by
        rw [hFinish, hOpen, Walk.ledger, hKeeps.current, hOpen]
      rw [← hNone, hLedger]
      exact ⟨h.ledger.advance hSize, .refl _⟩
  | some process =>
      have hClosed : (walk.finish size).found.processes.toList =
          walk.found.processes.toList ++ [process.close size] := by
        rw [hFinish, hOpen, ← hKeeps.processes]
        simp [commitProcess, collect, note]
      rw [hClosed]
      have hWalk : walk.ledger = ⟨some process, walk.found.processes.toList⟩ := by
        rw [Walk.ledger, hOpen]
      exact ⟨(hWalk ▸ h.ledger).closes hSize, hWalk ▸ .closes process _ size⟩

end HdlIndex.Vhdl.Walk

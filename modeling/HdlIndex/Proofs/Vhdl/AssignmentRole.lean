import HdlIndex.Proofs.ClockedSignals
import HdlIndex.Proofs.Symbols.Gained
import HdlIndex.Proofs.Vhdl.ProcessExtent
import HdlIndex.Proofs.Vhdl.WordOrder
import HdlIndex.Proofs.Vhdl.Units

/-! The roles that the statements of a process give to the names they begin with. The symbol `<=` is
an assignment and a comparison, and a walk does not tell them apart: outside of parentheses every
one of them makes the name that begins the statement a target. -/
namespace HdlIndex.Vhdl

/-- The symbol begins the next statement wherever it stands. -/
def Symbol.beginsNext : Symbol → Bool
  | semicolon | arrow | keyword .then | keyword .else | keyword .begin | keyword
      .loop | keyword .is =>
    true
  | _ => false

/-- The event ends a process. -/
def Event.endsProcess : Event → Bool
  | .word here _ (some next) => here.symbol = .keyword .end && next.symbol = .keyword .process
  | _ => false

/-- The words among the events. -/
def lexemes (events : List Event) : List Lexeme := events.filterMap Event.word?

/-- The events hold nothing that ends a statement, and no second `:=`. -/
structure AreInner (events : List Event) : Prop where
  words : ∀ word ∈ lexemes events, word.symbol.beginsNext = false ∧ word.symbol ≠ .becomes
  «open» : ∀ event ∈ events, event.endsProcess = false

@[simp]
theorem lexemes_word (here : Lexeme) (before next : Option Lexeme) (events : List Event) :
    lexemes (.word here before next :: events) = here :: lexemes events :=
  rfl

/-- What is inside of a statement remains so without its first event. -/
theorem AreInner.of_cons {event : Event} {events : List Event} (h : AreInner (event :: events)) :
    AreInner events where
  words word hWord := h.words word (by
    rw [lexemes, List.filterMap_cons]
    split
    · exact hWord
    · exact List.mem_cons_of_mem _ hWord)
  «open» other hOther := h.open other (List.mem_cons_of_mem _ hOther)

/-- The depth of parentheses behind some words. -/
def depthBehind (depth : Nat) (words : List Lexeme) : Nat :=
  words.foldl (fun depth word => Walk.depthAfter depth word.symbol) depth

/-- One of the words is `<=` outside of parentheses, with `depth` of them open in front. -/
def hasDrives : (depth : Nat) → List Lexeme → Bool
  | _, [] => false
  | depth, word :: words =>
    (word.symbol = .drives && depth = 0) || hasDrives (Walk.depthAfter depth word.symbol) words

/-- A colon stands behind nothing but `<=`. It makes a label of a name in front. -/
def beginsWithColon (words : List Lexeme) : Bool :=
  (words.dropWhile (·.symbol = .drives)).head?.any (·.symbol = .colon)

/-- The process in which the word that a statement begins with has a role, if it is a name. -/
def Sequential.marked (statement : Sequential) (process : HdlProcess) (role : Role) : HdlProcess :=
  statement.first.elim process (process.mark · role)

namespace Sequential

variable {statement : Sequential} {process : HdlProcess} {role other : Role}

theorem size_marked : (statement.marked process role).body.size = process.body.size := by
  rw [marked]
  cases statement.first <;> simp [HdlProcess.mark]

/-- A target that is marked again has its last role. -/
theorem marked_marked :
    statement.marked (statement.marked process role) other = statement.marked process other := by
  simp only [marked]
  cases statement.first with
  | none => rfl
  | some index => exact HdlProcess.mark_mark

/-- Marking the target and adding words may be exchanged, as the target is among the words that are
there. -/
theorem marked_gain (h : ∀ index ∈ statement.first, index < process.body.size)
    (entries : List BodyWord) (edge : Bool) :
    (statement.marked process role).gain entries edge =
      statement.marked (process.gain entries edge) role := by
  simp only [marked]
  cases hFirst : statement.first with
  | none => rfl
  | some index => exact HdlProcess.mark_gain_of_lt (h index hFirst)

end Sequential

/-- The role of the name in front of an assignment. Outside of parentheses `<=` in its value is
taken for the symbol of an assignment. -/
def Assignment.roleBefore (operator : Assignment) (value : List Event) : Role :=
  if hasDrives 0 (lexemes value) then .target else operator.role

/-- No assignment makes a target a word that is only read. -/
theorem Assignment.roleBefore_ne_read (operator : Assignment) (value : List Event) :
    operator.roleBefore value ≠ .read := by
  rw [roleBefore]
  split
  · decide
  · cases operator <;> decide

/-- The events are an assignment: a name, what selects a part of it, the first symbol of an
assignment that stands outside of parentheses, a value, and the word that begins the next statement.
Layout may stand between them. -/
inductive IsAssignment (depth : Nat) (operator : Assignment) (name : Lexeme) (value : List Event) :
    List Event → Prop where
  | intro {lead part : List Event} {symbol ending : Lexeme}
      {before next before' next' before'' next'' : Option Lexeme}
      (hLead : lexemes lead = [])
      (hName : name.symbol = .name) (hBefore : ∀ lexeme ∈ before, lexeme.symbol ≠ .tick)
      (hPart : AreInner part) (hLabel : beginsWithColon (lexemes part) = false)
      (hSelects : hasDrives depth (lexemes part) = false)
      (hDepth : depthBehind depth (lexemes part) = 0)
      (hSymbol : symbol.symbol = .ofText operator.symbol)
      (hValue : AreInner value) (hColon : beginsWithColon (lexemes value) = false)
      (hEnding : ending.symbol.beginsNext = true) :
      IsAssignment depth operator name value
        (lead ++ .word name before next :: (part ++
          .word symbol before' next' :: (value ++ [.word ending before'' next''])))

/-- The events are a part of a body that assigns nothing: a header, a label, a call, or the part of
an expression between two words that begin a statement. If it begins with a name, `<=` stands in
parentheses only. -/
inductive IsPassage (depth : Nat) : List Event → Nat → Prop where
  | ending {lead : List Event} {ending : Lexeme} {before next : Option Lexeme}
      (hLead : lexemes lead = []) (hEnding : ending.symbol.beginsNext = true) :
      IsPassage depth (lead ++ [.word ending before next]) depth
  | label {lead layout : List Event} {name colon : Lexeme}
      {before next before' next' : Option Lexeme}
      (hLead : lexemes lead = []) (hName : name.symbol = .name)
      (hBefore : ∀ lexeme ∈ before, lexeme.symbol ≠ .tick) (hLayout : lexemes layout = [])
      (hColon : colon.symbol = .colon) :
      IsPassage depth (lead ++ .word name before next ::
        (layout ++ [.word colon before' next'])) depth
  | words {lead rest : List Event} {first ending : Lexeme}
      {before next before' next' : Option Lexeme}
      (hLead : lexemes lead = []) (hInner : AreInner (.word first before next :: rest))
      (hFirst : first.symbol ≠ .drives ∧ first.symbol ≠ .colon)
      (hLabel : beginsWithColon (lexemes rest) = false)
      (hName : first.symbol = .name → hasDrives depth (lexemes rest) = false)
      (hEnding : ending.symbol.beginsNext = true) :
      IsPassage depth (lead ++ .word first before next :: (rest ++ [.word ending before' next']))
        (depthBehind depth (lexemes (.word first before next :: rest)))

/-- The events are a part of a body from the start of one statement to the start of another, and
these are the names that its assignments begin with. -/
inductive IsBody : (depth : Nat) → List Event → Nat → List BodyWord → Prop where
  | layout {depth : Nat} {events : List Event} (h : lexemes events = []) :
      IsBody depth events depth []
  | assignment {depth depth' : Nat} {operator : Assignment} {name : Lexeme}
      {value events others : List Event}
      {assigned : List BodyWord} (h : IsAssignment depth operator name value events)
      (hRest : IsBody (depthBehind 0 (lexemes value)) others depth' assigned) :
      IsBody depth (events ++ others) depth' (⟨name.word, operator.roleBefore value⟩ :: assigned)
  | passage {depth between depth' : Nat} {events others : List Event} {assigned : List BodyWord}
      (h : IsPassage depth events between) (hRest : IsBody between others depth' assigned) :
      IsBody depth (events ++ others) depth' assigned

namespace Walk

variable {base walk : Walk} {process : HdlProcess} {depth : Nat} {statement : Sequential}
  {events : List Event} {here : Lexeme} {before next : Option Lexeme}

/-- In a process's statements a word is read with what is known of the statement. -/
theorem Stands.step_body {place : Place}
    (hStands : base.Stands (.processBody process depth statement) walk)
    (hRead : ∀ noted, base.Stands (.processBody process depth statement) noted →
      base.Stands place (noted.readBody process depth statement here before next)) :
    base.Stands place (walk.step (.word here before next)) := by
  obtain ⟨notes, rfl⟩ := hStands
  exact hRead _ ⟨_, rfl⟩

/-- Comments and white space leave the walk where it stands. -/
theorem Stands.layout {place : Place} (hStands : base.Stands place walk)
    (hPlace : ∀ token, place.absorb token = place) (hEvents : lexemes events = []) :
    base.Stands place (walk.run events) := by
  induction events generalizing walk with
  | nil => exact hStands
  | cons event events ih =>
      cases event with
      | comment span => exact ih hStands hEvents
      | filler token =>
          obtain ⟨notes, rfl⟩ := hStands
          exact ih ⟨notes, by simp [step, hPlace]⟩ hEvents
      | word here before next => cases hEvents

/-- What a word adds to the body of a process: a name that is no attribute is read. -/
def bodyEntries (here : Lexeme) (before : Option Lexeme) : List BodyWord :=
  if here.symbol = .name && ! before.any (·.symbol = .tick) then [⟨here.word, .read⟩] else []

/-- Words are read first; what assigns to them marks them later. -/
theorem role_of_mem_bodyEntries {entry : BodyWord} (h : entry ∈ bodyEntries here before) :
    entry.role = .read := by
  rw [bodyEntries] at h
  split at h
  · rw [List.mem_singleton.1 h]
  · cases h

/-- A word that leaves its statement open. -/
theorem Stands.readBodyWord (hStands : base.Stands (.processBody process depth statement) walk)
    (here : Lexeme) (before : Option Lexeme) :
    let ticked := before.any (·.symbol = .tick)
    base.Stands (.processBody (process.gain (bodyEntries here before) (detectsEdge here ticked))
        (depthAfter depth here.symbol)
        ⟨statement.count + 1, if statement.count = 0 ∧ bodyEntries here before ≠ [] then
          some process.body.size else statement.first⟩)
      (walk.readBodyWord process depth statement here ticked) := by
  obtain ⟨notes, rfl⟩ := hStands
  dsimp only
  rw [bodyEntries]
  generalize before.any (·.symbol = .tick) = ticked
  have hProcess : (if detectsEdge here ticked = true then { process with clocked := true }
      else process) = process.gain [] (detectsEdge here ticked) := by
    cases detectsEdge here ticked <;> simp [HdlProcess.gain]
  rw [Walk.readBodyWord, hProcess]
  refine ⟨notes, ?_⟩
  cases hNames : here.symbol = .name && ! ticked with
  | false => simp [goto]
  | true =>
      rw [if_pos rfl, if_pos rfl, HdlProcess.pushBody_eq_gain, HdlProcess.gain_gain]
      simp [HdlProcess.gain, goto]

/-- Outside of parentheses the symbol of an assignment gives a role to the name that its statement
begins with. -/
theorem Stands.readBody_operator (hStands : base.Stands (.processBody process 0 statement) walk)
    (operator : Assignment) (hSymbol : here.symbol = .ofText operator.symbol)
    (before next : Option Lexeme) :
    base.Stands (.processBody (statement.marked process operator.role) 0 statement)
      (walk.readBody process 0 statement here before next) := by
  obtain ⟨notes, rfl⟩ := hStands
  cases operator <;>
    simp only [Walk.readBody, hSymbol, Assignment.symbol, Symbol.ofText, if_true, markTarget,
      Sequential.marked] <;>
    cases statement.first <;> exact ⟨_, rfl⟩

/-- Any other word inside of a statement leaves it open. -/
theorem readBody_eq (walk : Walk) (process : HdlProcess)
    (hWord : here.symbol.beginsNext = false ∧ here.symbol ≠ .becomes)
    (hOpen : (Event.word here before next).endsProcess = false)
    (hColon : here.symbol = .colon → statement.count ≠ 1)
    (hDrives : here.symbol = .drives → depth ≠ 0) :
    walk.readBody process depth statement here before next =
      walk.readBodyWord process depth statement here (before.any (·.symbol = .tick)) := by
  unfold readBody
  dsimp only
  split
  case h_8 hSymbol => exact if_neg (hColon hSymbol)
  case h_9 hSymbol => exact if_neg (hDrives hSymbol)
  case h_10 hSymbol => exact absurd hSymbol hWord.2
  case h_11 hSymbol =>
    split
    · simp [Event.endsProcess, hSymbol] at hOpen
    · rfl
  case h_12 => rfl
  all_goals
    rename_i hSymbol
    rw [hSymbol] at hWord
    cases hWord.1

/-- A word inside of a statement is added to the process. It ends no statement, names no label, and
no arrow of it stands outside of parentheses. -/
theorem Stands.step_inner (hStands : base.Stands (.processBody process depth statement) walk)
    (hWord : here.symbol.beginsNext = false ∧ here.symbol ≠ .becomes)
    (hOpen : (Event.word here before next).endsProcess = false)
    (hColon : here.symbol = .colon → statement.count ≠ 1)
    (hDrives : here.symbol = .drives → depth ≠ 0) :
    base.Stands (.processBody
        (process.gain (bodyEntries here before) (detectsEdge here (before.any (·.symbol = .tick))))
        (depthAfter depth here.symbol)
        ⟨statement.count + 1, if statement.count = 0 ∧ bodyEntries here before ≠ [] then
          some process.body.size else statement.first⟩)
      (walk.step (.word here before next)) := by
  refine hStands.step_body fun noted hNoted => ?_
  rw [readBody_eq noted process hWord hOpen hColon hDrives]
  exact hNoted.readBodyWord here before

/-- The words inside of a statement that has begun add what they read to the body. If one of them is
`<=` outside of parentheses, the name that the statement begins with becomes a target. -/
theorem Stands.run_inner (hStands : base.Stands (.processBody process depth statement) walk)
    (hInner : AreInner events) (hCount : statement.count ≠ 0)
    (hColon : statement.count = 1 → beginsWithColon (lexemes events) = false)
    (hFirst : ∀ index ∈ statement.first, index < process.body.size) :
    ∃ entries edge count, (∀ entry ∈ entries, entry.role = .read) ∧
      base.Stands (.processBody
          (if hasDrives depth (lexemes events) then
            statement.marked (process.gain entries edge) .target
          else process.gain entries edge)
          (depthBehind depth (lexemes events)) ⟨count + 1, statement.first⟩) (walk.run events) := by
  induction events generalizing walk process depth statement with
  | nil =>
      obtain ⟨count, hCount⟩ := Nat.exists_eq_succ_of_ne_zero hCount
      refine ⟨[], false, count, by simp, ?_⟩
      rw [HdlProcess.gain_nil, ← Nat.succ_eq_add_one, ← hCount]
      exact hStands
  | cons event events ih =>
      have hRest := hInner.of_cons
      cases event with
      | comment span => exact ih hStands hRest hCount hColon hFirst
      | filler token =>
          obtain ⟨notes, rfl⟩ := hStands
          exact ih ⟨notes, rfl⟩ hRest hCount hColon hFirst
      | word here before next =>
          rw [lexemes_word] at hColon ⊢
          rw [hasDrives, depthBehind, List.foldl_cons, ← depthBehind]
          have hWord := hInner.words here List.mem_cons_self
          have hOpen := hInner.open _ List.mem_cons_self
          show ∃ entries edge count, _ ∧
            base.Stands _ ((walk.step (.word here before next)).run events)
          by_cases hDrives : here.symbol = .drives ∧ depth = 0
          · obtain ⟨hSymbol, rfl⟩ := hDrives
            have hMarked := hStands.step_body fun _ h =>
              h.readBody_operator .signal hSymbol before next
            have hColon' : statement.count = 1 → beginsWithColon (lexemes events) = false := by
              simpa [beginsWithColon, hSymbol] using hColon
            obtain ⟨entries, edge, count, hEntries, hRun⟩ :=
              ih hMarked hRest hCount hColon' (by rwa [Sequential.size_marked])
            refine ⟨entries, edge, count, hEntries, ?_⟩
            rw [Sequential.marked_gain hFirst, Assignment.role, Sequential.marked_marked,
              ite_self] at hRun
            simpa [hSymbol, depthAfter] using hRun
          · have hRead := hStands.step_inner hWord hOpen
              (fun hSymbol hOne => by simp [beginsWithColon, hSymbol, hOne] at hColon)
              fun hSymbol hDepth => hDrives ⟨hSymbol, hDepth⟩
            rw [if_neg fun h => hCount h.1] at hRead
            obtain ⟨entries, edge, count, hEntries, hRun⟩ := ih hRead hRest (Nat.succ_ne_zero _)
              (fun hOne => absurd (Nat.succ.inj hOne) hCount)
              fun index hIndex => HdlProcess.size_gain ▸ Nat.lt_add_right _ (hFirst index hIndex)
            refine ⟨bodyEntries here before ++ entries,
              detectsEdge here (before.any (·.symbol = .tick)) || edge, count, ?_, ?_⟩
            · rw [List.forall_mem_append]
              exact ⟨fun _ => role_of_mem_bodyEntries, hEntries⟩
            · have hBare : (here.symbol = .drives && depth = 0 : Bool) = false := by
                simpa using hDrives
              rw [HdlProcess.gain_gain] at hRun
              rw [hBare, Bool.false_or]
              exact hRun

/-- Where no name begins the statement, or `<=` stands in parentheses only, all its names are
read. -/
theorem Stands.run_reads (hStands : base.Stands (.processBody process depth statement) walk)
    (hInner : AreInner events) (hCount : statement.count ≠ 0)
    (hColon : beginsWithColon (lexemes events) = false)
    (hFirst : ∀ index ∈ statement.first, index < process.body.size)
    (hSpared : hasDrives depth (lexemes events) = true → statement.first = none) :
    ∃ entries edge count, (∀ entry ∈ entries, entry.role = .read) ∧
      base.Stands (.processBody (process.gain entries edge) (depthBehind depth (lexemes events))
        ⟨count + 1, statement.first⟩) (walk.run events) := by
  obtain ⟨entries, edge, count, hEntries, hRun⟩ :=
    hStands.run_inner hInner hCount (fun _ => hColon) hFirst
  refine ⟨entries, edge, count, hEntries, ?_⟩
  split at hRun
  · next hDrives =>
    rw [Sequential.marked, hSpared hDrives] at hRun
    rw [hSpared hDrives]
    exact hRun
  · exact hRun

/-- What ends a statement begins the next one, and leaves parentheses as they are. -/
theorem Stands.run_ending (hStands : base.Stands (.processBody process depth statement) walk)
    (hEnding : here.symbol.beginsNext = true) (before next : Option Lexeme) :
    base.Stands (.processBody process depth {}) (walk.run [.word here before next]) := by
  obtain ⟨notes, rfl⟩ := hStands
  refine ⟨.visited (Place.processBody process depth statement).region.name here.text :: notes, ?_⟩
  show readBody _ process depth statement here before next = _
  unfold Symbol.beginsNext at hEnding
  split at hEnding
  case h_8 => cases hEnding
  all_goals
    rename_i hSymbol
    simp only [readBody, hSymbol]
    rfl

/-- The symbol of an assignment and its value decide on the role of the name that the statement
begins with. -/
theorem Stands.run_value {operator : Assignment} {value : List Event}
    (hStands : base.Stands (.processBody process 0 statement) walk)
    (hSymbol : here.symbol = .ofText operator.symbol) (hValue : AreInner value)
    (hCount : statement.count ≠ 0) (hColon : beginsWithColon (lexemes value) = false)
    (hFirst : ∀ index ∈ statement.first, index < process.body.size) (before next : Option Lexeme) :
    ∃ entries edge statement', (∀ entry ∈ entries, entry.role = .read) ∧
      base.Stands (.processBody
          (statement.marked (process.gain entries edge) (operator.roleBefore value))
          (depthBehind 0 (lexemes value)) statement')
        (walk.run (.word here before next :: value)) := by
  have hMarked := hStands.step_body fun _ h => h.readBody_operator operator hSymbol before next
  obtain ⟨entries, edge, count, hEntries, hRun⟩ := hMarked.run_inner hValue hCount (fun _ => hColon)
    (by rwa [Sequential.size_marked])
  refine ⟨entries, edge, ⟨count + 1, statement.first⟩, hEntries, ?_⟩
  rw [Sequential.marked_gain hFirst, Sequential.marked_marked, ← apply_ite] at hRun
  exact hRun

/-- A name that begins a statement is read until an assignment makes it a target. -/
theorem Stands.readBody_name (hStands : base.Stands (.processBody process depth {}) walk)
    (hName : here.symbol = .name) (hBefore : ∀ lexeme ∈ before, lexeme.symbol ≠ .tick)
    (next : Option Lexeme) :
    base.Stands (.processBody (process.gain [⟨here.word, .read⟩] (detectsEdge here false)) depth
        ⟨1, some process.body.size⟩)
      (walk.readBody process depth {} here before next) := by
  have hTicked : before.any (·.symbol = .tick) = false := any_tick hBefore
  have hRead := hStands.readBodyWord here before
  simp only [Walk.readBody, hName]
  simpa [bodyEntries, hName, hTicked, depthAfter] using hRead

/-- An assignment adds the name in front of it to the body, with its role, and what it reads. -/
theorem Stands.run_assignment {operator : Assignment} {name : Lexeme} {value : List Event}
    (hStands : base.Stands (.processBody process depth {}) walk)
    (h : IsAssignment depth operator name value events) :
    ∃ entries edge, (∀ entry ∈ entries, entry.role = .read) ∧
      base.Stands (.processBody
          (process.gain (⟨name.word, operator.roleBefore value⟩ :: entries) edge)
          (depthBehind 0 (lexemes value)) {}) (walk.run events) := by
  obtain ⟨hLead, hName, hBefore, hPart, hLabel, hSelects, hDepth, hSymbol, hValue, hColon,
    hEnding⟩ := h
  rename_i lead part symbol ending before next before' next' before'' next''
  have hLayout := hStands.layout (fun _ => rfl) hLead
  have hFirst := hLayout.step_body fun _ h => h.readBody_name hName hBefore next
  obtain ⟨selecting, edge, count, hSelecting, hPartRun⟩ := hFirst.run_reads hPart (by simp) hLabel
    (by simp [HdlProcess.size_gain]) (by simp [hSelects])
  rw [hDepth, HdlProcess.gain_gain] at hPartRun
  obtain ⟨entries, edge', statement', hEntries, hValueRun⟩ := hPartRun.run_value hSymbol hValue
    (Nat.succ_ne_zero count) hColon (by simp [HdlProcess.size_gain]) before' next'
  have hRun := hValueRun.run_ending hEnding before'' next''
  refine ⟨selecting ++ entries, (detectsEdge name false || edge) || edge', ?_, ?_⟩
  · rw [List.forall_mem_append]
    exact ⟨hSelecting, hEntries⟩
  have hMark := process.mark_gain [] name.word (selecting ++ entries) (operator.roleBefore value)
    ((detectsEdge name false || edge) || edge')
  rw [List.nil_append, List.length_nil, Nat.add_zero] at hMark
  simp only [Sequential.marked, Option.elim_some, HdlProcess.gain_gain] at hRun
  rw [run_append]
  show base.Stands _ (((walk.run lead).step (.word name before next)).run _)
  rw [run_append]
  show base.Stands _ (Walk.run _ ((.word symbol before' next' :: value) ++ [_]))
  rw [run_append]
  exact hMark ▸ hRun

/-- A stretch of words, from the one that begins a statement to the one that ends it, adds what it
reads to the body. If it begins with a name, none of its words makes that a target. -/
theorem Stands.run_words {lead rest : List Event} {first ending : Lexeme}
    (hStands : base.Stands (.processBody process depth {}) walk) (hLead : lexemes lead = [])
    (hInner : AreInner (.word first before next :: rest))
    (hFirst : first.symbol ≠ .drives ∧ first.symbol ≠ .colon)
    (hLabel : beginsWithColon (lexemes rest) = false)
    (hName : first.symbol = .name → hasDrives depth (lexemes rest) = false)
    (hEnding : ending.symbol.beginsNext = true) (before' next' : Option Lexeme) :
    ∃ entries edge, (∀ entry ∈ entries, entry.role = .read) ∧
      base.Stands (.processBody (process.gain entries edge)
          (depthBehind depth (lexemes (.word first before next :: rest))) {})
        (walk.run (lead ++ .word first before next :: (rest ++ [.word ending before' next']))) := by
  have hWord := hInner.words first List.mem_cons_self
  have hRead := (hStands.layout (fun _ => rfl) hLead).step_inner hWord
    (hInner.open _ List.mem_cons_self) (fun hSymbol => absurd hSymbol hFirst.2)
    fun hSymbol => absurd hSymbol hFirst.1
  have hNone : hasDrives (depthAfter depth first.symbol) (lexemes rest) = true →
      bodyEntries first before = [] := by
    intro hDrives
    refine if_neg fun hNames => ?_
    have hSymbol : first.symbol = .name := by simp at hNames; exact hNames.1
    rw [hSymbol] at hDrives
    exact Bool.false_ne_true ((hName hSymbol).symm.trans hDrives)
  obtain ⟨reads, edge, count, hReads, hRun⟩ :=
    hRead.run_reads hInner.of_cons (Nat.succ_ne_zero 0)
      hLabel (by
        intro index hIndex
        rw [Option.mem_def, Option.ite_none_right_eq_some] at hIndex
        obtain ⟨⟨-, hNames⟩, hIndex⟩ := hIndex
        rw [← Option.some.inj hIndex, HdlProcess.size_gain]
        exact Nat.lt_add_of_pos_right (List.length_pos_iff.2 hNames))
      fun hDrives => if_neg fun hNames => hNames.2 (hNone hDrives)
  refine ⟨bodyEntries first before ++ reads,
    detectsEdge first (before.any (·.symbol = .tick)) || edge, ?_, ?_⟩
  · rw [List.forall_mem_append]
    exact ⟨fun _ => role_of_mem_bodyEntries, hReads⟩
  · rw [run_append]
    show base.Stands _ (((walk.run lead).step (.word first before next)).run _)
    rw [run_append]
    rw [HdlProcess.gain_gain] at hRun
    exact hRun.run_ending hEnding before' next'

/-- A passage adds what it reads to the body. -/
theorem Stands.run_passage {behind : Nat}
    (hStands : base.Stands (.processBody process depth {}) walk)
    (h : IsPassage depth events behind) :
    ∃ entries edge, (∀ entry ∈ entries, entry.role = .read) ∧
      base.Stands (.processBody (process.gain entries edge) behind {}) (walk.run events) := by
  cases h with
  | ending hLead hEnding =>
      rename_i lead ending before next
      refine ⟨[], false, by simp, ?_⟩
      rw [run_append, HdlProcess.gain_nil]
      exact (hStands.layout (fun _ => rfl) hLead).run_ending hEnding before next
  | label hLead hName hBefore hLayout hColon =>
      rename_i lead layout name colon before next before' next'
      have hRead := (hStands.layout (fun _ => rfl) hLead).step_body
        fun _ h => h.readBody_name hName hBefore next
      refine ⟨[⟨name.word, .read⟩], detectsEdge name false, by simp, ?_⟩
      rw [run_append]
      show base.Stands _ (((walk.run lead).step (.word name before next)).run _)
      rw [run_append]
      refine (hRead.layout (fun _ => rfl) hLayout).step_body ?_
      rintro _ ⟨notes, rfl⟩
      simp only [readBody, hColon]
      exact ⟨notes, rfl⟩
  | words hLead hInner hFirst hLabel hName hEnding =>
      exact hStands.run_words hLead hInner hFirst hLabel hName hEnding _ _

theorem filter_reads {reads : List BodyWord} (h : ∀ entry ∈ reads, entry.role = .read) :
    reads.filter (·.role ≠ .read) = [] := by
  simpa [List.filter_eq_nil_iff] using h

/-- The assigned names are the words of a body that are not only read, apart from those that were
there in front. -/
theorem Stands.run_body {behind : Nat} {assigned : List BodyWord}
    (hStands : base.Stands (.processBody process depth {}) walk)
    (h : IsBody depth events behind assigned) :
    ∃ entries edge, entries.filter (·.role ≠ .read) = assigned ∧
      base.Stands (.processBody (process.gain entries edge) behind {}) (walk.run events) := by
  induction h generalizing walk process with
  | layout h => exact ⟨[], false, rfl, by simpa using hStands.layout (fun _ => rfl) h⟩
  | @assignment _ _ operator name value _ _ _ h hRest ih =>
      obtain ⟨reads, edge, hReads, hRun⟩ := hStands.run_assignment h
      obtain ⟨entries, edge', hEntries, hRun⟩ := ih hRun
      refine ⟨⟨name.word, operator.roleBefore value⟩ :: reads ++ entries, edge || edge', ?_, ?_⟩
      · rw [List.filter_append, List.filter_cons_of_pos (by simp [operator.roleBefore_ne_read]),
          filter_reads hReads, hEntries]
        rfl
      · rw [HdlProcess.gain_gain] at hRun
        rw [run_append]
        exact hRun
  | passage h hRest ih =>
      obtain ⟨reads, edge, hReads, hRun⟩ := hStands.run_passage h
      obtain ⟨entries, edge', hEntries, hRun⟩ := ih hRun
      refine ⟨reads ++ entries, edge || edge', ?_, ?_⟩
      · rw [List.filter_append, filter_reads hReads, hEntries, List.nil_append]
      · rw [HdlProcess.gain_gain] at hRun
        rw [run_append]
        exact hRun

/-- The word that ends a process records the targets of its signal assignments, if it is clocked. -/
theorem Stands.clocked_end (hStands : base.Stands (.processBody process depth statement) walk)
    (hEnds : (Event.word here before next).endsProcess = true) :
    (walk.step (.word here before next)).found.clocked =
      if process.clocked then
        process.signalTargets.foldl
          (fun signals target => signals.record target.stem base.conditions)
          base.found.clocked
      else base.found.clocked := by
  obtain ⟨notes, rfl⟩ := hStands
  unfold Event.endsProcess at hEnds
  split at hEnds
  · next here _ next hEvent =>
    obtain ⟨rfl, rfl, rfl⟩ := Event.word.inj hEvent
    obtain ⟨token, symbol⟩ := next
    simp only [Bool.and_eq_true, decide_eq_true_eq] at hEnds
    obtain ⟨hEnd, rfl⟩ := hEnds
    simp only [step, Walk.read, Walk.note, readBody, hEnd]
    rfl
  · cases hEnds

end Walk

end HdlIndex.Vhdl

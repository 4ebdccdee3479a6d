import HdlIndex.Proofs.Verilog.StatementRun
import HdlIndex.Proofs.Verilog.Turns
import HdlIndex.Proofs.Verilog.WordOrder

/-! What an assignment in an always block under a clock records. The symbol `<=` is an assignment
and a comparison, and a walk does not tell them apart: outside of brackets every one of them records
what its statement assigns as a clocked signal. -/
namespace HdlIndex

namespace HdlProcess

variable {process : HdlProcess} {index : Nat} {word : Word} {entries : List BodyWord} {edge : Bool}

theorem lt_of_bodyWord? (h : process.bodyWord? index = some word) : index < process.body.size := by
  obtain ⟨entry, hEntry, -⟩ := Option.map_eq_some_iff.1 h
  exact (Array.getElem?_eq_some_iff.1 hEntry).1

/-- Words that are added do not change those in front. -/
theorem bodyWord?_gain_of_some (h : process.bodyWord? index = some word) :
    (process.gain entries edge).bodyWord? index = some word := by
  rw [bodyWord?, gain, Array.getElem?_append_left (lt_of_bodyWord? h)]
  exact h

end HdlProcess

namespace Verilog

/-- The words that begin, end or divide statements. -/
def Keyword.isStatement : Keyword → Bool
  | .begin | .fork | .case | .casex | .casez | .end | .join | .joinAny | .joinNone | .endcase
  | .if | .for | .while | .repeat | .foreach | .else => true
  | _ => false

/-- The words that open and close blocks of statements have a meaning of their own there. -/
theorem Keyword.isBlock_eq_false {word : Keyword} (hWord : word.isStatement = false) :
    isBlockOpen word = false ∧ isBlockClose word = false := by
  constructor
  · unfold isBlockOpen
    split <;> first | cases hWord | rfl
  · unfold isBlockClose
    split <;> first | cases hWord | rfl

/-- The depth of brackets behind a word. -/
def depthAfter (depth : Nat) (symbol : Symbol) : Nat :=
  if symbol.isOpener then depth + 1 else if symbol.isCloser then depth - 1 else depth

/-- How many conditional operators wait for their colon behind a word of an expression. No word
closes what is not open, and none that stands outside of brackets is a blocking assignment or ends
the expression. -/
def ternaryAfter (depth ternary : Nat) (symbol : Symbol) : Option Nat :=
  if symbol.isOpener then some ternary
  else if symbol.isCloser then (if depth = 0 then none else some ternary)
  else if 0 < depth then some ternary
  else match symbol with
    | .semicolon | .equals => none
    | .keyword word => if word.isStatement then none else some ternary
    | .question => some (ternary + 1)
    | .colon => if ternary = 0 then none else some (ternary - 1)
    | _ => some ternary

/-- How many brackets and how many conditional operators are open behind a word of an expression. -/
def openAfter (inside : Nat × Nat) (word : Lexeme) : Option (Nat × Nat) :=
  (ternaryAfter inside.1 inside.2 word.symbol).map (depthAfter inside.1 word.symbol, ·)

/-- The words among the events. -/
def lexemes (events : List Event) : List Lexeme := events.filterMap Event.word?

@[simp]
theorem lexemes_word (here : Lexeme) (next : Option Lexeme) (events : List Event) :
    lexemes (.word here next :: events) = here :: lexemes events :=
  rfl

/-- One of the words is `<=` outside of brackets, with `depth` of them open in front. -/
def hasDrives : (depth : Nat) → List Lexeme → Bool
  | _, [] => false
  | depth, word :: words =>
    (word.symbol = .drives && depth = 0) ||
      hasDrives (depthAfter depth word.symbol) words

/-- The two kinds of assignment. -/
inductive Assignment where
  | blocking
  | nonBlocking
deriving DecidableEq, Repr

/-- The meaning of an assignment's symbol. -/
def Assignment.symbol : Assignment → Symbol
  | blocking => .equals
  | nonBlocking => .drives

/-- The events are an assignment: a name, what selects a part of it, the first symbol of an
assignment that stands outside of brackets, a value, and a semicolon. Layout may stand between
them. -/
inductive IsAssignment (operator : Assignment) (name : Lexeme)
    (value : List Event) : List Event → Prop where
  | intro {lead part : List Event} {symbol semicolon : Lexeme} {next next' next'' : Option Lexeme}
      {ternary : Nat}
      (hLead : lexemes lead = []) (hName : name.symbol = .name)
      (hPart : (lexemes part).foldlM openAfter (0, 0) = some (0, 0))
      (hSelects : hasDrives 0 (lexemes part) = false)
      (hSymbol : symbol.symbol = operator.symbol)
      (hValue : (lexemes value).foldlM openAfter (0, 0) = some (0, ternary))
      (hSemicolon : semicolon.symbol = .semicolon) :
      IsAssignment operator name value
        (lead ++ .word name next ::
          (part ++ .word symbol next' :: (value ++ [.word semicolon next''])))

/-- A block under a clock in the middle of a statement. -/
def Block.within (process : HdlProcess) (nest : Nat) (inside : Nat × Nat) (statement : Sequential) :
    Block :=
  { process := some process, nest, depth := inside.1, ternary := inside.2, statement }

namespace Walk

variable {base walk : Walk} {process : HdlProcess} {nest : Nat} {inside inside' : Nat × Nat}
  {statement : Sequential} {events : List Event} {here : Lexeme} {next : Option Lexeme}

/-- The walk with a signal recorded under the conditions in force. -/
def recorded (walk : Walk) (target : Word) : Walk :=
  walk.collect (recordClocked · target walk.conditions)

/-- A name is recorded once, so that recording it again changes nothing. -/
theorem recorded_recorded (walk : Walk) (target : Word) :
    (walk.recorded target).recorded target = walk.recorded target := by
  have hConditions : (walk.recorded target).conditions = walk.conditions := rfl
  rw [recorded, hConditions]
  have hRecord : (walk.found.clocked.record target.stem walk.conditions).record target.stem
      walk.conditions = walk.found.clocked.record target.stem walk.conditions :=
    if_pos (walk.found.clocked.contains_record_self target.stem walk.conditions)
  simp only [recorded, collect, recordClocked, hRecord]

/-- Layout changes nothing about a block of statements. -/
theorem Stands.step_layout {clocked : Bool} {block : Block} {event : Event}
    (hStands : base.Stands (.alwaysBlock clocked block) walk) (hEvent : event.word? = none) :
    base.Stands (.alwaysBlock clocked block) (walk.step event) := by
  obtain ⟨notes, rfl⟩ := hStands
  cases event with
  | word here next => cases hEvent
  | _ => exact ⟨notes, rfl⟩

/-- Layout makes no words, so that a walk stands where it stood. -/
theorem Stands.run_layout {clocked : Bool} {block : Block}
    (hStands : base.Stands (.alwaysBlock clocked block) walk) (hEvents : lexemes events = []) :
    base.Stands (.alwaysBlock clocked block) (walk.run events) := by
  induction events generalizing walk with
  | nil => exact hStands
  | cons event events ih =>
      rw [lexemes, List.filterMap_eq_nil_iff, List.forall_mem_cons] at hEvents
      exact ih (hStands.step_layout hEvents.1) (List.filterMap_eq_nil_iff.2 hEvents.2)

/-- In a block of statements a word is read with what is known of the block. -/
theorem Stands.step_block {clocked : Bool} {block : Block}
    (hStands : base.Stands (.alwaysBlock clocked block) walk) (here : Lexeme)
      (next : Option Lexeme) :
    ∃ noted, base.Stands (.alwaysBlock clocked block) noted ∧
      walk.step (.word here next) = noted.readBlock clocked block here next := by
  obtain ⟨notes, rfl⟩ := hStands
  exact ⟨_, ⟨_, rfl⟩, rfl⟩

/-- What a word adds to the body of a block: a name is read. -/
def bodyEntries (here : Lexeme) : List BodyWord :=
  if here.symbol = .name then [⟨here.word, .read⟩] else []

/-- Words are read first; what assigns to them marks them later. -/
theorem role_of_mem_bodyEntries {entry : BodyWord} (h : entry ∈ bodyEntries here) :
    entry.role = .read := by
  rw [bodyEntries] at h
  split at h
  · rw [List.mem_singleton.1 h]
  · cases h

/-- Inside of a statement a word counts and, if it is a name, is read; what the statement assigns is
settled. -/
theorem readBodyWord_within (process : HdlProcess) (nest : Nat) (inside : Nat × Nat)
    (hSettled : statement.IsSettled) (here : Lexeme) :
    readBodyWord (.within process nest inside statement) here =
      .within (process.gain (bodyEntries here)) nest inside
        { statement with count := statement.count + 1 } := by
  obtain ⟨hCount, hConcat⟩ := hSettled
  unfold readBodyWord bodyEntries
  dsimp only
  split
  · next hSymbol hProcess =>
    obtain rfl := Option.some.inj hProcess
    simp [Block.within, hSymbol, hCount, hConcat, HdlProcess.pushBody_eq_gain]
  · next hOther =>
    rw [if_neg fun hSymbol => hOther process hSymbol rfl, HdlProcess.gain_nil]
    rfl

/-- A reserved word that is no statement of its own is read like any other word of the body. -/
theorem readBlockKeyword_inner {word : Keyword} (hWord : word.isStatement = false) (walk : Walk)
    (clocked : Bool) (block : Block) :
    walk.readBlockKeyword clocked block word here next =
      walk.goto (.alwaysBlock clocked (readBodyWord block here)) := by
  obtain ⟨hOpen, hClose⟩ := Keyword.isBlock_eq_false hWord
  unfold readBlockKeyword
  split
  case h_9 => rw [if_neg (by simp [hOpen]), if_neg (by simp [hClose])]
  all_goals cases hWord

/-- A word leaves the walk inside of its statement: what it adds to the body is read, and the
statement goes on with these brackets and conditional operators open. -/
def StaysInside (process : HdlProcess) (nest : Nat) (statement : Sequential) (inside : Nat × Nat)
    (walk after : Walk) : Prop :=
  ∃ entries later, (∀ entry ∈ entries, entry.role = .read) ∧ statement.Continues later ∧
    after = walk.goto (.alwaysBlock true (.within (process.gain entries) nest inside later))

section Inside

variable {depth ternary ternary' : Nat}

/-- A word of an expression is counted, and a name is read. -/
theorem staysInside_body (walk : Walk) (process : HdlProcess) (nest : Nat) (inside : Nat × Nat)
    (hSettled : statement.IsSettled) (here : Lexeme) :
    StaysInside process nest statement inside walk
      (walk.goto (.alwaysBlock true (readBodyWord (.within process nest inside statement) here))) :=
  ⟨bodyEntries here, { statement with count := statement.count + 1 },
    fun _ => role_of_mem_bodyEntries, fun _ => ⟨⟨Nat.succ_ne_zero _, hSettled.2⟩, rfl⟩,
    by rw [readBodyWord_within process nest inside hSettled here]⟩

/-- The operators of an expression are not counted. -/
theorem staysInside_same (walk : Walk) (process : HdlProcess) (nest : Nat) (inside : Nat × Nat) :
    StaysInside process nest statement inside walk
      (walk.goto (.alwaysBlock true (.within process nest inside statement))) :=
  ⟨[], statement, by simp, fun h => ⟨h, rfl⟩, by rw [HdlProcess.gain_nil]⟩

/-- An opening bracket goes one deeper. It opens no concatenation that is assigned, since the
statement has begun. -/
theorem readBlock_opener (walk : Walk) (process : HdlProcess) (nest : Nat)
    (hSettled : statement.IsSettled) (hOpener : here.symbol.isOpener = true) :
    StaysInside process nest statement (depth + 1, ternary) walk
      (walk.readBlock true (.within process nest (depth, ternary) statement) here next) := by
  refine ⟨[], { statement with count := statement.count + 1 }, by simp,
    fun _ => ⟨⟨Nat.succ_ne_zero _, hSettled.2⟩, rfl⟩, ?_⟩
  rw [readBlock, if_pos hOpener, HdlProcess.gain_nil]
  simp [readOpener, Block.within, hSettled.1]

/-- A closing bracket comes back by one, and the names in front of the statement stay as they
are. -/
theorem readBlock_closer (walk : Walk) (process : HdlProcess) (nest : Nat)
    (hSettled : statement.IsSettled) (hOpener : ¬ here.symbol.isOpener = true)
    (hCloser : here.symbol.isCloser = true) :
    StaysInside process nest statement (depth - 1, ternary) walk
      (walk.readBlock true (.within process nest (depth, ternary) statement) here next) := by
  refine ⟨[], { statement with concat := none }, by simp, fun h => ⟨⟨h.1, rfl⟩, rfl⟩, ?_⟩
  rw [readBlock, if_neg hOpener, if_pos hCloser, HdlProcess.gain_nil]
  simp [readCloser, Block.within, hSettled.2]

/-- Outside of brackets the words that end, divide or assign are set apart. -/
theorem readBlock_outer (walk : Walk) (process : HdlProcess) (nest : Nat)
    (hSettled : statement.IsSettled) (hOpener : ¬ here.symbol.isOpener = true)
    (hCloser : ¬ here.symbol.isCloser = true)
    (hWord : ternaryAfter 0 ternary here.symbol = some ternary') (hDrives : here.symbol ≠ .drives) :
    StaysInside process nest statement (0, ternary') walk
      (walk.readBlock true (.within process nest (0, ternary) statement) here next) := by
  have hOuter : ¬ 0 < (Block.within process nest (0, ternary) statement).depth := Nat.lt_irrefl 0
  unfold ternaryAfter at hWord
  rw [if_neg hOpener, if_neg hCloser, if_neg (Nat.lt_irrefl 0)] at hWord
  rw [readBlock, if_neg hOpener, if_neg hCloser, if_neg hOuter]
  split at hWord
  · cases hWord
  · cases hWord
  · next word hSymbol =>
    split at hWord
    · cases hWord
    next hKeyword =>
    obtain rfl := Option.some.inj hWord
    simp only [hSymbol]
    rw [readBlockKeyword_inner (by simpa using hKeyword)]
    exact staysInside_body walk process nest (0, ternary) hSettled here
  · next hSymbol =>
    obtain rfl := Option.some.inj hWord
    rw [hSymbol]
    exact staysInside_same walk process nest (0, ternary + 1)
  · next hSymbol =>
    split at hWord
    · cases hWord
    next hTernary =>
    obtain rfl := Option.some.inj hWord
    obtain ⟨ternary, rfl⟩ := Nat.exists_eq_succ_of_ne_zero hTernary
    rw [hSymbol]
    exact staysInside_same walk process nest (0, ternary)
  · next hSemicolon hEquals hKeyword hQuestion hColon =>
    obtain rfl := Option.some.inj hWord
    split
    case h_1 hSymbol => exact absurd hSymbol hSemicolon
    case h_2 word hSymbol => exact absurd hSymbol (hKeyword word)
    case h_3 hSymbol => exact absurd hSymbol hQuestion
    case h_4 hSymbol => exact absurd hSymbol hColon
    case h_5 hSymbol => exact absurd hSymbol hDrives
    case h_6 hSymbol => exact absurd hSymbol hEquals
    case h_9 => exact staysInside_body walk process nest (0, ternary) hSettled here
    all_goals exact staysInside_same walk process nest (0, ternary)

/-- A word inside of a statement leaves it open, unless it is the symbol of an assignment. -/
theorem readBlock_inner (walk : Walk) (process : HdlProcess) (nest : Nat)
    (hSettled : statement.IsSettled)
    (hWord : ternaryAfter depth ternary here.symbol = some ternary')
    (hDrives : here.symbol = .drives → depth ≠ 0) :
    StaysInside process nest statement (depthAfter depth here.symbol, ternary') walk
      (walk.readBlock true (.within process nest (depth, ternary) statement) here next) := by
  have hAfter := hWord
  unfold ternaryAfter at hAfter
  rw [depthAfter]
  split at hAfter
  · next hOpener =>
    obtain rfl := Option.some.inj hAfter
    rw [if_pos hOpener]
    exact readBlock_opener walk process nest hSettled hOpener
  next hOpener =>
  rw [if_neg hOpener]
  split at hAfter
  · next hCloser =>
    split at hAfter
    · cases hAfter
    obtain rfl := Option.some.inj hAfter
    rw [if_pos hCloser]
    exact readBlock_closer walk process nest hSettled hOpener hCloser
  next hCloser =>
  rw [if_neg hCloser]
  split at hAfter
  · next hDepth =>
    obtain rfl := Option.some.inj hAfter
    have hInside : 0 < (Block.within process nest (depth, ternary) statement).depth := hDepth
    rw [readBlock, if_neg hOpener, if_neg hCloser, if_pos hInside]
    exact staysInside_body walk process nest (depth, ternary) hSettled here
  · next hDepth =>
    obtain rfl : depth = 0 := by omega
    exact readBlock_outer walk process nest hSettled hOpener hCloser hWord
      fun hSymbol => hDrives hSymbol rfl

end Inside

/-- The symbol of an assignment makes a target of the name that the statement begins with, and
records it if the assignment does not block. -/
theorem readAssignment_within (walk : Walk) {index : Nat} {target : Word} {inside : Nat × Nat}
    (hTargets : statement.targets = [index]) (hTarget : process.bodyWord? index = some target)
    (nonBlocking : Bool) :
    walk.readAssignment true (.within process nest inside statement) nonBlocking =
      let walk := walk.goto (.alwaysBlock true (.within (process.mark index .target) nest inside
        { statement with count := statement.count + 1 }))
      if nonBlocking then walk.recorded target else walk := by
  have hProcess : (Block.within process nest inside statement).process = some process := rfl
  have hStatement : (Block.within process nest inside statement).statement = statement := rfl
  rw [readAssignment, hProcess, hStatement, hTargets]
  simp only [List.foldl_cons, List.foldl_nil, List.filterMap_cons_some hTarget, List.filterMap_nil]
  rfl

/-- A word inside of a statement that neither ends it nor assigns in it only adds reads to the body.
A `<=` inside of brackets is such a word. -/
theorem Stands.step_inner
    (hStands : base.Stands (.alwaysBlock true (.within process nest inside statement)) walk)
    (hSettled : statement.IsSettled) (hWord : openAfter inside here = some inside')
    (hDrives : here.symbol = .drives → inside.1 ≠ 0) (next : Option Lexeme) :
    ∃ entries later, (∀ entry ∈ entries, entry.role = .read) ∧ statement.Continues later ∧
      base.Stands (.alwaysBlock true (.within (process.gain entries) nest inside' later))
        (walk.step (.word here next)) := by
  obtain ⟨ternary, hTernary, rfl⟩ := Option.map_eq_some_iff.1 hWord
  obtain ⟨noted, ⟨notes, rfl⟩, hStep⟩ := hStands.step_block here next
  obtain ⟨entries, later, hEntries, hLater, hRead⟩ :=
    readBlock_inner _ process nest hSettled hTernary hDrives
  exact ⟨entries, later, hEntries, hLater, notes, hStep.trans hRead⟩

/-- At an operator the first name of the statement becomes a target, and with `<=` it is recorded as
clocked. -/
theorem Stands.step_operator {index : Nat} {target : Word} {ternary : Nat}
    (hStands : base.Stands (.alwaysBlock true (.within process nest (0, ternary) statement)) walk)
    (hTargets : statement.targets = [index]) (hTarget : process.bodyWord? index = some target)
    (operator : Assignment) (hSymbol : here.symbol = operator.symbol) (next : Option Lexeme) :
    (if operator = .nonBlocking then base.recorded target else base).Stands
      (.alwaysBlock true (.within (process.mark index .target) nest (0, ternary)
        { statement with count := statement.count + 1 })) (walk.step (.word here next)) := by
  obtain ⟨noted, ⟨notes, rfl⟩, hStep⟩ := hStands.step_block here next
  have hBlock : (Block.within process nest (0, ternary) statement).depth = 0 := rfl
  refine ⟨notes, hStep.trans ?_⟩
  cases operator with
  | blocking =>
      simp only [readBlock, hSymbol, Assignment.symbol, Symbol.isOpener, Symbol.isCloser, hBlock]
      exact readAssignment_within _ hTargets hTarget false
  | nonBlocking =>
      simp only [readBlock, hSymbol, Assignment.symbol, Symbol.isOpener, Symbol.isCloser, hBlock]
      exact readAssignment_within _ hTargets hTarget true

/-- Recording a name once more changes nothing. -/
theorem recorded_ite (base : Walk) (target : Word) (first later : Prop) [Decidable first]
    [Decidable later] :
    (if later then (if first then base.recorded target else base).recorded target
      else if first then base.recorded target else base) =
      if first ∨ later then base.recorded target else base := by
  by_cases hFirst : first
  · simp [hFirst, recorded_recorded]
  · simp [hFirst]

/-- A word inside of a statement adds what it reads to the body. If it is `<=` outside of brackets,
the name that the statement begins with is recorded, and is a target from then on. -/
theorem Stands.step_within {index : Nat} {target : Word}
    (hStands : base.Stands (.alwaysBlock true (.within process nest inside statement)) walk)
    (hSettled : statement.IsSettled) (hTargets : statement.targets = [index])
    (hTarget : process.bodyWord? index = some target)
    (hMarked : here.symbol = .drives ∧ inside.1 = 0 → process.mark index .target = process)
    (hWord : openAfter inside here = some inside') (next : Option Lexeme) :
    ∃ entries later, (∀ entry ∈ entries, entry.role = .read) ∧ statement.Continues later ∧
      (if here.symbol = .drives ∧ inside.1 = 0 then base.recorded target else base).Stands
        (.alwaysBlock true (.within (process.gain entries) nest inside' later))
        (walk.step (.word here next)) := by
  by_cases hDrives : here.symbol = .drives ∧ inside.1 = 0
  · rw [if_pos hDrives]
    have hMark := hMarked hDrives
    obtain ⟨depth, outer⟩ := inside
    obtain ⟨hSymbol, rfl⟩ := hDrives
    obtain rfl : (0, outer) = inside' := by
      have hSame : openAfter (0, outer) here = some (0, outer) := by
        rw [openAfter, hSymbol]
        rfl
      exact Option.some.inj (hSame.symm.trans hWord)
    refine ⟨[], { statement with count := statement.count + 1 }, by simp,
      fun _ => ⟨⟨Nat.succ_ne_zero _, hSettled.2⟩, rfl⟩, ?_⟩
    have hStep := hStands.step_operator hTargets hTarget .nonBlocking hSymbol next
    rwa [if_pos rfl, hMark, ← process.gain_nil] at hStep
  · rw [if_neg hDrives]
    exact hStands.step_inner hSettled hWord (fun hSymbol hDepth => hDrives ⟨hSymbol, hDepth⟩) next

/-- The words inside of a statement add what they read to the body. If one of them is `<=` outside
of brackets, the name that the statement begins with is recorded. -/
theorem Stands.run_inner {index : Nat} {target : Word}
    (hStands : base.Stands (.alwaysBlock true (.within process nest inside statement)) walk)
    (hSettled : statement.IsSettled) (hTargets : statement.targets = [index])
    (hTarget : process.bodyWord? index = some target)
    (hMarked : hasDrives inside.1 (lexemes events) = true → process.mark index .target = process)
    (hWords : (lexemes events).foldlM openAfter inside = some inside') :
    ∃ entries later, (∀ entry ∈ entries, entry.role = .read) ∧ statement.Continues later ∧
      (if hasDrives inside.1 (lexemes events) then base.recorded target else base).Stands
        (.alwaysBlock true (.within (process.gain entries) nest inside' later))
        (walk.run events) := by
  induction events generalizing base walk process inside statement with
  | nil =>
      obtain rfl : inside = inside' := by simpa [lexemes] using hWords
      refine ⟨[], statement, by simp, fun h => ⟨h, rfl⟩, ?_⟩
      rw [HdlProcess.gain_nil]
      exact hStands
  | cons event events ih =>
      cases event with
      | word here next =>
          rw [lexemes_word] at hWords hMarked ⊢
          rw [List.foldlM_cons] at hWords
          obtain ⟨between, hWord, hWords⟩ := Option.bind_eq_some_iff.1 hWords
          simp only [hasDrives, Bool.or_eq_true, Bool.and_eq_true, decide_eq_true_eq]
            at hMarked ⊢
          obtain ⟨reads, between', hReads, hBetween, hStep⟩ :=
            hStands.step_within hSettled hTargets hTarget (fun h => hMarked (.inl h)) hWord next
          obtain ⟨hSettled', hTargets'⟩ := hBetween hSettled
          obtain ⟨ternary, -, rfl⟩ := Option.map_eq_some_iff.1 hWord
          obtain ⟨entries, later, hEntries, hLater, hRun⟩ := ih hStep hSettled'
            (hTargets'.trans hTargets) (HdlProcess.bodyWord?_gain_of_some hTarget)
            (fun h => by
              rw [← HdlProcess.mark_gain_of_lt (HdlProcess.lt_of_bodyWord? hTarget),
                hMarked (.inr h)]) hWords
          rw [HdlProcess.gain_gain, recorded_ite] at hRun
          exact ⟨reads ++ entries, later, List.forall_mem_append.2 ⟨hReads, hEntries⟩,
            hBetween.trans hLater, hRun⟩
      | _ => exact ih (hStands.step_layout rfl) hSettled hTargets hTarget hMarked hWords

/-- A name that begins a statement is read until an assignment makes it a target. -/
theorem Stands.step_name
    (hStands : base.Stands (.alwaysBlock true { process := some process, nest }) walk)
    (hName : here.symbol = .name) (next : Option Lexeme) :
    base.Stands (.alwaysBlock true (.within (process.gain [⟨here.word, .read⟩]) nest (0, 0)
      { count := 1, first := some process.body.size })) (walk.step (.word here next)) := by
  obtain ⟨noted, ⟨notes, rfl⟩, hStep⟩ := hStands.step_block here next
  refine ⟨notes, hStep.trans ?_⟩
  simp only [readBlock, hName, Symbol.isOpener, Symbol.isCloser, readBodyWord]
  rw [HdlProcess.pushBody_eq_gain]
  rfl

/-- The symbol of an assignment and its value decide whether the name that the statement begins with
is recorded. -/
theorem Stands.run_value {index : Nat} {target : Word} {operator : Assignment} {ternary : Nat}
    {value : List Event}
    (hStands : base.Stands (.alwaysBlock true (.within process nest (0, 0) statement)) walk)
    (hSettled : statement.IsSettled) (hTargets : statement.targets = [index])
    (hTarget : process.bodyWord? index = some target) (hSymbol : here.symbol = operator.symbol)
    (hValue : (lexemes value).foldlM openAfter (0, 0) = some (0, ternary)) (next : Option Lexeme) :
    ∃ entries later, (∀ entry ∈ entries, entry.role = .read) ∧
      (if operator = .nonBlocking ∨
        hasDrives 0 (lexemes value) then base.recorded target else base).Stands
        (.alwaysBlock true
          (.within ((process.mark index .target).gain entries) nest (0, ternary) later))
        (walk.run (.word here next :: value)) := by
  have hMarked : (process.mark index .target).bodyWord? index = some target := by
    rw [HdlProcess.bodyWord?_mark, hTarget]
  obtain ⟨entries, later, hEntries, -, hRun⟩ :=
    (hStands.step_operator hTargets hTarget operator hSymbol next).run_inner
      ⟨Nat.succ_ne_zero _, hSettled.2⟩ hTargets hMarked (fun _ => HdlProcess.mark_mark) hValue
  refine ⟨entries, later, hEntries, ?_⟩
  rw [recorded_ite] at hRun
  exact hRun

/-- The end of a statement records a block and no signal. -/
theorem clocked_endStatement (walk : Walk) (clocked : Bool) (block : Block) :
    (walk.endStatement clocked block here next).found.clocked = walk.found.clocked := by
  rw [endStatement]
  split
  · rfl
  · split
    · rw [backToBody, endItem_eq]
      rfl
    · rw [backToBody, endItem_eq]
      rfl

/-- A semicolon ends the statement, and perhaps the block, and records nothing. -/
theorem clocked_readBlock (walk : Walk) (clocked : Bool) {block : Block} (hDepth : block.depth = 0)
    (hSemicolon : here.symbol = .semicolon) :
    (walk.readBlock clocked block here next).found.clocked = walk.found.clocked := by
  rw [readBlock, hSemicolon, hDepth]
  rw [if_neg (by decide), if_neg (by decide), if_neg (Nat.lt_irrefl 0)]
  dsimp only
  split
  · exact clocked_endStatement ..
  · rfl

/-- An assignment records the name in front of it if it does not block, or if `<=` stands outside of
brackets in its value. -/
theorem Stands.run_assignment {operator : Assignment} {name : Lexeme} {value : List Event}
    (hStands : base.Stands (.alwaysBlock true { process := some process, nest }) walk)
    (h : IsAssignment operator name value events) :
    (walk.run events).found.clocked =
      if operator = .nonBlocking ∨ hasDrives 0 (lexemes value) then
        base.found.clocked.record name.word.stem base.conditions
      else base.found.clocked := by
  obtain ⟨hLead, hName, hPart, hSelects, hSymbol, hValue, hSemicolon⟩ := h
  rename_i lead part symbol semicolon next next' next'' ternary
  have hTarget : (process.gain [⟨name.word, .read⟩]).bodyWord? process.body.size =
      some name.word := by
    simp [HdlProcess.bodyWord?, HdlProcess.gain]
  have hFirst := (hStands.run_layout hLead).step_name hName next
  obtain ⟨selecting, later, -, hLater, hPartRun⟩ := hFirst.run_inner ⟨one_ne_zero, rfl⟩ rfl hTarget
    (by simp [hSelects]) hPart
  rw [hSelects, if_neg Bool.false_ne_true] at hPartRun
  obtain ⟨hSettled, hTargets⟩ := hLater ⟨one_ne_zero, rfl⟩
  obtain ⟨entries, later', -, hRun⟩ := hPartRun.run_value hSettled hTargets
    (HdlProcess.bodyWord?_gain_of_some hTarget) hSymbol hValue next'
  obtain ⟨noted, ⟨notes, rfl⟩, hStep⟩ := hRun.step_block semicolon next''
  rw [run_append]
  show (Walk.run ((walk.run lead).step (.word name next)) _).found.clocked = _
  rw [run_append, ← List.cons_append, run_append]
  refine (congrArg (·.found.clocked) hStep).trans ?_
  refine (clocked_readBlock _ true rfl hSemicolon).trans ?_
  split <;> rfl

end Walk

end Verilog

end HdlIndex

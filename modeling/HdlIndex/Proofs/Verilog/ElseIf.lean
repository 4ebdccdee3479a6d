import HdlIndex.Proofs.Verilog.UnitBoundary
import HdlIndex.Proofs.Verilog.WordOrder

/-! The condition of an `else` that is chained to an `if`. It is kept from the `else` on, over the
`if` that was seen ahead of it, to the end of that header. So none is kept where a module ends. -/
namespace HdlIndex.Verilog.Walk

variable {walk other : Walk} {here : Lexeme} {next : Option Lexeme} {events others : List Event}
  {offset : Nat}

/-- The `if` behind an `else` is the next word, and the walk will take it for the beginning of a
generate construct. -/
structure AwaitsIf (walk : Walk) (events : List Event) : Prop where
  place : walk.place = .moduleBody
  label : walk.label = .idle
  choice : walk.awaitsChoice = false
  comes : ∃ lexeme, firstWord? events = some lexeme ∧ lexeme.symbol = .keyword .if

/-- The condition of an `else` is kept in front of its `if` and inside of the header of that
only. -/
def IsChained (walk : Walk) (events : List Event) : Prop :=
  walk.chained = none ∨ (∃ depth expr, walk.place = .generateHeader .if depth expr) ∨
    walk.AwaitsIf events

section Kept

variable {item : Item} {owner : Owner} {home : Home} {depth : Nat} {expr : Capture}
  {kind : GenerateKind} {statement : Instantiation} {process : HdlProcess} {block : Block}
  {clocked : Bool} {word : Keyword}

theorem chained_endItem (walk : Walk) : walk.endItem.chained = walk.chained := by
  unfold endItem
  dsimp only
  split
  · rfl
  · split <;> rfl

theorem chained_backToBody (walk : Walk) : walk.backToBody.chained = walk.chained :=
  chained_endItem _

theorem chained_expectLabel (walk : Walk) (recorded : Bool) (next : Option Lexeme) :
    (walk.expectLabel recorded next).chained = walk.chained := by
  rw [expectLabel]
  split <;> rfl

theorem chained_resume (walk : Walk) (home : Home) : (walk.resume home).chained = walk.chained := by
  cases home with
  | moduleBody => exact chained_backToBody walk
  | _ => rfl

theorem chained_readContext : (walk.readContext here).chained = walk.chained := by
  rw [readContext]
  split <;> rfl

theorem chained_readModuleName : (walk.readModuleName here).chained = walk.chained := by
  rw [readModuleName]
  split <;> rfl

/-- No word of a header chains a condition. -/
theorem chained_readModuleHeader (announced : Bool) :
    (walk.readModuleHeader announced here).chained = walk.chained := by
  rw [readModuleHeader]
  split
  · rfl
  · split <;> rfl
  · exact chained_backToBody _
  · rfl
  · rfl

theorem chained_readParameters (inside : Nat) :
    (walk.readParameters owner inside item here).chained = walk.chained := by
  rw [readParameters]
  split <;> rfl

theorem chained_readPorts : (walk.readPorts owner item here).chained = walk.chained := by
  rw [readPorts]
  split <;> rfl

theorem chained_readDeclaration : (walk.readDeclaration item here).chained = walk.chained := by
  rw [readDeclaration]
  split
  · rfl
  · rfl
  all_goals exact chained_backToBody _

theorem chained_readImport : (walk.readImport home here next).chained = walk.chained := by
  rw [readImport]
  split
  · exact chained_resume walk home
  · split <;> rfl
  · split <;> rfl
  · rfl

theorem chained_readSkippedBlock (closer : Keyword) :
    (walk.readSkippedBlock closer home here).chained = walk.chained := by
  rw [readSkippedBlock]
  split
  · exact chained_resume walk home
  · rfl

/-- What is passed over chains none. -/
theorem chained_readSkipped : (walk.readSkipped depth here).chained = walk.chained := by
  rw [readSkipped]
  split
  · rfl
  split
  · rfl
  split
  · exact chained_backToBody walk
  · rfl

theorem chained_readChoice : (walk.readChoice depth expr here).chained = walk.chained := by
  unfold readChoice
  dsimp only
  split
  · rfl
  split
  · rfl
  split <;> rfl

theorem chained_closeBlock (walk : Walk) : walk.closeBlock.chained = walk.chained :=
  chained_endItem _

theorem chained_closeCase (walk : Walk) : walk.closeCase.chained = walk.chained := by
  rw [closeCase]
  split <;> exact chained_endItem _

/-- Instances chain none, nor do the declarations that they may turn out to be. -/
theorem chained_readInstance : (walk.readInstance statement depth here).chained = walk.chained := by
  unfold readInstance
  dsimp only
  split
  · split <;> rfl
  split
  case h_3 => split <;> rfl
  case h_9 => exact chained_backToBody walk
  case h_10 =>
    unfold readInstanceName
    dsimp only
    split
    · rfl
    · split <;> rfl
  all_goals first
    | rfl
    | exact chained_readDeclaration

theorem chained_readMap : (walk.readMap statement depth here).chained = walk.chained := by
  unfold readMap
  split
  · rfl
  split
  · rfl
  split
  · rfl
  · exact chained_backToBody walk
  · rfl

/-- An event control chains no condition. -/
theorem chained_readSensitivity :
    (walk.readSensitivity process depth here).chained = walk.chained := by
  unfold readSensitivity
  dsimp only
  split
  · rfl
  · split <;> rfl
  · split <;> rfl
  · rfl
  · rfl
  · split <;> rfl
  · rfl

theorem chained_endStatement :
    (walk.endStatement clocked block here next).chained = walk.chained := by
  rw [endStatement]
  split
  · rfl
  split
  all_goals exact chained_backToBody _

/-- Assignments chain none. -/
theorem chained_readAssignment (nonBlocking : Bool) :
    (walk.readAssignment clocked block nonBlocking).chained = walk.chained := by
  unfold readAssignment
  dsimp only
  split
  · rfl
  · rfl
  · split <;> rfl

/-- No word of an always block chains a condition, an `else` in it included. -/
theorem chained_readBlock : (walk.readBlock clocked block here next).chained = walk.chained := by
  unfold readBlock
  dsimp only
  split
  · rfl
  split
  · rfl
  split
  · rfl
  split
  · split
    · exact chained_endStatement
    · rfl
  · unfold readBlockKeyword
    dsimp only
    repeat' split
    all_goals first
      | rfl
      | exact chained_endStatement
      | exact chained_expectLabel _ _ _
  · rfl
  · split <;> rfl
  · exact chained_readAssignment _
  · exact chained_readAssignment _
  all_goals rfl

theorem chained_readAlwaysHeader :
    (walk.readAlwaysHeader process here next).chained = walk.chained := by
  rw [readAlwaysHeader]
  split
  · rfl
  · exact chained_readBlock

/-- Among the words of a body only an `else` keeps a condition. -/
theorem chained_readItemKeyword (hWord : word ≠ .else) :
    (walk.readItemKeyword word here next).chained = walk.chained := by
  unfold readItemKeyword
  split
  case h_1 => exact chained_expectLabel _ _ _
  case h_2 => exact (chained_expectLabel _ _ _).trans (chained_closeBlock walk)
  case h_3 => exact chained_closeCase walk
  case h_24 => exact absurd rfl hWord
  case h_25 =>
    split
    · exact chained_readDeclaration
    · rfl
  all_goals first
    | rfl
    | exact chained_readDeclaration

/-- Between items an `else` alone can chain one. -/
theorem chained_readItem (hHere : here.symbol ≠ .keyword .else) :
    (walk.readItem here next).chained = walk.chained := by
  rw [readItem]
  split
  · exact chained_readChoice
  split
  · exact chained_endItem walk
  · next word hSymbol => exact chained_readItemKeyword fun hWord => hHere (hWord ▸ hSymbol)
  · rfl
  · rfl

/-- The header of an `if` keeps the condition until it ends. -/
theorem isChained_readGenerate (hPlace : walk.place = .generateHeader kind depth expr)
    (h : walk.chained = none ∨ kind = .if) :
    (walk.readGenerate kind depth expr here next).IsChained events := by
  have hStays : ∀ depth' expr',
      (walk.goto (.generateHeader kind depth' expr')).IsChained events := by
    intro depth' expr'
    obtain hNone | rfl := h
    · exact .inl hNone
    · exact .inr (.inl ⟨depth', expr', rfl⟩)
  have hEnters : (walk.enterGenerate kind expr.text next).chained = none := by
    cases kind with
    | «if» => rfl
    | _ => exact h.resolve_right GenerateKind.noConfusion
  unfold readGenerate
  dsimp only
  split
  · exact hStays 1 .fresh
  split
  · exact hStays _ _
  split
  · exact .inl hEnters
  split
  · exact hStays _ _
  split
  · exact hStays _ _
  · obtain hNone | rfl := h
    · exact .inl hNone
    · exact .inr (.inl ⟨depth, expr, hPlace⟩)

end Kept

/-- Behind an `else` with an `if` ahead the walk waits for that. -/
theorem isChained_readItem (h : walk.chained = none) (hPlace : walk.place = .moduleBody)
    (hLabel : walk.label = .idle)
    (hNext : ∀ lexeme ∈ next, lexeme.symbol.isKeyword = true → firstWord? events = some lexeme) :
    (walk.readItem here next).IsChained events := by
  by_cases hHere : here.symbol = .keyword .else
  · cases hChoice : walk.awaitsChoice with
    | true =>
        rw [readItem, hChoice, hHere]
        exact .inl (chained_readChoice.trans h)
    | false =>
        rw [readItem, hChoice, hHere]
        show (walk.readElse next).IsChained events
        rw [readElse]
        dsimp only
        split
        · next hIf =>
          rw [isNext, Option.any_eq_true] at hIf
          obtain ⟨lexeme, hMem, hSame⟩ := hIf
          have hSymbol : lexeme.symbol = .keyword .if := of_decide_eq_true hSame
          have hComes := hNext lexeme hMem (by rw [hSymbol]; rfl)
          exact .inr (.inr ⟨hPlace, hLabel, hChoice, lexeme, hComes, hSymbol⟩)
        · exact .inl h
  · exact .inl ((chained_readItem hHere).trans h)

/-- The `if` that was waited for begins a header. -/
theorem AwaitsIf.read (h : walk.AwaitsIf (.word here next :: events)) :
    (walk.read here next).IsChained events := by
  obtain ⟨lexeme, hFirst, hSymbol⟩ := h.comes
  obtain rfl : here = lexeme := Option.some.inj hFirst
  rw [Walk.read, h.place]
  dsimp only
  rw [readItem, h.choice, hSymbol]
  exact .inr (.inl ⟨0, .idle, rfl⟩)

/-- A condition is chained only while the `if` that it was seen ahead of is still to come: the word
that was seen comes next, and it takes the condition. -/
theorem isChained_read (h : walk.IsChained (.word here next :: events))
    (hLabel : walk.label = .idle)
    (hNext : ∀ lexeme ∈ next, lexeme.symbol.isKeyword = true → firstWord? events = some lexeme) :
    (walk.read here next).IsChained events := by
  obtain hNone | ⟨depth, expr, hPlace⟩ | hAwaits := h
  · rw [read]
    cases hPlace : walk.place with
    | moduleContext => exact .inl (chained_readContext.trans hNone)
    | moduleName => exact .inl (chained_readModuleName.trans hNone)
    | moduleHeader announced => exact .inl ((chained_readModuleHeader announced).trans hNone)
    | parameterList owner inside item => exact .inl ((chained_readParameters inside).trans hNone)
    | portList owner item => exact .inl (chained_readPorts.trans hNone)
    | moduleBody => exact isChained_readItem hNone hPlace hLabel hNext
    | declaration item => exact .inl (chained_readDeclaration.trans hNone)
    | importClause home => exact .inl (chained_readImport.trans hNone)
    | instanceHeader statement depth => exact .inl (chained_readInstance.trans hNone)
    | instanceMap statement depth => exact .inl (chained_readMap.trans hNone)
    | generateHeader kind depth expr => exact isChained_readGenerate hPlace (.inl hNone)
    | generateChoice depth expr => exact .inl (chained_readChoice.trans hNone)
    | alwaysHeader process => exact .inl (chained_readAlwaysHeader.trans hNone)
    | sensitivityList process depth => exact .inl (chained_readSensitivity.trans hNone)
    | alwaysBlock clocked block => exact .inl (chained_readBlock.trans hNone)
    | skipStatement depth => exact .inl (chained_readSkipped.trans hNone)
    | skipBlock closer home => exact .inl ((chained_readSkippedBlock closer).trans hNone)
  · rw [read, hPlace]
    exact isChained_readGenerate hPlace (.inr rfl)
  · exact hAwaits.read

/-- A label is read without touching what is chained. -/
theorem chained_readLabel? (h : walk.readLabel? here = some other) :
    other.chained = walk.chained := by
  unfold readLabel? at h
  split at h
  · cases h
  · split at h
    · obtain rfl := Option.some.inj h
      rfl
    · cases h
  · dsimp only at h
    split at h
    · obtain rfl := Option.some.inj h
      split <;> rfl
    · cases h

/-- The same for a word that may be part of a label. No condition is chained while a label is
expected. -/
theorem isChained_readWord (h : walk.IsChained (.word here next :: events))
    (hNext : ∀ lexeme ∈ next, lexeme.symbol.isKeyword = true → firstWord? events = some lexeme) :
    (walk.readWord here next).IsChained events := by
  rw [readWord]
  cases hRead : walk.readLabel? here with
  | none =>
      apply isChained_read ?_ rfl hNext
      obtain hNone | hHeader | hAwaits := h
      · exact .inl hNone
      · exact .inr (.inl hHeader)
      · exact .inr (.inr ⟨hAwaits.place, rfl, hAwaits.choice, hAwaits.comes⟩)
  | some labelled =>
      have hChained := chained_readLabel? hRead
      obtain ⟨hPlace, hLabel⟩ := place_readLabel? hRead
      obtain hNone | ⟨depth, expr, hHeader⟩ | hAwaits := h
      · exact .inl (hChained.trans hNone)
      · exact .inr (.inl ⟨depth, expr, hPlace.trans hHeader⟩)
      · exact absurd hAwaits.label hLabel

/-- No `if` follows the end of a text, so that none may be chained there. -/
theorem isChained_flushAt (h : walk.IsChained (.ended offset :: events)) :
    (walk.flushAt offset).IsChained events := by
  obtain hNone | ⟨depth, expr, hPlace⟩ | hAwaits := h
  · unfold flushAt
    left
    split <;> exact hNone
  · rw [flushAt, hPlace]
    exact .inr (.inl ⟨depth, expr, hPlace⟩)
  · rw [flushAt, hAwaits.place]
    exact .inr (.inr ⟨hAwaits.place, hAwaits.label, hAwaits.choice, hAwaits.comes⟩)

/-- One event keeps the account: conditions are chained exactly while their `if` comes next. -/
theorem isChained_step {event : Event} (h : walk.IsChained (event :: events))
    (hHeeds : Heeds (event :: events)) : (walk.step event).IsChained events := by
  have hSame : event.word? = none → firstWord? (event :: events) = firstWord? events := by
    intro hEvent
    rw [firstWord?, List.findSome?_cons, hEvent]
    rfl
  have hStays : event.word? = none → walk.IsChained events := by
    intro hEvent
    obtain hNone | hHeader | hAwaits := h
    · exact .inl hNone
    · exact .inr (.inl hHeader)
    · exact .inr (.inr { hAwaits with comes := hSame hEvent ▸ hAwaits.comes })
  cases event with
  | comment span => exact hStays rfl
  | directive span => exact hStays rfl
  | filler token =>
      obtain hNone | ⟨depth, expr, hPlace⟩ | hAwaits := hStays rfl
      · exact .inl hNone
      · exact .inr (.inl ⟨depth, expr.absorb token, by simp [step, hPlace, Place.absorb]⟩)
      · exact .inr (.inr { hAwaits with place := by simp [step, hAwaits.place, Place.absorb] })
  | word here next => exact isChained_readWord h hHeeds.1
  | ended offset => exact isChained_flushAt h

/-- The condition of an `else` is kept up to its `if`, over every part of a reading. -/
theorem isChained_run (h : walk.IsChained (events ++ others)) (hHeeds : Heeds (events ++ others)) :
    (walk.run events).IsChained others := by
  induction events generalizing walk with
  | nil => exact h
  | cons event events ih =>
      have hFirst : Heeds ([event] ++ (events ++ others)) := hHeeds
      exact ih (isChained_step h hHeeds) hFirst.of_append

theorem chained_start (region : Region) : (Walk.start region).chained = none := by
  cases region <;> rfl

/-- Where a module ends, no condition of an `else` is kept. -/
theorem IsChained.none_of_outside (h : walk.IsChained events)
    (hPlace : walk.place.isOutside = true) : walk.chained = none := by
  obtain hNone | ⟨depth, expr, hHeader⟩ | hAwaits := h
  · exact hNone
  · rw [hHeader] at hPlace
    cases hPlace
  · rw [hAwaits.place] at hPlace
    cases hPlace

end HdlIndex.Verilog.Walk

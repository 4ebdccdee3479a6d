import HdlIndex.Proofs.Symbols.Gained
import HdlIndex.Proofs.Verilog.WordReading
import HdlIndex.Symbols.HdlProcess

/-! The written form of procedural statements, and the walk through them. Statements are nested, and
nothing but the innermost open block, and the word behind a statement, tells where the outermost one
ends. A statement is written in fragments that follow each other, which is what that can be read
off, and the walk takes one fragment at a time. -/
namespace HdlIndex.Verilog

/-- The depth of brackets behind a word. No word closes a bracket that is not open, and outside of
brackets stands only what is allowed there. -/
def bracketDepth (allowed : Symbol → Bool) (depth : Nat) (word : String) : Option Nat :=
  let symbol := Symbol.ofText word
  if symbol.isOpener then some (depth + 1)
  else if symbol.isCloser then (if depth = 0 then none else some (depth - 1))
  else if depth = 0 && ! allowed symbol then none
  else some depth

/-- The brackets of the words match, and none of the words is quoted or commented out. -/
def isBalanced (allowed : Symbol → Bool) (words : List String) : Bool :=
  words.all isPlainText && words.foldlM (bracketDepth allowed) 0 == some 0

/-- The symbol can be part of an expression outside of brackets. Assignment operators and reserved
words cannot, nor can what ends an expression or needs a colon to end. -/
def Symbol.isOperand : Symbol → Bool
  | semicolon | colon | equals | drives | question | keyword _ => false
  | _ => true

/-- A name that can be declared. -/
def isIdentifier (text : String) : Bool := isPlainText text && Symbol.ofText text == .name

/-- What an assignment assigns. -/
inductive LeftHand where
  /-- A name, and what selects a part of it. -/
  | name (name : String) (part : List String)
  | concat (names : List String)

namespace LeftHand

/-- The words of a left-hand side. -/
def words : LeftHand → List String
  | name text part => text :: part
  | concat names => "\x7b" :: (names.intersperse "," ++ ["\x7d"])

/-- The left-hand side can be written. -/
def isWellFormed : LeftHand → Bool
  | name text part => isIdentifier text && isBalanced Symbol.isOperand part
  | concat names => ! names.isEmpty && names.all isIdentifier

/-- The names that are assigned. -/
def targets : LeftHand → List String
  | name text _ => [text]
  | concat names => names

/-- What selects a part of the name that is assigned. -/
def part : LeftHand → List String
  | name _ part => part
  | concat _ => []

end LeftHand

/-- A procedural statement before it is written. Conditions, choices and the like are given in their
words. -/
inductive ProceduralStatement where
  | assign (target : LeftHand) (blocking : Bool) (value : List String)
  | block (label : Option String) (body : List ProceduralStatement)
  | if (condition : List String) (body : ProceduralStatement)
      (otherwise : Option ProceduralStatement)
  | case (selector : List String) (items : List (List String × ProceduralStatement))
  | for (header : List String) (body : ProceduralStatement)

/-- What a parenthesized header begins. -/
inductive Header where
  | if
  | for
  | case
deriving DecidableEq, Repr

/-- The word in front of a header. -/
def Header.keyword : Header → Keyword
  | «if» => .if
  | «for» => .for
  | case => .case

/-- What a closing word ends. -/
inductive Compound where
  | block
  | case
deriving DecidableEq, Repr

/-- The word that ends a compound statement. -/
def Compound.keyword : Compound → Keyword
  | block => .end
  | case => .endcase

/-- A part of a statement that holds no statement itself. -/
inductive Fragment where
  | assign (target : LeftHand) (blocking : Bool) (value : List String)
  | begin (label : Option String)
  | header (kind : Header) (inside : List String)
  | choice (words : List String)
  | else
  | close (compound : Compound)

namespace Fragment

/-- The words of a fragment. -/
def words : Fragment → List String
  | assign target blocking value =>
    target.words ++ (if blocking then "=" else "<=") :: (value ++ [";"])
  | begin none => ["begin"]
  | begin (some label) => ["begin", ":", label]
  | header kind inside => kind.keyword.text :: "(" :: (inside ++ [")"])
  | choice words => words ++ [":"]
  | «else» => ["else"]
  | close compound => [compound.keyword.text]

/-- The fragment can be written. -/
def isWellFormed : Fragment → Bool
  | assign target _ value => target.isWellFormed && isBalanced Symbol.isOperand value
  | begin label => label.all isIdentifier
  | header _ inside => isBalanced (fun _ => true) inside
  | choice words => words == ["default"] || ! words.isEmpty && isBalanced Symbol.isOperand words
  | «else» | close _ => true

/-- Names among the words of an expression, which are read. -/
def reads (words : List String) : List (String × Role) :=
  (words.filter (Symbol.ofText · = .name)).map (·, .read)

/-- The names of a fragment with their roles. -/
def names : Fragment → List (String × Role)
  | assign target _ value => target.targets.map (·, .target) ++ reads (target.part ++ value)
  | header _ words | choice words => reads words
  | begin _ | «else» | close _ => []

/-- The names that are assigned. -/
def assigned : Fragment → List String
  | assign target _ _ => target.targets
  | _ => []

/-- The names that hold a value from one clock edge to the next. -/
def driven : Fragment → List String
  | assign target false _ => target.targets
  | _ => []

/-- The label of the block that is opened. -/
def label? : Fragment → Option String
  | begin label => label
  | _ => none

/-- The number of open blocks behind a fragment. -/
def nestBehind (nest : Nat) : Fragment → Nat
  | begin _ | header .case _ => nest + 1
  | close _ => nest - 1
  | _ => nest

/-- A statement can end with the fragment. -/
def isLast : Fragment → Bool
  | assign .. | close _ => true
  | _ => false

/-- The fragment continues a condition. -/
def isElse : Fragment → Bool
  | «else» => true
  | _ => false

/-- The fragments are those of one statement inside of `nest` open blocks: at the end of the last
one, and at no other, a statement ends that no block is open around and no `else` continues. -/
def closes (nest : Nat) : List Fragment → Bool
  | [] => false
  | fragment :: fragments =>
    let behind := fragment.nestBehind nest
    if fragment.isLast && behind == 0 && ! fragments.head?.any isElse then fragments.isEmpty
    else closes behind fragments

end Fragment

namespace ProceduralStatement

mutual

/-- The fragments that a statement is written in. -/
def fragments : ProceduralStatement → List Fragment
  | assign target blocking value => [.assign target blocking value]
  | block label body => .begin label :: (ofList body ++ [.close .block])
  | «if» condition body otherwise => .header .if condition :: (fragments body ++ ofElse otherwise)
  | case selector items => .header .case selector :: (ofItems items ++ [.close .case])
  | «for» header body => .header .for header :: fragments body

/-- The fragments of a statement list. -/
def ofList : List ProceduralStatement → List Fragment
  | [] => []
  | statement :: statements => fragments statement ++ ofList statements

/-- The fragments of the other alternative. -/
def ofElse : Option ProceduralStatement → List Fragment
  | none => []
  | some body => .else :: fragments body

/-- The fragments of the items of a case. -/
def ofItems : List (List String × ProceduralStatement) → List Fragment
  | [] => []
  | (choice, body) :: items => .choice choice :: (fragments body ++ ofItems items)

end

open Fragment

/-- What follows a statement inside of `nest` open blocks, if the fragments are to be those of
one. -/
def closesBehind (nest : Nat) (rest : List Fragment) : Bool :=
  if nest == 0 && ! rest.head?.any isElse then rest.isEmpty else closes nest rest

theorem closesBehind_of_pos {nest : Nat} (h : nest ≠ 0) (rest : List Fragment) :
    closesBehind nest rest = closes nest rest := by
  simp [closesBehind, h]

/-- Fragments that no statement ends with lead on. -/
theorem closes_cons {fragment : Fragment} (h : fragment.isLast = false) (nest : Nat)
    (rest : List Fragment) :
    closes nest (fragment :: rest) = closes (fragment.nestBehind nest) rest := by
  simp [closes, h]

theorem closes_last {fragment : Fragment} (h : fragment.isLast = true) (nest : Nat)
    (rest : List Fragment) :
    closes nest (fragment :: rest) = closesBehind (fragment.nestBehind nest) rest := by
  simp [closes, closesBehind, h]

mutual

/-- The fragments of a statement are those of one statement, whatever follows them. -/
theorem closes_fragments (nest : Nat) (rest : List Fragment) : ∀ statement : ProceduralStatement,
    closes nest (statement.fragments ++ rest) = closesBehind nest rest
  | .assign target blocking value => closes_last rfl nest rest
  | .block label body => by
      rw [fragments, List.cons_append, closes_cons rfl, List.append_assoc]
      exact (closes_ofList nest.succ_ne_zero body).trans (closes_last rfl (nest + 1) rest)
  | .if condition body none => by
      rw [fragments, ofElse, List.append_nil, List.cons_append, closes_cons rfl]
      exact closes_fragments nest rest body
  | .if condition body (some otherwise) => by
      have hElse : closesBehind nest (.else :: (otherwise.fragments ++ rest)) =
          closes nest (.else :: (otherwise.fragments ++ rest)) := by
        simp [closesBehind, isElse]
      rw [fragments, ofElse, List.cons_append, closes_cons rfl, List.append_assoc, List.cons_append]
      refine (closes_fragments nest _ body).trans (hElse.trans ?_)
      rw [closes_cons rfl]
      exact closes_fragments nest rest otherwise
  | .case selector items => by
      rw [fragments, List.cons_append, closes_cons rfl, List.append_assoc]
      exact (closes_ofItems nest.succ_ne_zero items).trans (closes_last rfl (nest + 1) rest)
  | .for inside body => by
      rw [fragments, List.cons_append, closes_cons rfl]
      exact closes_fragments nest rest body

/-- Inside of a block statements follow each other. -/
theorem closes_ofList {nest : Nat} (hNest : nest ≠ 0) {rest : List Fragment} :
    ∀ statements : List ProceduralStatement, closes nest (ofList statements ++ rest) =
      closes nest rest
  | [] => rfl
  | statement :: statements => by
      rw [ofList, List.append_assoc, closes_fragments, closesBehind_of_pos hNest]
      exact closes_ofList hNest statements

/-- The items of a case do not end a block that is still inside of that case. -/
theorem closes_ofItems {nest : Nat} (hNest : nest ≠ 0) {rest : List Fragment} :
    ∀ items : List (List String × ProceduralStatement),
      closes nest (ofItems items ++ rest) = closes nest rest
  | [] => rfl
  | (words, body) :: items => by
      rw [ofItems, List.cons_append, closes_cons rfl, List.append_assoc]
      refine (closes_fragments nest _ body).trans ?_
      rw [closesBehind_of_pos hNest]
      exact closes_ofItems hNest items

end

/-- A statement ends with its last fragment, and not before. -/
theorem closes_self (statement : ProceduralStatement) : closes 0 statement.fragments = true := by
  have h := closes_fragments 0 [] statement
  rwa [List.append_nil] at h

/-- The words of a statement. -/
def words (statement : ProceduralStatement) : List String := statement.fragments.flatMap (·.words)

/-- The statement can be written: its names are identifiers and its brackets match. -/
def isWellFormed (statement : ProceduralStatement) : Bool :=
  statement.fragments.all (·.isWellFormed)

/-- The names of a statement with their roles. -/
def names (statement : ProceduralStatement) : List (String × Role) :=
  statement.fragments.flatMap (·.names)

/-- The names on the left-hand sides. -/
def assigned (statement : ProceduralStatement) : List String :=
  statement.fragments.flatMap (·.assigned)

/-- The names that non-blocking assignments assign. -/
def driven (statement : ProceduralStatement) : List String := statement.fragments.flatMap (·.driven)

/-- The labels of the blocks. -/
def labels (statement : ProceduralStatement) : List String :=
  statement.fragments.filterMap (·.label?)

/-- The words of an always block that a clock triggers. -/
def alwaysWords (clock : String) (statement : ProceduralStatement) : List String :=
  "always" :: "@" :: "(" :: "posedge" :: clock :: ")" :: statement.words

end ProceduralStatement

section Walking

variable {word token : Token} {words : List Token} {after next : Option Token} {base : Walk}
  {process : HdlProcess} {nest depth depth' : Nat} {header : Bool} {statement : Sequential}

/-- The names among the words of an expression, as they are added to a body. -/
def readEntries (words : List Token) : List BodyWord :=
  (words.filter (Symbol.ofText ·.text = .name)).map fun token =>
    ⟨(Lexeme.ofToken token).word, .read⟩

theorem named_readEntries (words : List Token) :
    (readEntries words).map (·.named) = Fragment.reads (words.map (·.text)) := by
  simp [readEntries, Fragment.reads, List.filter_map, Function.comp_def, BodyWord.named,
    Lexeme.word, Lexeme.ofToken]

theorem readEntries_append (words others : List Token) :
    readEntries (words ++ others) = readEntries words ++ readEntries others := by
  simp [readEntries]

theorem readEntries_of_ne_name (h : Symbol.ofText token.text ≠ .name) :
    readEntries [token] = [] := by
  simp [readEntries, h]

/-- The statement has begun, and no concatenation is open that it began with. -/
def Sequential.IsSettled (statement : Sequential) : Prop :=
  statement.count ≠ 0 ∧ statement.concat = none

/-- Words that continue a settled statement do not change what it assigns. -/
def Sequential.Continues (statement later : Sequential) : Prop :=
  statement.IsSettled → later.IsSettled ∧ later.targets = statement.targets

/-- Words of a statement go on from where earlier ones left it. -/
theorem Sequential.Continues.trans {first second third : Sequential} (h : first.Continues second)
    (h' : second.Continues third) : first.Continues third := by
  intro hFirst
  obtain ⟨hSecond, hTargets⟩ := h hFirst
  exact ⟨(h' hSecond).1, (h' hSecond).2.trans hTargets⟩

/-- A block in the middle of a statement, or in the header of one. -/
def Block.amid (process : HdlProcess) (nest : Nat) (header : Bool) (depth : Nat)
    (statement : Sequential) : Block :=
  { process := some process, nest, depth := header.toNat + depth
    headerDepth := if header then some 0 else none, statement }

/-- What an expression may hold outside of brackets. The parentheses of a header are brackets. -/
def Symbol.isAllowed (header : Bool) (symbol : Symbol) : Bool := header || symbol.isOperand

namespace Walk

/-- Within a statement a word is added to the process, and the statement goes on. -/
theorem readBodyWord_amid (process : HdlProcess) (nest : Nat) (header : Bool) (depth : Nat)
    (statement : Sequential) (token : Token) :
    ∃ later, statement.Continues later ∧
      readBodyWord (.amid process nest header depth statement) (.ofToken token) =
        .amid (process.gain (readEntries [token])) nest header depth later := by
  unfold readBodyWord
  dsimp only
  split
  · next hSymbol hProcess =>
    obtain rfl := Option.some.inj hProcess
    have hName : Symbol.ofText token.text = .name := hSymbol
    have hEntries : readEntries [token] = [⟨(Lexeme.ofToken token).word, .read⟩] := by
      simp [readEntries, hName]
    rw [hEntries, HdlProcess.pushBody_eq_gain]
    refine ⟨_, ?_, rfl⟩
    rintro ⟨hCount, hConcat⟩
    simp [Block.amid, hCount, hConcat, Sequential.IsSettled, Sequential.targets]
  · next hOther =>
    have hName : Symbol.ofText token.text ≠ .name := fun hName => hOther process hName rfl
    rw [readEntries_of_ne_name hName, HdlProcess.gain_nil]
    refine ⟨_, ?_, rfl⟩
    rintro ⟨-, hConcat⟩
    exact ⟨⟨Nat.succ_ne_zero _, hConcat⟩, rfl⟩

/-- An opening bracket that begins no header deepens the statement. -/
theorem readOpener_amid (here : Lexeme) :
    readOpener (.amid process nest header depth statement) here =
      .amid process nest header (depth + 1)
        { statement with
          count := statement.count + 1
          concat :=
            if here.symbol = .braceOpen && statement.count = 0 then some (header.toNat + depth + 1)
            else statement.concat } := by
  simp only [readOpener, Block.amid, Bool.and_false, Bool.false_and, Bool.false_eq_true, if_false]
  rfl

/-- A closing bracket that ends no header leaves the statement open. -/
theorem readCloser_amid (hDepth : depth ≠ 0) (here : Lexeme) :
    readCloser (.amid process nest header depth statement) here =
      .amid process nest header (depth - 1)
        { statement with
          concat :=
            if here.symbol = .braceClose && statement.concat = some (header.toNat + depth) then none
            else statement.concat } := by
  have hOuter : header.toNat + depth - 1 = header.toNat + (depth - 1) := by omega
  have hHeader : (Block.amid process nest header depth statement).headerDepth ≠
      some ((Block.amid process nest header depth statement).depth - 1) := by
    cases header <;> simp [Block.amid, hDepth, Ne.symm]
  rw [readCloser, if_neg hHeader]
  simp only [Block.amid, hOuter]
  rfl

/-- A word of an expression continues the statement. -/
theorem readBlock_amid (walk : Walk)
    (hWord : bracketDepth (Symbol.isAllowed header) depth token.text = some depth')
    (next : Option Lexeme) :
    ∃ later, statement.Continues later ∧
      walk.readBlock true (.amid process nest header depth statement) (.ofToken token) next =
        walk.goto (.alwaysBlock true
          (.amid (process.gain (readEntries [token])) nest header depth' later)) := by
  have hSymbol : (Lexeme.ofToken token).symbol = .ofText token.text := rfl
  rw [bracketDepth] at hWord
  rw [readBlock, hSymbol]
  split at hWord
  · next hOpener =>
    obtain rfl := Option.some.inj hWord
    have hName : Symbol.ofText token.text ≠ .name := fun hName => by
      simp [hName, Symbol.isOpener] at hOpener
    rw [if_pos hOpener, readEntries_of_ne_name hName, HdlProcess.gain_nil]
    refine ⟨_, ?_, congrArg _ (congrArg _ (readOpener_amid _))⟩
    rintro ⟨hCount, hConcat⟩
    simp [hCount, hConcat, Sequential.IsSettled, Sequential.targets]
  split at hWord
  · next hOpener hCloser =>
    split at hWord
    · cases hWord
    next hDepth =>
    obtain rfl := Option.some.inj hWord
    have hName : Symbol.ofText token.text ≠ .name := fun hName => by
      simp [hName, Symbol.isCloser] at hCloser
    rw [if_neg hOpener, if_pos hCloser, readEntries_of_ne_name hName, HdlProcess.gain_nil]
    refine ⟨_, ?_, congrArg _ (congrArg _ (readCloser_amid hDepth _))⟩
    rintro ⟨hCount, hConcat⟩
    simp [hCount, hConcat, Sequential.IsSettled, Sequential.targets]
  · next hOpener hCloser =>
    split at hWord
    · cases hWord
    next hAllowed =>
    obtain rfl := Option.some.inj hWord
    rw [if_neg hOpener, if_neg hCloser]
    obtain ⟨later, hLater, hBody⟩ := readBodyWord_amid process nest header depth statement token
    split
    · exact ⟨later, hLater, by rw [hBody]⟩
    next hOutside =>
    have hOperand : (Symbol.ofText token.text).isOperand = true := by
      cases header
      · obtain rfl : depth = 0 := by simpa [Block.amid] using hOutside
        simpa [Symbol.isAllowed] using hAllowed
      · simp [Block.amid] at hOutside
    split
    case h_7 hEvent | h_8 hEvent =>
      rw [readEntries_of_ne_name (by simp [hEvent]), HdlProcess.gain_nil]
      exact ⟨statement, fun hSettled => ⟨hSettled, rfl⟩, rfl⟩
    case h_9 => exact ⟨later, hLater, by rw [hBody]⟩
    all_goals
      rename_i hBarred
      simp [hBarred, Symbol.isOperand] at hOperand

/-- The walk is in an always block under a clock, in the middle of a statement that continues the
given one. Every statement continues one that has not begun. -/
def Amid (base : Walk) (process : HdlProcess) (nest : Nat) (header : Bool) (depth : Nat)
    (statement : Sequential) (walk : Walk) : Prop :=
  ∃ later, statement.Continues later ∧
    base.Stands (.alwaysBlock true (.amid process nest header depth later)) walk

/-- The walk is at the start of a statement of an always block under a clock. -/
def Begins (base : Walk) (process : HdlProcess) (nest : Nat) : Walk → Prop :=
  base.Stands (.alwaysBlock true { process := some process, nest })

theorem Begins.idle : machine.Idle (base.Begins process nest) := Awaits.idle fun _ _ => rfl

theorem Amid.idle : machine.Idle (base.Amid process nest header depth statement) := by
  rintro token walk hBlank ⟨later, hLater, hWalk⟩
  exact ⟨later, hLater, Awaits.idle (fun _ _ => rfl) token walk hBlank hWalk⟩

/-- A word within a statement leads on from wherever in the statement it stands. -/
theorem Amid.leads {Q R : Walk → Prop}
    (hRead : ∀ later notes, statement.Continues later →
      Q (({ base with
          place := .alwaysBlock true (.amid process nest header depth later)
          label := .idle, notes } : Walk).read (.ofToken word)
        ((words.head?.or after).map .ofToken)))
    (hRest : machine.LeadsThrough words after Q R) :
    machine.LeadsThrough (word :: words) after
      (base.Amid process nest header depth statement) R := by
  rintro tokens hTokens events walk hReads ⟨later, hLater, hWalk⟩
  exact Stands.leads (fun _ _ => rfl) (fun notes => hRead later notes hLater) hRest tokens hTokens
    events walk hReads hWalk

/-- The names of an expression are added to the body, and the statement goes on. -/
theorem Amid.leads_expression
    (hWords : (words.map (·.text)).foldlM (bracketDepth (Symbol.isAllowed header)) depth =
      some depth') :
    machine.LeadsThrough words after (base.Amid process nest header depth statement)
      (base.Amid (process.gain (readEntries words)) nest header depth' statement) := by
  induction words generalizing process depth with
  | nil =>
      obtain rfl : depth = depth' := by simpa using hWords
      simpa [readEntries] using .nil Amid.idle
  | cons word words ih =>
      rw [List.map_cons, List.foldlM_cons] at hWords
      obtain ⟨between, hWord, hWords⟩ := Option.bind_eq_some_iff.1 hWords
      have hEntries : (process.gain (readEntries [word])).gain (readEntries words) =
          process.gain (readEntries (word :: words)) := by
        rw [HdlProcess.gain_gain, ← readEntries_append]
        rfl
      rw [← hEntries]
      refine Amid.leads (fun later notes hLater => ?_) (ih hWords)
      obtain ⟨further, hFurther, hRead⟩ := readBlock_amid _ hWord _
      exact ⟨further, hLater.trans hFurther, notes, hRead⟩

/-- What the walk takes from some words: the names of the body, the signals that hold a value, and
the labels. -/
structure Harvest where
  entries : List BodyWord := []
  driven : List Word := []
  labels : List Word := []

/-- The harvest is that of the fragments. The signals stand among the targets. -/
structure Harvest.IsOf (harvest : Harvest) (fragments : List Fragment) : Prop where
  names : harvest.entries.map (·.named) = fragments.flatMap (·.names)
  driven : harvest.driven.map (·.text) = fragments.flatMap (·.driven)
  labels : harvest.labels.map (·.text) = fragments.filterMap (·.label?)
  targets : harvest.driven.Sublist ((harvest.entries.filter (·.role = .target)).map (·.word))

/-- The walk with the signals and the labels of a harvest recorded. -/
def gains (base : Walk) (harvest : Harvest) : Walk :=
  { base with
    found.labels := harvest.labels.foldl (·.push ·) base.found.labels
    found.clocked := harvest.driven.foldl
      (fun signals word => signals.record word.stem base.conditions) base.found.clocked }

/-- The always block is closed at a byte offset, and with it the module item that it is. -/
def Ended (base : Walk) (process : HdlProcess) (offset : Nat) : Walk → Prop :=
  ((base.commitProcess process offset).endItem).Stands .moduleBody

/-- The walk is behind a fragment that ends with a word. Where a statement can end, the always block
ends with it unless a block is open around it or an `else` comes next. -/
def Behind (base : Walk) (isLast : Bool) (process : HdlProcess) (nest : Nat) (last : Token)
    (next : Option Token) : Walk → Prop :=
  if isLast && nest == 0 && ! isNext (next.map .ofToken) (.keyword .else) then
    base.Ended process last.span.stop
  else base.Begins process nest

/-- Recording the targets of a block changes what is found of clocked signals only. -/
theorem foldl_recordClocked (found : Findings) (words : List Word) (conditions : List String) :
    words.foldl (recordClocked · · conditions) found =
      { found with
        clocked :=
          words.foldl (fun signals word => signals.record word.stem conditions)
            found.clocked } := by
  induction words generalizing found with
  | nil => rfl
  | cons word words ih => exact ih _

/-- The conditions that stay in force behind an item with `blocks` open blocks around it. In a case
the next choice is to come. -/
def framesBehind (blocks : Nat) (frames : List Frame) : List Frame :=
  match frames.dropWhile fun frame => frame.single && blocks ≤ frame.owner with
  | [] => []
  | top :: rest =>
    if top.selector.isSome && top.owner = blocks then { top with awaiting := true } :: rest
    else top :: rest

/-- The end of an item leaves the branches that it is the whole of, and leaves all else. -/
theorem endItem_eq (walk : Walk) :
    walk.endItem =
      { walk.leaveFrames fun frame => frame.single && walk.blocks ≤ frame.owner with
        frames := framesBehind walk.blocks walk.frames } := by
  unfold endItem framesBehind
  dsimp only [leaveFrames]
  cases walk.frames.dropWhile fun frame => frame.single && walk.blocks ≤ frame.owner with
  | nil => rfl
  | cons top rest =>
      dsimp only
      split <;> rfl

/-- Closing a block looks at neither place nor label nor notes. -/
theorem commitProcess_with (walk : Walk) (place : Place) (label : Label) (notes : List Note)
    (process : HdlProcess) (offset : Nat) : ∃ notes',
    ({ walk with place, label, notes } : Walk).commitProcess process offset =
      { walk.commitProcess process offset with place, label, notes := notes' } :=
  ⟨_, rfl⟩

theorem behind_eq_ended {isLast : Bool} (hLast : isLast = true) (hNest : nest = 0)
    (hElse : isNext (next.map .ofToken) (.keyword .else) = false) :
    base.Behind isLast process nest word next = base.Ended process word.span.stop := by
  rw [Behind, hLast, hNest, hElse, if_pos (by simp)]

/-- Behind a statement that an `else` follows the block goes on. -/
theorem behind_eq_begins {isLast : Bool} (h : isLast = true → nest = 0 →
      isNext (next.map .ofToken) (.keyword .else) = true) :
    base.Behind isLast process nest word next = base.Begins process nest := by
  rw [Behind, if_neg]
  intro hEnds
  simp only [Bool.and_eq_true, beq_iff_eq, Bool.not_eq_true'] at hEnds
  rw [h hEnds.1.1 hEnds.1.2] at hEnds
  cases hEnds.2

/-- A statement that no block is open around ends the block, unless an `else` comes next. -/
theorem behind_endStatement {walk : Walk} {place : Place} {notes : List Note}
    (hWalk : walk = { base with place, label := .idle, notes }) :
    base.Behind true process 0 word next
      (walk.endStatement true { process := some process } (.ofToken word) (next.map .ofToken)) := by
  subst hWalk
  rw [endStatement]
  cases hElse : isNext (next.map Lexeme.ofToken) (.keyword .else) with
  | true =>
      rw [behind_eq_begins fun _ _ => hElse]
      exact ⟨notes, rfl⟩
  | false =>
      rw [behind_eq_ended rfl rfl hElse]
      obtain ⟨notes', hCommit⟩ := commitProcess_with base place .idle notes process word.span.stop
      refine ⟨notes', ?_⟩
      dsimp only
      rw [if_neg (by simp), Lexeme.span, Lexeme.ofToken, hCommit, backToBody, goto,
        endItem_eq, endItem_eq]
      rfl

theorem Behind.idle {isLast : Bool} : machine.Idle (base.Behind isLast process nest word next) := by
  unfold Behind
  split
  · exact Awaits.idle fun _ _ => rfl
  · exact Begins.idle

/-- A semicolon outside of brackets ends the statement. -/
theorem Amid.leads_semicolon (hWord : word.text = ";") :
    machine.LeadsThrough [word] after (base.Amid process nest false 0 statement)
      (base.Behind true process nest word after) := by
  have hSymbol : (Lexeme.ofToken word).symbol = .semicolon := Lexeme.symbol_ofToken hWord
  refine Amid.leads (fun later notes _ => ?_) (.nil Behind.idle)
  simp only [Walk.read, readBlock, hSymbol, Symbol.isOpener, Symbol.isCloser, Block.amid]
  by_cases hNest : nest = 0
  · subst hNest
    exact behind_endStatement rfl
  · rw [behind_eq_begins fun _ hZero => absurd hZero hNest]
    simp only [hNest, if_false]
    exact ⟨notes, rfl⟩

/-- The walk is behind the left-hand side of an assignment. The names that it assigns are the first
ones that the body gained, and they are reads as yet. -/
def Assigns (base : Walk) (process : HdlProcess) (nest : Nat) (assigned : List Word)
    (others : List BodyWord) (walk : Walk) : Prop :=
  ∃ statement : Sequential,
    statement.targets = List.range' process.body.size assigned.length ∧
    base.Stands (.alwaysBlock true (.amid
      (process.gain (assigned.map (⟨·, .read⟩) ++ others)) nest false 0 statement)) walk

theorem Assigns.idle {assigned : List Word} {others : List BodyWord} :
    machine.Idle (base.Assigns process nest assigned others) := by
  rintro token walk hBlank ⟨statement, hTargets, hWalk⟩
  exact ⟨statement, hTargets, Awaits.idle (fun _ _ => rfl) token walk hBlank hWalk⟩

/-- Names that follow each other in the body become targets together. -/
theorem readAssignment_amid (walk : Walk) {assigned : List Word} {others : List BodyWord}
    (hAssigned : assigned ≠ [])
    (hTargets : statement.targets = List.range' process.body.size assigned.length)
    (nonBlocking : Bool) :
    walk.readAssignment true
      (.amid (process.gain (assigned.map (⟨·, .read⟩) ++ others)) nest false 0
        statement) nonBlocking =
      let later := walk.goto (.alwaysBlock true (.amid
        (process.gain (assigned.map (⟨·, .target⟩) ++ others)) nest false 0
        { statement with count := statement.count + 1 }))
      if nonBlocking then later.collect (assigned.foldl (recordClocked · · walk.conditions) ·)
      else later := by
  have hMark := process.mark_foldl_gain [] assigned others .target false
  have hWords := process.bodyWord?_gain [] assigned others .read false
  simp only [List.length_nil, Nat.add_zero, List.nil_append] at hMark hWords
  rw [← hTargets] at hMark hWords
  have hSome : statement.targets ≠ [] := by simpa [hTargets] using hAssigned
  unfold readAssignment
  dsimp only [Block.amid]
  split
  · next hNil => exact (hSome hNil).elim
  · next hNone _ => cases hNone
  · next hProcess _ =>
    obtain rfl := Option.some.inj hProcess
    rw [hMark, hWords]
    cases nonBlocking <;> rfl

/-- The operator of an assignment makes targets of the names in front of it. Those of a non-blocking
one are recorded. -/
theorem Assigns.leads_operator {Q : Walk → Prop} {blocking : Bool} {assigned : List Word}
    {others : List BodyWord} (hAssigned : assigned ≠ [])
    (hWord : word.text = if blocking then "=" else "<=")
    (hRest : machine.LeadsThrough words after
      (Amid (base.gains { driven := if blocking then [] else assigned })
        (process.gain (assigned.map (⟨·, .target⟩) ++ others)) nest false 0 {}) Q) :
    machine.LeadsThrough (word :: words) after (base.Assigns process nest assigned others) Q := by
  rintro tokens hTokens events walk hReads ⟨statement, hTargets, hWalk⟩
  refine Stands.leads (fun _ _ => rfl)
    (fun notes => ?_) hRest tokens hTokens events walk hReads hWalk
  refine ⟨{ statement with count := statement.count + 1 },
    fun hSettled => absurd rfl hSettled.1, notes, ?_⟩
  have hSymbol : (Lexeme.ofToken word).symbol = if blocking then .equals else .drives := by
    cases blocking <;> exact Lexeme.symbol_ofToken hWord
  have hBlock (walk : Walk) (block : Block) (next : Option Lexeme) (hDepth : block.depth = 0) :
      walk.readBlock true block (.ofToken word) next =
        walk.readAssignment true block (! blocking) := by
    cases blocking <;> simp [readBlock, hSymbol, Symbol.isOpener, Symbol.isCloser, hDepth]
  simp only [Walk.read]
  rw [hBlock _ _ _ rfl, readAssignment_amid _ hAssigned hTargets]
  cases blocking with
  | true => rfl
  | false =>
      simp only [collect, Bool.not_false, if_true]
      rw [foldl_recordClocked]
      rfl

theorem symbol_of_isIdentifier (h : isIdentifier token.text = true) :
    (Lexeme.ofToken token).symbol = .name := by
  simp only [isIdentifier, Bool.and_eq_true, beq_iff_eq] at h
  exact h.2

/-- A name begins an assignment, and what selects a part of it is read. -/
theorem Begins.leads_name {part : List Token} (hWord : isIdentifier word.text = true)
    (hPart : isBalanced Symbol.isOperand (part.map (·.text)) = true) :
    machine.LeadsThrough (word :: part) after (base.Begins process nest)
      (base.Assigns process nest [(Lexeme.ofToken word).word] (readEntries part)) := by
  have hSymbol := symbol_of_isIdentifier hWord
  have hBalanced :
      (part.map (·.text)).foldlM (bracketDepth (Symbol.isAllowed false)) 0 = some 0 := by
    simp only [isBalanced, Bool.and_eq_true, beq_iff_eq] at hPart
    exact hPart.2
  let begun := process.gain [⟨(Lexeme.ofToken word).word, .read⟩]
  let first : Sequential := ⟨1, some process.body.size, none, #[]⟩
  have hExpression : machine.LeadsThrough part after (base.Amid begun nest false 0 first)
      (base.Amid (begun.gain (readEntries part)) nest false 0 first) :=
    Amid.leads_expression hBalanced
  refine Stands.leads (fun _ _ => rfl) (fun notes => ?_) (hExpression.imp ?_)
  · refine ⟨_, fun hSettled => ⟨hSettled, rfl⟩, notes, ?_⟩
    simp only [Walk.read, readBlock, hSymbol, Symbol.isOpener, Symbol.isCloser, readBodyWord,
      HdlProcess.pushBody_eq_gain]
    rfl
  · rintro walk ⟨later, hLater, hWalk⟩
    rw [HdlProcess.gain_gain] at hWalk
    exact ⟨later, (hLater ⟨Nat.one_ne_zero, rfl⟩).2, hWalk⟩

/-- The walk is inside of a concatenation that a statement begins with. -/
def Concats (base : Walk) (process : HdlProcess) (nest : Nat) (assigned : List Word) (walk : Walk) :
    Prop :=
  ∃ count, base.Stands
    (.alwaysBlock true (.amid (process.gain (assigned.map (⟨·, .read⟩))) nest false 1
    ⟨count + 1, none, some 1, (List.range' process.body.size assigned.length).toArray⟩)) walk

theorem Concats.idle {assigned : List Word} :
    machine.Idle (base.Concats process nest assigned) := by
  rintro token walk hBlank ⟨count, hWalk⟩
  exact ⟨count, Awaits.idle (fun _ _ => rfl) token walk hBlank hWalk⟩

/-- A name between the braces is one more target of the assignment. -/
theorem Concats.leads_name {assigned : List Word} {Q : Walk → Prop}
    (hWord : isIdentifier word.text = true)
    (hRest : machine.LeadsThrough words after
      (base.Concats process nest (assigned ++ [(Lexeme.ofToken word).word])) Q) :
    machine.LeadsThrough (word :: words) after (base.Concats process nest assigned) Q := by
  have hSymbol := symbol_of_isIdentifier hWord
  refine .of_exists fun count =>
    Stands.leads (fun _ _ => rfl) (fun notes => ⟨count + 1, notes, ?_⟩) hRest
  have hName : readBodyWord (.amid (process.gain (assigned.map (⟨·, .read⟩))) nest false 1
      ⟨count + 1, none, some 1, (List.range' process.body.size assigned.length).toArray⟩)
      (.ofToken word) =
        .amid (process.gain ((assigned ++ [(Lexeme.ofToken word).word]).map (⟨·, .read⟩)))
          nest false 1 ⟨count + 2, none, some 1, (List.range' process.body.size
            (assigned ++ [(Lexeme.ofToken word).word]).length).toArray⟩ := by
    simp [readBodyWord, hSymbol, Block.amid, HdlProcess.pushBody_eq_gain, HdlProcess.size_gain,
      List.range'_concat, ← Array.toList_inj]
  simp only [Walk.read, readBlock, hSymbol, Symbol.isOpener, Symbol.isCloser]
  rw [hName]
  rfl

/-- A comma between two targets changes nothing. -/
theorem Concats.leads_comma {assigned : List Word} {Q : Walk → Prop} (hWord : word.text = ",")
    (hRest : machine.LeadsThrough words after (base.Concats process nest assigned) Q) :
    machine.LeadsThrough (word :: words) after (base.Concats process nest assigned) Q := by
  have hSymbol : (Lexeme.ofToken word).symbol = .comma := Lexeme.symbol_ofToken hWord
  refine .of_exists fun count =>
    Stands.leads (fun _ _ => rfl) (fun notes => ⟨count + 1, notes, ?_⟩) hRest
  simp only [Walk.read, readBlock, hSymbol, Symbol.isOpener, Symbol.isCloser, readBodyWord]
  rfl

/-- The names of a concatenation are added to the body one after the other. -/
theorem Concats.leads_names {names : List String} (hNames : names.all isIdentifier = true)
    (hWords : words.map (·.text) = names.intersperse ",") :
    ∃ assigned : List Word, assigned.map (·.text) = names ∧
      ∀ base process nest front after, machine.LeadsThrough words after
        (Concats base process nest front) (Concats base process nest (front ++ assigned)) := by
  induction names generalizing words with
  | nil =>
      obtain rfl : words = [] := by simpa using hWords
      exact ⟨[], rfl, fun base process nest front after => by simpa using .nil Concats.idle⟩
  | cons name names ih =>
      rw [List.all_cons, Bool.and_eq_true] at hNames
      cases names with
      | nil =>
          simp only [List.intersperse_singleton, List.map_eq_cons_iff,
            List.map_eq_nil_iff] at hWords
          obtain ⟨word, _, rfl, rfl, rfl⟩ := hWords
          exact ⟨[(Lexeme.ofToken word).word], rfl, fun base process nest front after =>
            Concats.leads_name hNames.1 (.nil Concats.idle)⟩
      | cons next names =>
          simp only [List.intersperse_cons_cons, List.map_eq_cons_iff] at hWords
          obtain ⟨word, _, rfl, rfl, comma, words, rfl, hComma, hOthers⟩ := hWords
          obtain ⟨assigned, hAssigned, hLeads⟩ := ih hNames.2 hOthers
          refine ⟨(Lexeme.ofToken word).word :: assigned, congrArg (word.text :: ·) hAssigned, ?_⟩
          intro base process nest front after
          have hRest := hLeads base process nest (front ++ [(Lexeme.ofToken word).word]) after
          rw [← List.append_cons] at hRest
          exact Concats.leads_name hNames.1 (Concats.leads_comma hComma hRest)

/-- A brace begins a concatenation, and one ends it. -/
theorem Begins.leads_concat {names : List String} (hNames : names.all isIdentifier = true)
    (hWords : words.map (·.text) = (LeftHand.concat names).words) :
    ∃ assigned : List Word, assigned.map (·.text) = names ∧
      ∀ base process nest after, machine.LeadsThrough words after (Begins base process nest)
        (Assigns base process nest assigned []) := by
  simp only [LeftHand.words, List.map_eq_cons_iff, List.map_eq_append_iff,
    List.map_eq_nil_iff] at hWords
  obtain ⟨«open», _, rfl, hOpen, names, _, rfl, hList, close, _, rfl, hClose, rfl⟩ := hWords
  have hOpenSymbol : (Lexeme.ofToken «open»).symbol = .braceOpen := Lexeme.symbol_ofToken hOpen
  have hCloseSymbol : (Lexeme.ofToken close).symbol = .braceClose := Lexeme.symbol_ofToken hClose
  obtain ⟨assigned, hAssigned, hLeads⟩ := Concats.leads_names hNames hList
  refine ⟨assigned, hAssigned, fun base process nest after => ?_⟩
  have hEnd : machine.LeadsThrough [close] after (Concats base process nest assigned)
      (Assigns base process nest assigned []) := by
    refine .of_exists fun count =>
      Stands.leads (fun _ _ => rfl) (fun notes => ?_) (.nil Assigns.idle)
    refine ⟨⟨count + 1, none, none, (List.range' process.body.size assigned.length).toArray⟩, by
      simp [Sequential.targets], notes, ?_⟩
    simp only [Walk.read, readBlock, hCloseSymbol, Symbol.isOpener, Symbol.isCloser,
      Bool.false_eq_true, if_false, if_true]
    rw [readCloser_amid Nat.one_ne_zero, hCloseSymbol, List.append_nil]
    rfl
  have hBlock : readOpener { process := some process, nest } (.ofToken «open») =
      .amid (process.gain []) nest false 1 ⟨1, none, some 1, #[]⟩ := by
    simp [readOpener, hOpenSymbol, Block.amid]
  refine Stands.leads (fun _ _ => rfl) (fun notes => ⟨0, notes, ?_⟩)
    (.append (hLeads base process nest [] _) hEnd)
  simp only [Walk.read, readBlock, hOpenSymbol, Symbol.isOpener, if_true]
  rw [hBlock]
  rfl

/-- The left-hand side of an assignment is walked up to its operator. -/
theorem Begins.leads_leftHand {target : LeftHand} (hTarget : target.isWellFormed = true)
    (hWords : words.map (·.text) = target.words) :
    ∃ (assigned : List Word) (others : List BodyWord), assigned ≠ [] ∧
      assigned.map (·.text) = target.targets ∧ others.map (·.named) = Fragment.reads target.part ∧
      ∀ base process nest after, machine.LeadsThrough words after (Begins base process nest)
        (Assigns base process nest assigned others) := by
  cases target with
  | name text part =>
      simp only [LeftHand.isWellFormed, Bool.and_eq_true] at hTarget
      simp only [LeftHand.words, List.map_eq_cons_iff] at hWords
      obtain ⟨word, part, rfl, rfl, rfl⟩ := hWords
      refine ⟨[(Lexeme.ofToken word).word], readEntries part, by simp, rfl,
        named_readEntries part, ?_⟩
      intro base process nest after
      exact Begins.leads_name hTarget.1 hTarget.2
  | concat names =>
      simp only [LeftHand.isWellFormed, Bool.and_eq_true, Bool.not_eq_true',
        List.isEmpty_eq_false_iff] at hTarget
      obtain ⟨assigned, rfl, hLeads⟩ := Begins.leads_concat hTarget.2 hWords
      exact ⟨assigned, [], by simpa using hTarget.1, rfl, rfl, hLeads⟩

end Walk

end Walking

end HdlIndex.Verilog

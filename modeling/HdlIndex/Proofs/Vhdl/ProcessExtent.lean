import HdlIndex.Proofs.Computed
import HdlIndex.Proofs.Symbols.Gained
import HdlIndex.Proofs.Token.Words
import HdlIndex.Proofs.Vhdl.ProcessText
import HdlIndex.Proofs.Vhdl.WordReading
import HdlIndex.Vhdl.Scan
import Mathlib.Tactic.FinCases

/-! The walk through the written body of a process, one fragment at a time, and with that the extent
of the process. The walk opens it at its label, or at the word `process`, and closes it behind the
word `process` of its `end process`; the `end` of a statement inside of it closes nothing. -/
namespace HdlIndex.Vhdl

section Fragments

variable {word token : Token} {words : List Token} {after : Option Token} {base : Walk}
  {process : HdlProcess} {depth : Nat} {first : Option Nat}

/-- The names among the words of an expression, as they are added to a body. -/
def readEntries (words : List Token) : List BodyWord :=
  (words.filter (Symbol.ofText ·.text = .name)).map fun token =>
    ⟨(Lexeme.ofToken token).word, .read⟩

theorem named_readEntries (words : List Token) :
    (readEntries words).map (·.named) = Fragment.reads (words.map (·.text)) := by
  simp [readEntries, Fragment.reads, List.filter_map, Function.comp_def, BodyWord.named,
    Lexeme.word, Lexeme.ofToken]

theorem readEntries_append (words others : List Token) :
    readEntries (words ++ others) = readEntries words ++ readEntries others := by
  simp [readEntries]

/-- Words that are not barred mean none of the symbols that end a statement or a header. -/
theorem mem_barredWords {spelling : String}
    (h : (Lexeme.ofToken token).symbol.spelling? = some spelling) (hMem : spelling ∈ barredWords) :
    token.text ∈ barredWords := by
  have hText : token.text = spelling := Symbol.eq_of_spelling? h
  rwa [hText]

theorem isEdgeFunction_keyword (word : Keyword) : isEdgeFunction word.text = false := by
  rw [← Bool.not_eq_true]
  intro h
  have hName := Keyword.ofText?_text word
  simp only [isEdgeFunction, Bool.or_eq_true, beq_iff_eq] at h
  rcases h with h | h <;> rw [h] at hName <;> cases hName

namespace Walk

/-- The walk is inside of a statement of a process, some words behind its start. -/
def Inside (base : Walk) (process : HdlProcess) (depth : Nat) (first : Option Nat) (walk : Walk) :
    Prop :=
  ∃ count, base.Stands (.processBody process depth ⟨count + 1, first⟩) walk

/-- The walk is at the start of a statement of a process. -/
def Begins (base : Walk) (process : HdlProcess) : Walk → Prop :=
  base.Stands (.processBody process 0 {})

theorem Inside.idle : machine.Idle (base.Inside process depth first) := by
  rintro token walk hBlank ⟨count, hWalk⟩
  exact ⟨count, Stands.idle (fun _ _ => rfl) token walk hBlank hWalk⟩

theorem Begins.idle : machine.Idle (base.Begins process) := Stands.idle fun _ _ => rfl

/-- A word that leaves the statement open is added to the body if it is a name. -/
theorem readBodyWord_eq (walk : Walk) (statement : Sequential) (token : Token) :
    walk.readBodyWord process depth statement (.ofToken token) false =
      walk.goto (.processBody (process.gain (readEntries [token]) (isEdgeFunction token.text))
        (depthAfter depth (Symbol.ofText token.text))
        ⟨statement.count + 1, if statement.count = 0 ∧ Symbol.ofText token.text = .name
          then some process.body.size else statement.first⟩) := by
  have hEdge : detectsEdge (.ofToken token) false = isEdgeFunction token.text := by
    simp [detectsEdge, Lexeme.text, Lexeme.ofToken]
  have hProcess : (if isEdgeFunction token.text = true then { process with clocked := true }
      else process) = process.gain [] (isEdgeFunction token.text) := by
    cases isEdgeFunction token.text <;> simp [HdlProcess.gain]
  rw [readBodyWord, hEdge, hProcess]
  by_cases hName : Symbol.ofText token.text = .name
  · have hSymbol : (Lexeme.ofToken token).symbol = .name := hName
    rw [if_pos (by simp [hSymbol]), HdlProcess.pushBody_eq_gain, HdlProcess.gain_gain]
    simp [hName, readEntries, HdlProcess.gain, hSymbol]
  · have hSymbol : (Lexeme.ofToken token).symbol ≠ .name := hName
    rw [if_neg (by simp [hSymbol])]
    simp [hName, readEntries, Lexeme.ofToken]

theorem any_tick {before : Option Lexeme} (h : ∀ lexeme ∈ before, lexeme.symbol ≠ .tick) :
    before.any (·.symbol = .tick) = false := by
  cases before with
  | none => rfl
  | some lexeme => simpa using h lexeme rfl

/-- A word of an expression leaves the statement open. Where no word began the statement, there is
nothing that `<=` could make a target. -/
theorem Inside.read (hBarred : token.text ∉ barredWords)
    (hDrives : token.text = "<=" → depth ≠ 0 ∨ first = none) {count : Nat} {notes : List Note}
    {before next : Option Lexeme} (hBefore : ∀ lexeme ∈ before, lexeme.symbol ≠ .tick) :
    base.Inside (process.gain (readEntries [token]) (isEdgeFunction token.text))
      (depthAfter depth (Symbol.ofText token.text)) first
      (({ base with place := .processBody process depth ⟨count + 1, first⟩, notes } : Walk).read
        (.ofToken token) before next) := by
  have hStay : base.Inside (process.gain (readEntries [token]) (isEdgeFunction token.text))
      (depthAfter depth (Symbol.ofText token.text)) first
      (readBodyWord { base with place := .processBody process depth ⟨count + 1, first⟩, notes }
        process depth ⟨count + 1, first⟩ (.ofToken token) false) := by
    rw [readBodyWord_eq]
    exact ⟨count + 1, notes, by simp [goto]⟩
  have hAbsent {spelling : String} (h : (Lexeme.ofToken token).symbol.spelling? = some spelling)
      (hMem : spelling ∈ barredWords) : False := hBarred (mem_barredWords h hMem)
  simp only [Walk.read]
  unfold readBody
  rw [any_tick hBefore]
  dsimp only
  split
  case h_9 hSymbol =>
    have hText : token.text = "<=" :=
      Symbol.eq_of_spelling? (by rw [← Lexeme.symbol_ofToken rfl, hSymbol]; rfl)
    rcases hDrives hText with hDepth | hFirst
    · rwa [if_neg hDepth]
    · split
      · refine ⟨count, notes, ?_⟩
        simp [markTarget, hFirst, hText, readEntries, isEdgeFunction, depthAfter, Symbol.ofText]
      · exact hStay
  case h_12 => exact hStay
  all_goals
    rename_i hSymbol
    exact (hAbsent (by rw [hSymbol]; rfl) (by decide)).elim

/-- Something that is not an expression's symbol leaves the depth of parentheses. -/
theorem depthAfter_of_ne (hOpen : token.text ≠ "(") (hClose : token.text ≠ ")") :
    depthAfter depth (Symbol.ofText token.text) = depth := by
  unfold depthAfter
  split
  · next hSymbol => exact (hOpen (Symbol.eq_of_spelling? (by rw [hSymbol]; rfl))).elim
  · next hSymbol => exact (hClose (Symbol.eq_of_spelling? (by rw [hSymbol]; rfl))).elim
  · rfl

/-- A word of an expression, and what follows it. -/
theorem Inside.leads_word {Q : Walk → Prop} (hBarred : word.text ∉ barredWords)
    (hDrives : word.text = "<=" → depth ≠ 0 ∨ first = none)
    (hRest : machine.LeadsThrough words after
      (base.Inside (process.gain (readEntries [word]) (isEdgeFunction word.text))
        (depthAfter depth (Symbol.ofText word.text)) first) Q) :
    machine.LeadsThrough (word :: words) after (base.Inside process depth first) Q := by
  refine .of_exists fun count => ?_
  exact Stands.leads (fun _ _ => rfl) (fun _ _ hBefore => Inside.read hBarred hDrives hBefore) hRest

/-- The names of an expression are added to the body, and all its parentheses are closed. -/
theorem Inside.leads_expression {allowed : Bool} (hAllowed : allowed = true → first = none)
    (hWords : isExpression allowed depth (words.map (·.text)) = true) :
    machine.LeadsThrough words after (base.Inside process depth first)
      (base.Inside (process.gain (readEntries words) (words.any (isEdgeFunction ·.text))) 0
        first) := by
  induction words generalizing process depth with
  | nil =>
      obtain rfl : depth = 0 := by simpa [isExpression] using hWords
      simpa [readEntries] using .nil Inside.idle
  | cons word words ih =>
      have hEntries : (process.gain (readEntries [word]) (isEdgeFunction word.text)).gain
          (readEntries words) (words.any (isEdgeFunction ·.text)) =
          process.gain (readEntries (word :: words))
            ((word :: words).any (isEdgeFunction ·.text)) := by
        rw [HdlProcess.gain_gain, ← readEntries_append, List.any_cons, List.singleton_append]
      rw [List.map_cons, isExpression] at hWords
      rw [← hEntries]
      split at hWords
      · next hOpen =>
        refine leads_word (by rw [hOpen]; decide) (by simp [hOpen]) (ih ?_)
        rw [hOpen]
        exact hWords
      split at hWords
      · next hClose =>
        obtain ⟨hDepth, hWords⟩ := Bool.and_eq_true_iff.1 hWords
        refine leads_word (by rw [hClose]; decide) (by simp [hClose]) (ih ?_)
        rw [hClose]
        exact hWords
      · next hOpen hClose =>
        simp only [Bool.and_eq_true, Bool.not_eq_true', List.contains_eq_mem,
          decide_eq_false_iff_not, Bool.or_eq_true, bne_iff_ne] at hWords
        obtain ⟨⟨hBarred, hDrives⟩, hWords⟩ := hWords
        refine leads_word hBarred ?_ (ih ?_)
        · intro hText
          rcases hDrives with (hTrue | hDepth) | hNot
          · exact .inr (hAllowed hTrue)
          · exact .inl hDepth
          · exact (hNot hText).elim
        · rwa [depthAfter_of_ne hOpen hClose]

/-- A keyword that no statement ends with begins one. -/
theorem Begins.leads_keyword (keyword : Keyword) {Q : Walk → Prop}
    (hWord : word.text = keyword.text) (hKeyword : keyword ∉ [.then, .else, .begin, .loop, .is])
    (hNext : keyword = .end → ∀ next ∈ words.head?.or after, next.text ≠ "process")
    (hRest : machine.LeadsThrough words after (base.Inside process 0 none) Q) :
    machine.LeadsThrough (word :: words) after (base.Begins process) Q := by
  apply Stands.leads (fun _ _ => rfl) _ hRest
  intro before notes hBefore
  have hSymbol : (Lexeme.ofToken word).symbol = .keyword keyword :=
    Lexeme.symbol_keyword keyword hWord
  have hStay : base.Inside process 0 none
      (readBodyWord { base with place := .processBody process 0 {}, notes } process 0 {}
        (.ofToken word) false) := by
    have hText : Symbol.ofText word.text = .keyword keyword := hSymbol
    rw [readBodyWord_eq, hText, hWord, isEdgeFunction_keyword]
    exact ⟨0, notes, by simp [goto, readEntries, hText, depthAfter]⟩
  simp only [Walk.read]
  unfold readBody
  rw [any_tick hBefore, hSymbol]
  dsimp only
  split
  case h_11 hEnd =>
    split
    · next token hProcess =>
      obtain ⟨next, hMem, hNextSymbol⟩ := Option.map_eq_some_iff.1 hProcess
      refine (hNext (Symbol.keyword.inj hEnd) next hMem ?_).elim
      apply Symbol.eq_of_spelling?
      rw [← Lexeme.symbol_ofToken rfl, hNextSymbol]
      rfl
    · exact hStay
  case h_12 => exact hStay
  all_goals
    rename_i hEnd
    cases hEnd <;> exact (hKeyword (by decide)).elim

/-- What ends a statement or a header begins the next statement, wherever it stands. -/
theorem leads_end {statement : Sequential} {Q : Walk → Prop}
    (hWord : word.text ∈ [";", "=>", "then", "else", "is", "loop"])
    (hRest : machine.LeadsThrough words after (base.Begins process) Q) :
    machine.LeadsThrough (word :: words) after
      (base.Stands (.processBody process 0 statement)) Q := by
  refine Stands.leads (fun _ _ => rfl) (fun before notes _ => ?_) hRest
  have hSymbol : (Lexeme.ofToken word).symbol = .ofText word.text := rfl
  refine ⟨notes, ?_⟩
  unfold Walk.read readBody
  dsimp only
  rw [hSymbol]
  generalize word.text = text at hWord
  fin_cases hWord <;> rfl

theorem symbol_of_isIdentifier (h : isIdentifier token.text = true) :
    Symbol.ofText token.text = .name := by
  simp only [isIdentifier, Bool.and_eq_true, Option.isNone_iff_eq_none] at h
  rw [Symbol.ofText_of_isNameLike h.1, h.2]

/-- An identifier begins a statement, and may turn out to be its target. -/
theorem Begins.leads_identifier {Q : Walk → Prop} (hWord : isIdentifier word.text = true)
    (hRest : machine.LeadsThrough words after
      (base.Inside (process.gain (readEntries [word]) (isEdgeFunction word.text)) 0
        (some process.body.size)) Q) :
    machine.LeadsThrough (word :: words) after (base.Begins process) Q := by
  refine Stands.leads (fun _ _ => rfl) (fun before notes hBefore => ?_) hRest
  have hName := symbol_of_isIdentifier hWord
  have hSymbol : (Lexeme.ofToken word).symbol = .name := hName
  simp only [Walk.read, readBody, hSymbol, any_tick hBefore, readBodyWord_eq, hName]
  exact ⟨0, notes, by simp [goto, depthAfter]⟩

/-- The symbol of an assignment makes the word that began the statement a target. -/
theorem Inside.leads_symbol {kind : Assignment} {Q : Walk → Prop} {index : Nat}
    (hWord : word.text = kind.symbol)
    (hRest : machine.LeadsThrough words after
      (base.Inside (process.mark index kind.role) 0 (some index)) Q) :
    machine.LeadsThrough (word :: words) after (base.Inside process 0 (some index)) Q := by
  refine .of_exists fun count => Stands.leads (fun _ _ => rfl) (fun before notes _ => ?_) hRest
  have hSymbol : (Lexeme.ofToken word).symbol = .ofText word.text := rfl
  refine ⟨count, notes, ?_⟩
  rw [hWord] at hSymbol
  cases kind <;>
    simp [Walk.read, readBody, hSymbol, Symbol.ofText, Assignment.symbol,
      Assignment.role, markTarget, goto]

/-- What stands left of the symbol of an assignment: the name it begins with becomes a target, and
what selects a part of that is read. -/
theorem Begins.leads_target {kind : Assignment} {name symbol : Token} {part : List Token}
    {Q : Walk → Prop} (hName : isIdentifier name.text = true)
    (hPart : isExpression false 0 (part.map (·.text)) = true) (hSymbol : symbol.text = kind.symbol)
    (hRest : machine.LeadsThrough words after
      (base.Inside (process.gain (⟨(Lexeme.ofToken name).word, kind.role⟩ :: readEntries part)
        ((name :: part).any (isEdgeFunction ·.text))) 0 (some process.body.size)) Q) :
    machine.LeadsThrough (name :: (part ++ symbol :: words)) after (base.Begins process) Q := by
  refine leads_identifier hName (.append (Inside.leads_expression (by simp) hPart) ?_)
  refine Inside.leads_symbol hSymbol ?_
  have hEntry : readEntries [name] = [⟨(Lexeme.ofToken name).word, .read⟩] := by
    simp [readEntries, symbol_of_isIdentifier hName]
  have hMark := process.mark_gain [] (Lexeme.ofToken name).word (readEntries part) kind.role
    ((name :: part).any (isEdgeFunction ·.text))
  rw [HdlProcess.gain_gain, hEntry]
  exact hMark ▸ hRest

/-- The walk takes the words of a fragment from the start of one statement to the start of the next,
and adds the names of the fragment to the body. -/
def Takes (words : List Token) (fragment : Fragment) : Prop :=
  ∃ entries : List BodyWord, entries.map (·.named) = fragment.names ∧
    ∀ (base : Walk) process after, machine.LeadsThrough words after (base.Begins process)
      (base.Begins (process.gain entries fragment.detectsEdge))

/-- The words of an assignment give the entries of its target and of its value. -/
theorem takes_assign {kind : Assignment} {target : Target} {value : List String}
    (hFragment : (Fragment.assign kind target value).isWellFormed = true)
    (hWords : words.map (·.text) = (Fragment.assign kind target value).words) :
    Takes words (.assign kind target value) := by
  simp only [Fragment.isWellFormed, Bool.and_eq_true] at hFragment
  obtain ⟨⟨hName, hPart⟩, hValue⟩ := hFragment
  simp only [Fragment.words, List.map_eq_cons_iff, List.map_eq_append_iff, List.map_eq_nil_iff]
    at hWords
  obtain ⟨name, _, rfl, hNameText, part, _, rfl, hPartText, symbol, _, rfl, hSymbol, words, _, rfl,
    hValueText, semicolon, _, rfl, hSemicolon, rfl⟩ := hWords
  rw [← hNameText] at hName
  rw [← hPartText] at hPart
  rw [← hValueText] at hValue
  refine ⟨⟨(Lexeme.ofToken name).word, kind.role⟩ :: readEntries (part ++ words), ?_, ?_⟩
  · rw [List.map_cons, named_readEntries, Fragment.names, List.map_append, hPartText, hValueText,
      ← hNameText]
    rfl
  · intro base process after
    refine Begins.leads_target hName hPart hSymbol ?_
    refine .append (Inside.leads_expression (by simp) hValue) ?_
    refine .of_exists fun _ => leads_end (by rw [hSemicolon]; decide) ?_
    have hEdge : (Fragment.assign kind target value).detectsEdge =
        ((name :: part).any (isEdgeFunction ·.text) || words.any (isEdgeFunction ·.text)) := by
      have hOthers : isEdgeFunction kind.symbol = false ∧ isEdgeFunction ";" = false := by
        cases kind <;> decide
      simp [Fragment.detectsEdge, Fragment.words, ← hNameText, ← hPartText, ← hValueText, hOthers,
        List.any_map, Function.comp_def, Bool.or_assoc]
    rw [HdlProcess.gain_gain, List.cons_append, ← readEntries_append, hEdge]
    exact .nil Begins.idle

/-- The words of a header give its entries, and lead to the statements inside. -/
theorem takes_header {kind : Header} {expression : List String}
    (hFragment : (Fragment.header kind expression).isWellFormed = true)
    (hWords : words.map (·.text) = (Fragment.header kind expression).words) :
    Takes words (.header kind expression) := by
  rw [Fragment.isWellFormed] at hFragment
  simp only [Fragment.words, List.map_eq_cons_iff, List.map_eq_append_iff, List.map_eq_nil_iff]
    at hWords
  obtain ⟨opener, _, rfl, hOpener, words, _, rfl, hText, closer, _, rfl, hCloser, rfl⟩ := hWords
  rw [← hText] at hFragment
  refine ⟨readEntries words, by rw [named_readEntries, Fragment.names, hText], ?_⟩
  intro base process after
  refine Begins.leads_keyword kind.opener hOpener (by cases kind <;> decide)
    (by cases kind <;> simp [Header.opener]) ?_
  refine .append (Inside.leads_expression (fun _ => rfl) hFragment) ?_
  refine .of_exists fun _ => leads_end (by rw [hCloser]; cases kind <;> decide) ?_
  have hEdge : (Fragment.header kind expression).detectsEdge =
      words.any (isEdgeFunction ·.text) := by
    have hCloser : isEdgeFunction kind.closer = false := by cases kind <;> decide
    simp [Fragment.detectsEdge, Fragment.words, isEdgeFunction_keyword, hCloser, ← hText,
      List.any_map, Function.comp_def]
  rw [hEdge]
  exact .nil Begins.idle

/-- The words that end a compound statement add their names and nothing else. -/
theorem takes_end {compound : Compound}
    (hWords : words.map (·.text) = (Fragment.end compound).words) :
    Takes words (.end compound) := by
  simp only [Fragment.words, List.map_eq_cons_iff, List.map_eq_nil_iff] at hWords
  obtain ⟨ending, _, rfl, hEnding, keyword, _, rfl, hKeyword, semicolon, _, rfl, hSemicolon, rfl⟩ :=
    hWords
  refine ⟨[], rfl, ?_⟩
  intro base process after
  have hEdge : (Fragment.end compound).detectsEdge = false := by cases compound <;> decide
  rw [hEdge, HdlProcess.gain_nil]
  refine Begins.leads_keyword .end hEnding (by decide) ?_ ?_
  · rintro - next hNext
    obtain rfl := Option.some.inj hNext
    rw [hKeyword]
    cases compound <;> decide
  have hEnd {statement : Sequential} : machine.LeadsThrough [semicolon] after
      (base.Stands (.processBody process 0 statement)) (base.Begins process) :=
    leads_end (by rw [hSemicolon]; decide) (.nil Begins.idle)
  -- Of the three words behind `end` only `loop` ends a statement by itself.
  cases compound with
  | loop => exact .of_exists fun _ => leads_end (by rw [hKeyword]; decide) hEnd
  | «if» | case =>
      refine Inside.leads_word (by rw [hKeyword]; decide) (by simp) ?_
      have hName : readEntries [keyword] = [] := by
        rw [readEntries, List.filter_cons_of_neg (by rw [hKeyword]; decide)]
        rfl
      rw [hName, hKeyword, isEdgeFunction_keyword, HdlProcess.gain_nil]
      exact .of_exists fun _ => hEnd

/-- A null statement adds nothing. -/
theorem takes_null (hWords : words.map (·.text) = Fragment.null.words) : Takes words .null := by
  simp only [Fragment.words, List.map_eq_cons_iff, List.map_eq_nil_iff] at hWords
  obtain ⟨null, _, rfl, hNull, semicolon, _, rfl, hSemicolon, rfl⟩ := hWords
  refine ⟨[], rfl, ?_⟩
  intro base process after
  refine Begins.leads_keyword .null hNull (by decide) (by simp) ?_
  have hEdge : Fragment.null.detectsEdge = false := by decide
  rw [hEdge, HdlProcess.gain_nil]
  exact .of_exists fun _ => leads_end (by rw [hSemicolon]; decide) (.nil Begins.idle)

/-- Neither does an `else`. -/
theorem takes_else (hWords : words.map (·.text) = Fragment.else.words) : Takes words .else := by
  simp only [Fragment.words, List.map_eq_cons_iff, List.map_eq_nil_iff] at hWords
  obtain ⟨word, _, rfl, hElse, rfl⟩ := hWords
  refine ⟨[], rfl, ?_⟩
  intro base process after
  have hEdge : Fragment.else.detectsEdge = false := by decide
  rw [hEdge, HdlProcess.gain_nil]
  exact leads_end (by rw [hElse]; decide) (.nil Begins.idle)

/-- Each kind of fragment is taken as a whole. -/
theorem takes_fragment {fragment : Fragment} (hFragment : fragment.isWellFormed = true)
    (hWords : words.map (·.text) = fragment.words) : Takes words fragment := by
  cases fragment with
  | assign kind target value => exact takes_assign hFragment hWords
  | null => exact takes_null hWords
  | header kind expression => exact takes_header hFragment hWords
  | «else» => exact takes_else hWords
  | «end» compound => exact takes_end hWords

/-- Fragments that follow each other are taken one after the other, so that the body gains the names
of all of them in order. -/
theorem leads_fragments {fragments : List Fragment}
    (hFragments : fragments.all (·.isWellFormed) = true)
    (hWords : words.map (·.text) = fragments.flatMap (·.words)) :
    ∃ entries : List BodyWord, entries.map (·.named) = fragments.flatMap (·.names) ∧
      ∀ (base : Walk) process after, machine.LeadsThrough words after (base.Begins process)
        (base.Begins (process.gain entries (fragments.any (·.detectsEdge)))) := by
  induction fragments generalizing words with
  | nil =>
      obtain rfl : words = [] := by simpa using hWords
      refine ⟨[], rfl, fun base process after => ?_⟩
      simpa using .nil Begins.idle
  | cons fragment fragments ih =>
      rw [List.all_cons, Bool.and_eq_true] at hFragments
      rw [List.flatMap_cons, List.map_eq_append_iff] at hWords
      obtain ⟨first, others, rfl, hFirst, hOthers⟩ := hWords
      obtain ⟨entries, hEntries, hFirst⟩ := takes_fragment hFragments.1 hFirst
      obtain ⟨further, hFurther, hOthers⟩ := ih hFragments.2 hOthers
      refine ⟨entries ++
        further, by rw [List.map_append, hEntries, hFurther, List.flatMap_cons], ?_⟩
      intro base process after
      have hLeads := (hFirst base process (others.head?.or after)).append
        (hOthers base (process.gain entries fragment.detectsEdge) after)
      rwa [HdlProcess.gain_gain] at hLeads

end Walk

end Fragments

section Extent

variable {words : List Token} {word : Token} {after : Option Token} {base : Walk}
  {process : HdlProcess} {written : WrittenProcess}

namespace WrittenProcess

/-- The process is the written one, apart from where it stands. -/
structure Gives (written : WrittenProcess) (process : HdlProcess) : Prop where
  label : process.label = written.label
  sensitivity : process.sensitivity.toList.map (·.text) = written.sensitivity
  all : process.all = false
  body : process.body.toList.map (·.named) = written.names
  clocked : process.clocked = written.detectsEdge

/-- The labels that are known once a process is opened whose first word is given. -/
def labels (written : WrittenProcess) (first : Token) (labels : Words) : Words :=
  match written.label with
  | none => labels
  | some label => labels.push ⟨label, first.span⟩

end WrittenProcess

namespace Walk

/-- The walk in front of a process's parenthesis. -/
def Opens (base : Walk) (process : HdlProcess) : Walk → Prop :=
  base.Stands (.processSensitivity process none)

/-- The walk inside of a process's sensitivity list. -/
def Lists (base : Walk) (process : HdlProcess) : Walk → Prop :=
  base.Stands (.processSensitivity process (some 0))

/-- The walk that took the label of a process, if there is one. -/
def labelled (base : Walk) (written : WrittenProcess) (first : Token) : Walk :=
  { base with label := none, found.labels := written.labels first base.found.labels }

/-- The word `process` opens a process, at the label in front of it if there is one. -/
theorem leads_processWord {Q : Walk → Prop} (hWord : word.text = "process")
    (hRest : machine.LeadsThrough words after
      (Opens { base with label := none } (.starting (base.label.map Word.text)
        ((base.label.map fun label => label.span.start).getD word.span.start))) Q) :
    machine.LeadsThrough (word :: words) after (base.Stands (.architectureBody {})) Q := by
  refine Stands.leads (fun _ _ => rfl) (fun before notes _ => ?_) hRest
  have hSymbol : (Lexeme.ofToken word).symbol = .keyword .process :=
    Lexeme.symbol_keyword .process hWord
  refine ⟨notes, ?_⟩
  simp only [Walk.read, readStatement, hSymbol, readFirst]
  rfl

/-- A label is recorded, and waits for the statement that it names. -/
theorem leads_label {colon : Token} {Q : Walk → Prop} (hBase : base.label = none)
    (hLabel : isIdentifier word.text = true) (hColon : colon.text = ":")
    (hRest : machine.LeadsThrough words after
      (Stands { base with
        label := some (Lexeme.ofToken word).word
        found.labels :=
          base.found.labels.push (Lexeme.ofToken word).word } (.architectureBody {})) Q) :
    machine.LeadsThrough (word :: colon :: words) after (base.Stands (.architectureBody {})) Q := by
  have hSymbol : (Lexeme.ofToken word).symbol = .name := symbol_of_isIdentifier hLabel
  have hColonSymbol : (Lexeme.ofToken colon).symbol = .colon := Lexeme.symbol_ofToken hColon
  have hFirst : machine.LeadsThrough (colon :: words) after
      (base.Stands (.architectureBody ⟨1, some (Lexeme.ofToken word).word, none⟩)) Q := by
    refine Stands.leads (fun _ _ => rfl) (fun before notes _ => ?_) hRest
    refine ⟨notes, ?_⟩
    simp [Walk.read, readStatement, readLater, hColonSymbol, takeLabel, nextStatement, goto]
  refine Stands.leads (fun _ _ => rfl) (fun before notes _ => ?_) hFirst
  refine ⟨notes, ?_⟩
  simp [Walk.read, readStatement, readFirst, readOther, isUnitName, hSymbol, hBase,
    Symbol.isWord, goto]

/-- A process opens at its label if it has one, and at its keyword otherwise. -/
theorem leads_opening {first : Token} {others : List Token} {Q : Walk → Prop}
    (hLabel : written.label.all isIdentifier = true) (hBase : base.label = none)
    (hWords : (first :: words).map (·.text) = written.opening)
    (hRest : machine.LeadsThrough others after
      ((base.labelled written first).Opens (.starting written.label first.span.start)) Q) :
    machine.LeadsThrough (first :: (words ++ others)) after
      (base.Stands (.architectureBody {})) Q := by
  unfold labelled WrittenProcess.labels at hRest
  unfold WrittenProcess.opening at hWords
  cases hCase : written.label with
  | none =>
      simp only [hCase] at hRest hWords
      obtain ⟨hProcess, hNil⟩ := List.cons_eq_cons.1 hWords
      obtain rfl := List.map_eq_nil_iff.1 hNil
      refine leads_processWord hProcess ?_
      rw [hBase]
      exact hRest
  | some label =>
      simp only [hCase] at hRest hWords
      simp only [List.map_eq_cons_iff, List.map_cons, List.cons_eq_cons,
        List.map_eq_nil_iff] at hWords
      obtain ⟨rfl, colon, _, rfl, hColon, word, _, rfl, hProcess, rfl⟩ := hWords
      refine leads_label hBase (by simpa [hCase] using hLabel) hColon ?_
      exact leads_processWord hProcess hRest

theorem Lists.idle : machine.Idle (base.Lists process) := Stands.idle fun _ _ => rfl

/-- A name in the sensitivity list is added to it. -/
theorem leads_listed {Q : Walk → Prop} (hWord : isIdentifier word.text = true)
    (hRest : machine.LeadsThrough words after
      (base.Lists (process.pushSensitivity (Lexeme.ofToken word).word)) Q) :
    machine.LeadsThrough (word :: words) after (base.Lists process) Q := by
  have hSymbol : (Lexeme.ofToken word).symbol = .name := symbol_of_isIdentifier hWord
  refine Stands.leads (fun _ _ => rfl) (fun before notes _ => ⟨notes, ?_⟩) hRest
  simp [Walk.read, readSensitivity, hSymbol, goto]

/-- A comma parts names. -/
theorem leads_comma {Q : Walk → Prop} (hWord : word.text = ",")
    (hRest : machine.LeadsThrough words after (base.Lists process) Q) :
    machine.LeadsThrough (word :: words) after (base.Lists process) Q := by
  have hSymbol : (Lexeme.ofToken word).symbol = .other := Lexeme.symbol_ofToken hWord
  refine Stands.leads (fun _ _ => rfl) (fun before notes _ => ⟨notes, ?_⟩) hRest
  simp [Walk.read, readSensitivity, hSymbol]

/-- The names of a sensitivity list are recorded in order. -/
theorem leads_sensitivity {names : List String} (hNames : names.all isIdentifier = true)
    (hWords : words.map (·.text) = names.intersperse ",") :
    ∃ listed : List Word, listed.map (·.text) = names ∧
      ∀ (base : Walk) (process : HdlProcess) after, machine.LeadsThrough words after
        (base.Lists process)
        (base.Lists { process with sensitivity := process.sensitivity ++ listed.toArray }) := by
  induction names generalizing words with
  | nil =>
      obtain rfl : words = [] := by simpa using hWords
      exact ⟨[], rfl, fun base process after => by simpa using .nil Lists.idle⟩
  | cons name names ih =>
      rw [List.all_cons, Bool.and_eq_true] at hNames
      cases names with
      | nil =>
          simp only [List.intersperse_singleton, List.map_eq_cons_iff,
            List.map_eq_nil_iff] at hWords
          obtain ⟨word, _, rfl, rfl, rfl⟩ := hWords
          refine ⟨[(Lexeme.ofToken word).word], rfl, fun base process after => ?_⟩
          refine leads_listed hNames.1 ?_
          simpa [HdlProcess.pushSensitivity] using .nil Lists.idle
      | cons next names =>
          simp only [List.intersperse_cons_cons, List.map_eq_cons_iff] at hWords
          obtain ⟨word, _, rfl, rfl, comma, words, rfl, hComma, hOthers⟩ := hWords
          obtain ⟨listed, hListed, hLeads⟩ := ih hNames.2 hOthers
          refine ⟨(Lexeme.ofToken word).word :: listed, congrArg (word.text :: ·) hListed, ?_⟩
          intro base process after
          refine leads_listed hNames.1 (leads_comma hComma ?_)
          simpa [HdlProcess.pushSensitivity] using
            hLeads base (process.pushSensitivity (Lexeme.ofToken word).word) after

/-- The words between the list and the body. -/
theorem leads_begin {close begin : Token} {Q : Walk → Prop} (hClose : close.text = ")")
    (hBegin : begin.text = "begin")
    (hRest : machine.LeadsThrough words after (base.Begins process) Q) :
    machine.LeadsThrough (close :: begin :: words) after (base.Lists process) Q := by
  have hCloseSymbol : (Lexeme.ofToken close).symbol = .parenClose := Lexeme.symbol_ofToken hClose
  have hBeginSymbol : (Lexeme.ofToken begin).symbol = .keyword .begin :=
    Lexeme.symbol_keyword .begin hBegin
  have hBody : machine.LeadsThrough (begin :: words) after
      (base.Stands (.processDeclarations process)) Q := by
    refine Stands.leads (fun _ _ => rfl) (fun before notes _ => ⟨notes, ?_⟩) hRest
    simp [Walk.read, readProcessDeclarations, hBeginSymbol, goto]
  refine Stands.leads (fun _ _ => rfl) (fun before notes _ => ⟨notes, ?_⟩) hBody
  simp [Walk.read, readSensitivity, hCloseSymbol, goto]

/-- A parenthesis behind `process` opens the list. -/
theorem leads_open {Q : Walk → Prop} (hWord : word.text = "(")
    (hRest : machine.LeadsThrough words after (base.Lists process) Q) :
    machine.LeadsThrough (word :: words) after (base.Opens process) Q := by
  have hSymbol : (Lexeme.ofToken word).symbol = .parenOpen := Lexeme.symbol_ofToken hWord
  refine Stands.leads (fun _ _ => rfl) (fun before notes _ => ⟨notes, ?_⟩) hRest
  simp [Walk.read, readSensitivity, hSymbol, goto]

/-- The words `end process;` close the process, and the next concurrent statement begins. -/
theorem leads_closing {ending closing semicolon : Token} (hEnding : ending.text = "end")
    (hClosing : closing.text = "process") (hSemicolon : semicolon.text = ";") :
    machine.LeadsThrough [ending, closing, semicolon] after (base.Begins process)
      ((base.commitProcess process closing.span.stop).Stands (.architectureBody {})) := by
  have hEndingSymbol : (Lexeme.ofToken ending).symbol = .keyword .end :=
    Lexeme.symbol_keyword .end hEnding
  have hClosingSymbol : (Lexeme.ofToken closing).symbol = .keyword .process :=
    Lexeme.symbol_keyword .process hClosing
  have hSemicolonSymbol : (Lexeme.ofToken semicolon).symbol = .semicolon :=
    Lexeme.symbol_ofToken hSemicolon
  let closed := base.commitProcess process closing.span.stop
  have hLast : machine.LeadsThrough [semicolon] after
      (closed.Stands (.skipStatement .architectureBody 0))
        (closed.Stands (.architectureBody {})) := by
    refine Stands.leads (fun _ _ => rfl) (fun before notes _ => ⟨notes, ?_⟩)
      (.nil (Stands.idle fun _ _ => rfl))
    simp [Walk.read, readSkipped, hSemicolonSymbol, goto, Home.place]
  have hWord : machine.LeadsThrough [closing, semicolon] after
      (closed.Stands (.skipStatement .architectureBody 0))
        (closed.Stands (.architectureBody {})) := by
    refine Stands.leads (fun _ _ => rfl) (fun before notes _ => ⟨notes, ?_⟩) hLast
    simp [Walk.read, readSkipped, hClosingSymbol]
  refine Stands.leads (fun _ _ => rfl) (fun before notes _ => ?_) hWord
  have hNext : Lexeme.ofToken closing = ⟨closing, .keyword .process⟩ := by
    rw [← hClosingSymbol]
    rfl
  simp only [Walk.read, readBody, hEndingSymbol, List.head?_cons, Option.some_or,
    Option.map_some, hNext]
  exact ⟨_, rfl⟩

/-- A written process is walked as a whole: it opens at its first word, gives what it says, and
closes behind the last word but one. -/
theorem leads_process (hWritten : written.isWellFormed = true)
    (hWords : words.map (·.text) = written.words) :
    ∃ first closing process, words.head? = some first ∧ words.dropLast.getLast? = some closing ∧
      written.Gives process ∧ process.span.start = first.span.start ∧
      ∀ (base : Walk) after, base.label = none → machine.LeadsThrough words after
        (base.Stands (.architectureBody {}))
        (((base.labelled written first).commitProcess process closing.span.stop).Stands
          (.architectureBody {})) := by
  simp only [WrittenProcess.isWellFormed, Bool.and_eq_true] at hWritten
  obtain ⟨⟨hLabel, hNames⟩, hFragments⟩ := hWritten
  simp only [WrittenProcess.words, List.map_eq_append_iff, List.map_eq_cons_iff,
    List.map_eq_nil_iff] at hWords
  obtain ⟨opening, _, rfl, hOpening, «open», _, rfl, hOpen, names, _, rfl, hSensitivity,
    close, _, rfl, hClose, begin, _, rfl, hBegin, body, _, rfl, hBody, ending, _, rfl, hEnding,
    closing, _, rfl, hClosing, semicolon, _, rfl, hSemicolon, rfl⟩ := hWords
  have hFirst : opening ≠ [] := by
    rintro rfl
    unfold WrittenProcess.opening at hOpening
    split at hOpening <;> cases hOpening
  obtain ⟨first, opening, rfl⟩ := List.exists_cons_of_ne_nil hFirst
  obtain ⟨listed, hListed, hLists⟩ := leads_sensitivity hNames hSensitivity
  obtain ⟨entries, hEntries, hLeads⟩ := leads_fragments hFragments hBody
  let starting := HdlProcess.starting written.label first.span.start
  let opened := { starting with sensitivity := starting.sensitivity ++ listed.toArray }
  refine ⟨first, closing, opened.gain entries written.detectsEdge, rfl, ?_, ?_, rfl, ?_⟩
  · have hSplit : first :: opening ++ «open» :: (names ++ close :: begin ::
        (body ++ [ending, closing, semicolon])) = (first :: opening ++ «open» :: (names ++ close ::
          begin :: (body ++ [ending]))) ++ [closing] ++ [semicolon] := by simp
    rw [hSplit, List.dropLast_concat, List.getLast?_concat]
  · refine ⟨rfl, ?_, rfl, ?_, rfl⟩
    · simpa [opened, starting, HdlProcess.starting, HdlProcess.gain] using hListed
    · rw [WrittenProcess.names, ← hEntries]
      simp [opened, starting, HdlProcess.starting, HdlProcess.gain]
  · intro base after hBase
    refine leads_opening hLabel hBase hOpening (leads_open hOpen (.append (hLists _ _ _) ?_))
    refine leads_begin hClose hBegin (.append ?_ (leads_closing hEnding hClosing hSemicolon))
    exact hLeads _ opened _

end Walk

namespace WrittenProcess

/-- The names that are assigned are those with the role of a target. -/
theorem assigned_eq (written : WrittenProcess) (kind : Assignment) :
    (written.names.filter (·.2 = kind.role)).map (·.1) = written.assigned kind := by
  have hReads (words : List String) : (Fragment.reads words).filter (·.2 = kind.role) = [] := by
    rw [Fragment.reads, List.filter_map, List.map_eq_nil_iff, List.filter_eq_nil_iff]
    cases kind <;> simp [Assignment.role]
  have hRole (kind' : Assignment) : kind'.role = kind.role ↔ kind' = kind := by
    cases kind <;> cases kind' <;> decide
  unfold names assigned
  induction written.fragments with
  | nil => rfl
  | cons fragment fragments ih =>
      rw [List.flatMap_cons, List.filter_append, List.map_append, ih]
      cases fragment with
      | assign kind' target value =>
          rw [Fragment.names, List.filter_cons, hReads]
          by_cases hKind : kind' = kind <;> simp [hRole, hKind, Fragment.assigned?]
      | header kind' expression => simp [Fragment.names, Fragment.assigned?, hReads]
      | null => rfl
      | «else» => rfl
      | «end» compound => rfl

end WrittenProcess

/-- What a process assigns is what is written left of its assignments. -/
theorem WrittenProcess.Gives.assigned (h : written.Gives process) (kind : Assignment) :
    (process.body.toList.filter (·.role = kind.role)).map (·.word.text) =
      written.assigned kind := by
  rw [← written.assigned_eq kind, ← h.body, List.filter_map, List.map_map]
  rfl

end Extent

end HdlIndex.Vhdl

import HdlIndex.Proofs.Computed
import HdlIndex.Proofs.Symbols.Distinct
import HdlIndex.Proofs.Token.Words
import HdlIndex.Proofs.Verilog.StatementRun
import HdlIndex.Verilog.Scan

/-! The walk through the fragments of a statement, up to the one that the statement ends with, and
with that the extent of an always block. Nothing is written at its end, so that the walk closes it
behind the last word of its statement, and neither at an `end` nor at a semicolon inside of that. -/
namespace HdlIndex.Verilog

section Fragments

variable {word token : Token} {words : List Token} {after next : Option Token} {base : Walk}
  {process : HdlProcess} {nest : Nat} {fragment : Fragment} {fragments others : List Fragment}

namespace Walk

variable {harvest later : Harvest}

/-- What is taken from words and from others behind them. -/
def Harvest.append (harvest later : Harvest) : Harvest where
  entries := harvest.entries ++ later.entries
  driven := harvest.driven ++ later.driven
  labels := harvest.labels ++ later.labels

/-- What two stretches of fragments give is what they give one after the other. -/
theorem Harvest.IsOf.append (h : harvest.IsOf fragments) (h' : later.IsOf others) :
    (harvest.append later).IsOf (fragments ++ others) where
  names := by simp [Harvest.append, h.names, h'.names]
  driven := by simp [Harvest.append, h.driven, h'.driven]
  labels := by simp [Harvest.append, h.labels, h'.labels]
  targets := by
    rw [Harvest.append, List.filter_append, List.map_append]
    exact h.targets.append h'.targets

theorem gains_append : base.gains (harvest.append later) = (base.gains harvest).gains later := by
  simp [gains, Harvest.append, conditions]

theorem gains_nil : base.gains {} = base := rfl

/-- The walk takes the words of a fragment from the start of a statement to where the next one
starts, or to the end of the always block. A colon behind it would be read as that of a label. -/
def Takes (words : List Token) (fragment : Fragment) : Prop :=
  ∃ last harvest, words.getLast? = some last ∧ harvest.IsOf [fragment] ∧
    ∀ (base : Walk) process nest after,
      (fragment.isLast = true ∧ fragment.nestBehind nest = 0 ∨ ∀ next ∈ after, next.text ≠ ":") →
      machine.LeadsThrough words after (base.Begins process nest)
        ((base.gains harvest).Behind fragment.isLast (process.gain harvest.entries)
          (fragment.nestBehind nest) last after)

/-- The names of the left-hand side become targets at the operator, and those of the value are
reads. The semicolon ends the statement. -/
theorem takes_assign {target : LeftHand} {blocking : Bool} {value : List String}
    (hFragment : (Fragment.assign target blocking value).isWellFormed = true)
    (hWords : words.map (·.text) = (Fragment.assign target blocking value).words) :
    Takes words (.assign target blocking value) := by
  simp only [Fragment.isWellFormed, isBalanced, Bool.and_eq_true, beq_iff_eq] at hFragment
  obtain ⟨hTarget, -, hValue⟩ := hFragment
  simp only [Fragment.words, List.map_eq_cons_iff, List.map_eq_append_iff, List.map_eq_nil_iff]
    at hWords
  obtain ⟨leftHand, _, rfl, hLeftHand, operator, _, rfl, hOperator, words, _, rfl, rfl,
    semicolon, _, rfl, hSemicolon, rfl⟩ := hWords
  obtain ⟨assigned, others, hSome, hAssigned, hOthers, hLeads⟩ :=
    Begins.leads_leftHand hTarget hLeftHand
  refine ⟨semicolon,
    { entries := assigned.map (⟨·, .target⟩) ++ (others ++ readEntries words)
      driven := if blocking then [] else assigned }, by simp [List.getLast?_cons], ?_, ?_⟩
  · refine ⟨?_, ?_, rfl, ?_⟩
    · have hReads (words others : List String) :
          Fragment.reads (words ++ others) = Fragment.reads words ++ Fragment.reads others := by
        simp [Fragment.reads]
      have hTargets : (assigned.map (⟨·, .target⟩ : Word → BodyWord)).map (·.named) =
          target.targets.map (·, .target) := by
        rw [← hAssigned, List.map_map, List.map_map]
        rfl
      rw [List.map_append, List.map_append, hTargets, hOthers, named_readEntries, ← hReads]
      simp [Fragment.names]
    · cases blocking <;> simp [Fragment.driven, hAssigned]
    · cases blocking with
      | true => exact List.nil_sublist _
      | false =>
          have hTargets : ((assigned.map (⟨·, .target⟩ : Word → BodyWord)).filter
              (·.role = .target)).map (·.word) = assigned := by
            simp [List.filter_map, Function.comp_def]
          rw [List.filter_append, List.map_append, hTargets]
          exact List.sublist_append_left _ _
  · intro base process nest after _
    refine .append (hLeads base process nest _) (Assigns.leads_operator hSome hOperator ?_)
    refine .append (Amid.leads_expression hValue) ?_
    rw [HdlProcess.gain_gain, List.append_assoc]
    exact Amid.leads_semicolon hSemicolon

/-- The next word is a symbol if it is spelled like it. -/
theorem isNext_ofToken (symbol : Symbol) (spelling : String)
    (hSpelling : symbol.spelling? = some spelling) (hSymbol : Symbol.ofText spelling = symbol) :
    isNext (next.map .ofToken) symbol = next.any (·.text == spelling) := by
  cases next with
  | none => rfl
  | some token =>
      rw [Option.map_some, isNext, Option.any_some, Option.any_some, Bool.eq_iff_iff,
        decide_eq_true_iff, beq_iff_eq]
      constructor
      · intro h
        exact Symbol.eq_of_spelling? (by rw [← hSpelling, ← h]; rfl)
      · intro h
        rw [Lexeme.symbol_ofToken h, hSymbol]

theorem expectLabel_of_ne {walk : Walk} {recorded : Bool} (h : ∀ token ∈ next, token.text ≠ ":") :
    walk.expectLabel recorded (next.map .ofToken) = walk := by
  rw [expectLabel, isNext_ofToken .colon ":" rfl rfl, if_neg]
  simpa [Option.any_eq_true] using h

/-- The word `begin` opens a block, and a colon behind it begins a label. -/
theorem read_begin {place : Place} {notes : List Note} (hWord : word.text = "begin")
    (hPlace : place = .alwaysBlock true { process := some process, nest }) (next : Option Lexeme) :
    ({ base with place, label := .idle, notes } : Walk).read (.ofToken word) next =
      expectLabel { base with
        place := .alwaysBlock true { process := some process, nest := nest + 1 }
        label := .idle, notes } true next := by
  have hSymbol : (Lexeme.ofToken word).symbol = .keyword .begin :=
    Lexeme.symbol_keyword .begin hWord
  subst hPlace
  simp only [Walk.read, readBlock, hSymbol, Symbol.isOpener, Symbol.isCloser]
  rfl

/-- A block begins with a statement of its own. A label behind it is recorded and is no word of the
statement. -/
theorem takes_begin {label : Option String}
    (hFragment : (Fragment.begin label).isWellFormed = true)
    (hWords : words.map (·.text) = (Fragment.begin label).words) : Takes words (.begin label) := by
  cases label with
  | none =>
      simp only [Fragment.words, List.map_eq_cons_iff, List.map_eq_nil_iff] at hWords
      obtain ⟨word, _, rfl, hWord, rfl⟩ := hWords
      refine ⟨word, {}, rfl, ⟨rfl, rfl, rfl, .slnil⟩, fun base process nest after hNext => ?_⟩
      rw [behind_eq_begins (by simp [Fragment.isLast]), gains_nil, HdlProcess.gain_nil]
      refine Stands.leads (fun _ _ => rfl) (fun notes => ?_) (.nil Begins.idle)
      rw [read_begin hWord rfl]
      exact ⟨notes, expectLabel_of_ne (hNext.resolve_left (by simp [Fragment.isLast]))⟩
  | some label =>
      simp only [Fragment.words, List.map_eq_cons_iff, List.map_eq_nil_iff] at hWords
      obtain ⟨word, _, rfl, hWord, colon, _, rfl, hColon, name, _, rfl, rfl, rfl⟩ := hWords
      refine ⟨name, { labels := [(Lexeme.ofToken name).word] }, rfl, ⟨rfl, rfl, rfl, .slnil⟩, ?_⟩
      intro base process nest after _
      rw [behind_eq_begins (by simp [Fragment.isLast]), HdlProcess.gain_nil]
      have hName : (Symbol.ofText name.text).isWord = true :=
        (congrArg Symbol.isWord (symbol_of_isIdentifier hFragment)).trans rfl
      refine Stands.leads (fun _ _ => rfl) (fun notes => ?_)
        (Awaits.leads_label true (fun _ _ => rfl) hColon hName (.nil Begins.idle))
      have hNext : isNext (some (Lexeme.ofToken colon)) .colon = true := by
        rw [isNext, Option.any_some, Lexeme.symbol_ofToken hColon]
        rfl
      rw [read_begin hWord rfl, List.head?_cons, Option.some_or, Option.map_some, expectLabel,
        if_pos hNext]
      exact ⟨notes, rfl⟩

/-- The names in the parentheses are reads, and behind them the statement begins anew. -/
theorem takes_header {kind : Header} {inside : List String}
    (hFragment : (Fragment.header kind inside).isWellFormed = true)
    (hWords : words.map (·.text) = (Fragment.header kind inside).words) :
    Takes words (.header kind inside) := by
  simp only [Fragment.isWellFormed, isBalanced, Bool.and_eq_true, beq_iff_eq] at hFragment
  obtain ⟨-, hInside⟩ := hFragment
  simp only [Fragment.words, List.map_eq_cons_iff, List.map_eq_append_iff, List.map_eq_nil_iff]
    at hWords
  obtain ⟨keyword, _, rfl, hKeyword, «open», _, rfl, hOpen, words, _, rfl, hText, close, _,
    rfl, hClose, rfl⟩ := hWords
  rw [← hText] at hInside
  have hKeywordSymbol := Lexeme.symbol_keyword kind.keyword hKeyword
  have hOpenSymbol : (Lexeme.ofToken «open»).symbol = .parenOpen := Lexeme.symbol_ofToken hOpen
  have hCloseSymbol : (Lexeme.ofToken close).symbol = .parenClose := Lexeme.symbol_ofToken hClose
  refine ⟨close, { entries := readEntries words }, by simp [List.getLast?_cons], ?_, ?_⟩
  · exact ⟨by simp [Fragment.names, named_readEntries, hText], rfl, rfl, List.nil_sublist _⟩
  intro base process nest after _
  rw [behind_eq_begins (by simp [Fragment.isLast])]
  let nest' := (Fragment.header kind inside).nestBehind nest
  let place : Place := .alwaysBlock true
    { process := some process, nest := nest', headerPending := true, statement := { count := 1 } }
  have hLast : machine.LeadsThrough [close] after
      (base.Amid (process.gain (readEntries words)) nest' true 0 {})
      (base.Begins (process.gain (readEntries words)) nest') := by
    refine Amid.leads (fun later notes _ => ⟨notes, ?_⟩) (.nil Begins.idle)
    simp only [Walk.read, readBlock, hCloseSymbol, Symbol.isOpener, Symbol.isCloser]
    rfl
  have hParenthesis : machine.LeadsThrough («open» :: (words ++ [close])) after (base.Stands place)
      (base.Begins (process.gain (readEntries words)) nest') := by
    have hExpression : machine.LeadsThrough words (some close) (base.Amid process nest' true 0 {})
        (base.Amid (process.gain (readEntries words)) nest' true 0 {}) :=
      Amid.leads_expression hInside
    refine Stands.leads (fun _ _ => rfl) (fun notes => ?_) (.append hExpression hLast)
    refine ⟨⟨2, none, none, #[]⟩, fun hSettled => absurd rfl hSettled.1, notes, ?_⟩
    simp only [Walk.read, place, readBlock, hOpenSymbol, Symbol.isOpener, readOpener]
    rfl
  refine Stands.leads (fun _ _ => rfl) (fun notes => ⟨notes, ?_⟩) hParenthesis
  simp only [Walk.read, readBlock, hKeywordSymbol, Symbol.isOpener, Symbol.isCloser]
  cases kind <;> rfl

/-- The names of a choice are reads, and its colon begins the statement that it leads to. -/
theorem takes_choice {choice : List String}
    (hFragment : (Fragment.choice choice).isWellFormed = true)
    (hWords : words.map (·.text) = (Fragment.choice choice).words) :
    Takes words (.choice choice) := by
  simp only [Fragment.words, List.map_eq_cons_iff, List.map_eq_append_iff, List.map_eq_nil_iff]
    at hWords
  obtain ⟨words, _, rfl, rfl, colon, _, rfl, hColon, rfl⟩ := hWords
  have hColonSymbol : (Lexeme.ofToken colon).symbol = .colon := Lexeme.symbol_ofToken hColon
  refine ⟨colon, { entries := readEntries words }, by simp, ?_, ?_⟩
  · exact ⟨by simp [Fragment.names, named_readEntries], rfl, rfl, List.nil_sublist _⟩
  intro base process nest after _
  rw [behind_eq_begins (by simp [Fragment.isLast])]
  have hChoice : machine.LeadsThrough words (some colon) (base.Begins process nest)
      (base.Amid (process.gain (readEntries words)) nest false 0 {}) := by
    simp only [Fragment.isWellFormed, isBalanced, Bool.or_eq_true, Bool.and_eq_true, beq_iff_eq,
      List.map_eq_cons_iff, List.map_eq_nil_iff] at hFragment
    rcases hFragment with ⟨word, _, rfl, hWord, rfl⟩ | ⟨-, -, hBalanced⟩
    · have hSymbol : (Lexeme.ofToken word).symbol = .keyword .default :=
        Lexeme.symbol_keyword .default hWord
      have hName : Symbol.ofText word.text ≠ .name := fun hName => by cases hSymbol.symm.trans hName
      rw [readEntries_of_ne_name hName, HdlProcess.gain_nil]
      refine Stands.leads (fun _ _ => rfl) (fun notes => ?_) (.nil Amid.idle)
      refine ⟨⟨1, none, none, #[]⟩, fun hSettled => absurd rfl hSettled.1, notes, ?_⟩
      simp only [Walk.read, readBlock, hSymbol, Symbol.isOpener, Symbol.isCloser, readBlockKeyword,
        readBodyWord]
      rfl
    · intro tokens hTokens events walk hReads hWalk
      have hExpression : machine.LeadsThrough words (some colon) (base.Amid process nest false 0 {})
          (base.Amid (process.gain (readEntries words)) nest false 0 {}) :=
        Amid.leads_expression hBalanced
      exact hExpression tokens hTokens events walk hReads
        ⟨{}, fun hSettled => ⟨hSettled, rfl⟩, hWalk⟩
  refine .append hChoice (Amid.leads (fun later notes _ => ⟨notes, ?_⟩) (.nil Begins.idle))
  simp only [Walk.read, readBlock, hColonSymbol, Symbol.isOpener, Symbol.isCloser]
  rfl

/-- The word `else` begins the next statement. -/
theorem takes_else (hWords : words.map (·.text) = Fragment.else.words) : Takes words .else := by
  simp only [Fragment.words, List.map_eq_cons_iff, List.map_eq_nil_iff] at hWords
  obtain ⟨word, _, rfl, hWord, rfl⟩ := hWords
  have hSymbol : (Lexeme.ofToken word).symbol = .keyword .else := Lexeme.symbol_keyword .else hWord
  refine ⟨word, {}, rfl, ⟨rfl, rfl, rfl, .slnil⟩, fun base process nest after _ => ?_⟩
  rw [behind_eq_begins (by simp [Fragment.isLast]), gains_nil, HdlProcess.gain_nil]
  refine Stands.leads (fun _ _ => rfl) (fun notes => ⟨notes, ?_⟩) (.nil Begins.idle)
  simp only [Walk.read, readBlock, hSymbol, Symbol.isOpener, Symbol.isCloser]
  rfl

/-- The word that closes a block ends the last statement in it. A colon behind it would be a label,
so that it may not follow. -/
theorem takes_close {compound : Compound}
    (hWords : words.map (·.text) = (Fragment.close compound).words) :
    Takes words (.close compound) := by
  simp only [Fragment.words, List.map_eq_cons_iff, List.map_eq_nil_iff] at hWords
  obtain ⟨word, _, rfl, hWord, rfl⟩ := hWords
  have hSymbol := Lexeme.symbol_keyword compound.keyword hWord
  refine ⟨word, {}, rfl, ⟨rfl, rfl, rfl, .slnil⟩, fun base process nest after hNext => ?_⟩
  rw [gains_nil, HdlProcess.gain_nil]
  refine Stands.leads (fun _ _ => rfl) (fun notes => ?_) (.nil Behind.idle)
  let walk : Walk := { base with
    place := .alwaysBlock true { process := some process, nest }, label := .idle, notes }
  have hRead : walk.read (.ofToken word) (after.map .ofToken) =
      if nest - 1 = 0 then
        walk.endStatement true { process := some process, nest := nest - 1 } (.ofToken word)
          (after.map .ofToken)
      else expectLabel { base with
        place := .alwaysBlock true { process := some process, nest := nest - 1 }
        label := .idle, notes } false (after.map .ofToken) := by
    simp only [walk, Walk.read, readBlock, hSymbol, Symbol.isOpener, Symbol.isCloser]
    cases compound <;> rfl
  show Behind _ _ _ _ _ _ (walk.read (.ofToken word) (after.map .ofToken))
  rw [hRead]
  by_cases hNest : nest - 1 = 0
  · rw [if_pos hNest, Fragment.nestBehind, hNest]
    exact behind_endStatement rfl
  · rw [if_neg hNest, Fragment.nestBehind, behind_eq_begins fun _ hZero => absurd hZero hNest]
    exact ⟨notes, expectLabel_of_ne (hNext.resolve_left fun hZero => hNest hZero.2)⟩

/-- Each kind of fragment is taken as a whole. -/
theorem takes_fragment (hFragment : fragment.isWellFormed = true)
    (hWords : words.map (·.text) = fragment.words) : Takes words fragment := by
  cases fragment with
  | assign target blocking value => exact takes_assign hFragment hWords
  | begin label => exact takes_begin hFragment hWords
  | header kind inside => exact takes_header hFragment hWords
  | choice choice => exact takes_choice hFragment hWords
  | «else» => exact takes_else hWords
  | close compound => exact takes_close hWords

/-- No fragment begins with a colon, and one that continues a condition begins with `else`. -/
theorem head?_words (hFragment : fragment.isWellFormed = true) :
    ∃ first, fragment.words.head? = some first ∧ first ≠ ":" ∧
      (fragment.isElse = true → first = "else") := by
  have hColon {name : String} (h : isIdentifier name = true) : name ≠ ":" := by
    rintro rfl
    exact absurd h (by decide)
  have hApart {name : String} (h : false = true) : name = "else" := absurd h Bool.false_ne_true
  cases fragment with
  | assign target blocking value =>
      simp only [Fragment.isWellFormed, Bool.and_eq_true] at hFragment
      cases target with
      | name text part =>
          simp only [LeftHand.isWellFormed, Bool.and_eq_true] at hFragment
          exact ⟨text, rfl, hColon hFragment.1.1, hApart⟩
      | concat names => exact ⟨"\x7b", rfl, by decide, hApart⟩
  | begin label => cases label <;> exact ⟨"begin", rfl, by decide, hApart⟩
  | header kind inside => cases kind <;> exact ⟨_, rfl, by decide, hApart⟩
  | choice words =>
      cases words with
      | nil => simp [Fragment.isWellFormed] at hFragment
      | cons word words =>
          refine ⟨word, rfl, ?_, hApart⟩
          rintro rfl
          simp only [Fragment.isWellFormed, isBalanced, Bool.or_eq_true,
            Bool.and_eq_true, beq_iff_eq, List.cons.injEq, List.foldlM_cons] at hFragment
          rcases hFragment with ⟨hDefault, -⟩ | ⟨-, -, hBalanced⟩
          · exact absurd hDefault (by decide)
          · cases hBalanced
  | «else» => exact ⟨"else", rfl, by decide, fun _ => rfl⟩
  | close compound => cases compound <;> exact ⟨_, rfl, by decide, hApart⟩

/-- The fragments of one statement are taken one after the other, and the always block ends with the
last of them. -/
theorem leads_fragments (hFragments : fragments.all (·.isWellFormed) = true)
    (hWords : words.map (·.text) = fragments.flatMap (·.words))
    (hCloses : Fragment.closes nest fragments = true) :
    ∃ last harvest, words.getLast? = some last ∧ harvest.IsOf fragments ∧
      ∀ (base : Walk) process after, (∀ next ∈ after, next.text ≠ "else") →
        machine.LeadsThrough words after (base.Begins process nest)
          ((base.gains harvest).Ended (process.gain harvest.entries) last.span.stop) := by
  induction fragments generalizing words nest with
  | nil => cases hCloses
  | cons fragment fragments ih =>
      rw [List.all_cons, Bool.and_eq_true] at hFragments
      rw [List.flatMap_cons, List.map_eq_append_iff] at hWords
      obtain ⟨first, others, rfl, hFirst, hOthers⟩ := hWords
      obtain ⟨last, harvest, hLast, hHarvest, hTakes⟩ := takes_fragment hFragments.1 hFirst
      rw [Fragment.closes] at hCloses
      split at hCloses
      · next hEnds =>
        obtain rfl := List.isEmpty_iff.1 hCloses
        obtain rfl := List.map_eq_nil_iff.1 hOthers
        simp only [Bool.and_eq_true, beq_iff_eq] at hEnds
        refine ⟨last, harvest, by rwa [List.append_nil], hHarvest,
          fun base process after hAfter => ?_⟩
        have hElse : isNext (after.map .ofToken) (.keyword .else) = false := by
          rw [isNext_ofToken (.keyword .else) "else" rfl rfl]
          simpa [Option.any_eq_false] using hAfter
        have hLeads := hTakes base process nest after (.inl hEnds.1)
        rwa [behind_eq_ended hEnds.1.1 hEnds.1.2 hElse, ← List.append_nil first] at hLeads
      · next hOpen =>
        obtain ⟨behind, later, hBehind, hLater, hLeads⟩ := ih hFragments.2 hOthers hCloses
        refine ⟨behind, harvest.append later, by simp [hBehind], hHarvest.append hLater, ?_⟩
        intro base process after hAfter
        have hRest := hLeads (base.gains harvest) (process.gain harvest.entries) after hAfter
        rw [HdlProcess.gain_gain, ← gains_append] at hRest
        refine .append ?_ hRest
        -- What follows is not at its end, so that a fragment stands there.
        obtain ⟨next, rest, rfl⟩ := List.exists_cons_of_ne_nil (l := fragments) (by
          rintro rfl
          cases hCloses)
        rw [List.all_cons, Bool.and_eq_true] at hFragments
        obtain ⟨text, hText, hColon, hElse⟩ := head?_words hFragments.2.1
        have hNext : others.head?.map (·.text) = some text := by
          rw [← List.head?_map, hOthers, List.flatMap_cons, List.head?_append, hText]
          rfl
        obtain ⟨token, hToken, rfl⟩ := Option.map_eq_some_iff.1 hNext
        rw [hToken, Option.some_or]
        have hTaken := hTakes base process nest (some token) (.inr (by simpa using hColon))
        rwa [behind_eq_begins] at hTaken
        intro hLastFragment hZero
        have hContinues : next.isElse = true := by
          simpa [hLastFragment, hZero] using hOpen
        rw [isNext_ofToken (.keyword .else) "else" rfl rfl]
        simpa using hElse hContinues

end Walk

end Fragments

section Extent

variable {word : Token} {words : List Token} {after : Option Token} {base : Walk}
  {process : HdlProcess} {clock : String} {statement : ProceduralStatement}

namespace ProceduralStatement

/-- The names of a statement that are assigned are those with the role of a target. -/
theorem names_target (statement : ProceduralStatement) :
    (statement.names.filter (·.2 = .target)).map (·.1) = statement.assigned := by
  have hReads (words : List String) : (Fragment.reads words).filter (·.2 = .target) = [] := by
    simp [Fragment.reads, List.filter_map]
  unfold names assigned
  induction statement.fragments with
  | nil => rfl
  | cons fragment fragments ih =>
      rw [List.flatMap_cons, List.filter_append, List.map_append, ih, List.flatMap_cons]
      cases fragment with
      | assign target blocking value =>
          simp [Fragment.names, Fragment.assigned, hReads, List.filter_map, Function.comp_def]
      | header kind words => simp [Fragment.names, Fragment.assigned, hReads]
      | choice words => simp [Fragment.names, Fragment.assigned, hReads]
      | begin label => rfl
      | «else» => rfl
      | close compound => rfl

/-- All other names are read. -/
theorem names_read (statement : ProceduralStatement) :
    ∀ name ∈ statement.names, name.2 ≠ .target → name.2 = .read := by
  have hReads (words : List String) : ∀ name ∈ Fragment.reads words, name.2 = .read := by
    intro name hMem
    obtain ⟨word, -, rfl⟩ := List.mem_map.1 hMem
    rfl
  intro name hMem hRole
  obtain ⟨fragment, -, hName⟩ := List.mem_flatMap.1 hMem
  cases fragment with
  | assign target blocking value =>
      rcases List.mem_append.1 hName with hTarget | hRead
      · obtain ⟨text, -, rfl⟩ := List.mem_map.1 hTarget
        exact absurd rfl hRole
      · exact hReads _ name hRead
  | header kind words => exact hReads words name hName
  | choice words => exact hReads words name hName
  | begin label => cases hName
  | «else» => cases hName
  | close compound => cases hName

/-- The process is an always block around the statement that a clock triggers, apart from where it
stands. -/
structure Gives (statement : ProceduralStatement) (clock : String)
    (process : HdlProcess) : Prop where
  label : process.label = none
  clocked : process.clocked = true
  all : process.all = false
  sensitivity : process.sensitivity.toList.map (·.text) = [clock]
  body : process.body.toList.map (·.named) = statement.names

/-- The targets of the process are what is written left of the assignments. -/
theorem Gives.assigned (h : statement.Gives clock process) :
    process.signalTargets.map (·.text) = statement.assigned := by
  rw [← statement.names_target, ← h.body, HdlProcess.signalTargets, List.filter_map, List.map_map,
    List.map_map]
  rfl

/-- The other names of the process are read. -/
theorem Gives.read (h : statement.Gives clock process) :
    ∀ entry ∈ process.body.toList, entry.role ≠ .target → entry.role = .read := by
  intro entry hMem
  refine statement.names_read entry.named ?_
  rw [← h.body]
  exact List.mem_map_of_mem hMem

end ProceduralStatement

namespace Walk

/-- The event control of an always block leads to the first statement. -/
theorem leads_control (hClock : isIdentifier clock = true)
    (hWords : words.map (·.text) = ["always", "@", "(", "posedge", clock, ")"]) :
    ∃ first listed, words.head? = some first ∧ listed.text = clock ∧
      ∀ (base : Walk) after, base.awaitsChoice = false →
        machine.LeadsThrough words after (base.Stands .moduleBody)
          (base.Begins { HdlProcess.starting none first.span.start with
            clocked := true, sensitivity := #[listed] } 0) := by
  simp only [List.map_eq_cons_iff, List.map_eq_nil_iff] at hWords
  obtain ⟨first, _, rfl, hFirst, event, _, rfl, hEvent, «open», _, rfl, hOpen, edge, _, rfl,
    hEdge, name, _, rfl, rfl, close, _, rfl, hClose, rfl⟩ := hWords
  refine ⟨first, (Lexeme.ofToken name).word, rfl, rfl, fun base after hBase => ?_⟩
  have hFirstSymbol := Lexeme.symbol_keyword .always hFirst
  have hEventSymbol : (Lexeme.ofToken event).symbol = .event := Lexeme.symbol_ofToken hEvent
  have hOpenSymbol : (Lexeme.ofToken «open»).symbol = .parenOpen := Lexeme.symbol_ofToken hOpen
  have hEdgeSymbol := Lexeme.symbol_keyword .posedge hEdge
  have hNameSymbol := symbol_of_isIdentifier hClock
  have hCloseSymbol : (Lexeme.ofToken close).symbol = .parenClose := Lexeme.symbol_ofToken hClose
  let starting := HdlProcess.starting none first.span.start
  let clocked := { starting with clocked := true }
  let Begun := base.Begins { clocked with sensitivity := #[(Lexeme.ofToken name).word] } 0
  have hClosed : machine.LeadsThrough [close] after (base.Stands (.sensitivityList
      { clocked with sensitivity := #[(Lexeme.ofToken name).word] } 1)) Begun := by
    refine Stands.leads (fun _ _ => rfl) (fun notes => ⟨notes, ?_⟩) (.nil Begins.idle)
    simp only [Walk.read, readSensitivity, hCloseSymbol]
    rfl
  have hListed : machine.LeadsThrough [name, close] after
      (base.Stands (.sensitivityList clocked 1)) Begun := by
    refine Stands.leads (fun _ _ => rfl) (fun notes => ⟨notes, ?_⟩) hClosed
    simp only [Walk.read, readSensitivity, hNameSymbol]
    rfl
  have hClocked : machine.LeadsThrough [edge, name, close] after
      (base.Stands (.sensitivityList starting 1)) Begun := by
    refine Stands.leads (fun _ _ => rfl) (fun notes => ⟨notes, ?_⟩) hListed
    simp only [Walk.read, readSensitivity, hEdgeSymbol]
    rfl
  have hOpened : machine.LeadsThrough [«open», edge, name, close] after
      (base.Stands (.sensitivityList starting 0)) Begun := by
    refine Stands.leads (fun _ _ => rfl) (fun notes => ⟨notes, ?_⟩) hClocked
    simp only [Walk.read, readSensitivity, hOpenSymbol]
    rfl
  have hControl : machine.LeadsThrough [event, «open», edge, name, close] after
      (base.Stands (.alwaysHeader starting)) Begun := by
    refine Stands.leads (fun _ _ => rfl) (fun notes => ⟨notes, ?_⟩) hOpened
    simp only [Walk.read, readAlwaysHeader, hEventSymbol]
    rfl
  refine Stands.leads (fun _ _ => rfl) (fun notes => ⟨notes, ?_⟩) hControl
  have hItem : awaitsChoice { base with place := .moduleBody, label := .idle, notes } = false :=
    hBase
  simp only [Walk.read, readItem, hItem, hFirstSymbol]
  rfl

/-- A written always block is walked as a whole: it opens at its first word, gives what it says, and
closes behind its last word. -/
theorem leads_always (hClock : isIdentifier clock = true)
    (hStatement : statement.isWellFormed = true)
    (hWords : words.map (·.text) = statement.alwaysWords clock) :
    ∃ first last process harvest, words.head? = some first ∧ words.getLast? = some last ∧
      statement.Gives clock process ∧ process.span.start = first.span.start ∧
      harvest.IsOf statement.fragments ∧ harvest.entries = process.body.toList ∧
      ∀ (base : Walk) after, base.awaitsChoice = false → (∀ next ∈ after, next.text ≠ "else") →
        machine.LeadsThrough words after (base.Stands .moduleBody)
          ((base.gains harvest).Ended process last.span.stop) := by
  have hSplit : statement.alwaysWords clock =
      ["always", "@", "(", "posedge", clock, ")"] ++ statement.words := rfl
  rw [hSplit, List.map_eq_append_iff] at hWords
  obtain ⟨control, body, rfl, hControl, hBody⟩ := hWords
  obtain ⟨first, listed, hFirst, hListed, hOpens⟩ := leads_control hClock hControl
  obtain ⟨last, harvest, hLast, hHarvest, hLeads⟩ :=
    leads_fragments hStatement hBody statement.closes_self
  let opened := { HdlProcess.starting none first.span.start with
    clocked := true, sensitivity := #[listed] }
  refine ⟨first, last, opened.gain harvest.entries, harvest, ?_, ?_, ⟨rfl, rfl, rfl, ?_, ?_⟩,
    rfl, hHarvest, ?_, ?_⟩
  · rw [List.head?_append, hFirst, Option.some_or]
  · rw [List.getLast?_append, hLast, Option.some_or]
  · exact congrArg ([·]) hListed
  · rw [ProceduralStatement.names, ← hHarvest.names]
    simp [opened, HdlProcess.starting, HdlProcess.gain]
  · simp [opened, HdlProcess.starting, HdlProcess.gain]
  · intro base after hBase hAfter
    exact .append (hOpens base _ hBase) (hLeads base opened after hAfter)

end Walk

theorem isPlainText_of_isIdentifier {name : String} (h : isIdentifier name = true) :
    isPlainText name = true := (Bool.and_eq_true_iff.1 h).1

theorem isPlainText_of_isBalanced {allowed : Symbol → Bool} {words : List String}
    (h : isBalanced allowed words = true) : ∀ word ∈ words, isPlainText word = true :=
  List.all_eq_true.1 (Bool.and_eq_true_iff.1 h).1

/-- No comment, string or directive opens among the words of a left-hand side. -/
theorem LeftHand.isPlainText_words {target : LeftHand} (h : target.isWellFormed = true) :
    ∀ word ∈ target.words, isPlainText word = true := by
  cases target with
  | name text part =>
      simp only [isWellFormed, Bool.and_eq_true] at h
      rw [words, List.forall_mem_cons]
      exact ⟨isPlainText_of_isIdentifier h.1, isPlainText_of_isBalanced h.2⟩
  | concat names =>
      simp only [isWellFormed, Bool.and_eq_true, List.all_eq_true] at h
      rw [words, List.forall_mem_cons, List.forall_mem_append, List.forall_mem_singleton]
      refine ⟨by decide, fun word hMem => ?_, by decide⟩
      rcases mem_of_mem_intersperse hMem with rfl | hName
      · decide
      · exact isPlainText_of_isIdentifier (h.2 word hName)

/-- Nothing in a fragment is quoted or commented out. -/
theorem Fragment.isPlainText_words {fragment : Fragment} (h : fragment.isWellFormed = true) :
    ∀ word ∈ fragment.words, isPlainText word = true := by
  cases fragment with
  | assign target blocking value =>
      simp only [isWellFormed, Bool.and_eq_true] at h
      rw [words, List.forall_mem_append, List.forall_mem_cons, List.forall_mem_append,
        List.forall_mem_singleton]
      exact ⟨LeftHand.isPlainText_words h.1, by cases blocking <;> decide,
        isPlainText_of_isBalanced h.2, by decide⟩
  | begin label =>
      cases label with
      | none => decide
      | some label =>
          rw [words, List.forall_mem_cons, List.forall_mem_cons, List.forall_mem_singleton]
          exact ⟨by decide, by decide, isPlainText_of_isIdentifier h⟩
  | header kind inside =>
      rw [words, List.forall_mem_cons, List.forall_mem_cons, List.forall_mem_append,
        List.forall_mem_singleton]
      exact ⟨by cases kind <;> decide, by decide, isPlainText_of_isBalanced h, by decide⟩
  | choice words =>
      rw [Fragment.words, List.forall_mem_append, List.forall_mem_singleton]
      refine ⟨?_, by decide⟩
      simp only [isWellFormed, Bool.or_eq_true, Bool.and_eq_true, beq_iff_eq] at h
      rcases h with rfl | ⟨-, hBalanced⟩
      · decide
      · exact isPlainText_of_isBalanced hBalanced
  | «else» => decide
  | close compound => cases compound <;> decide

/-- Nor does one open among those of a well-formed always block. -/
theorem ProceduralStatement.isPlainText_alwaysWords (hClock : isIdentifier clock = true)
    (hStatement : statement.isWellFormed = true) :
    ∀ word ∈ statement.alwaysWords clock, isPlainText word = true := by
  have hBody : ∀ word ∈ statement.words, isPlainText word = true := by
    intro word hMem
    obtain ⟨fragment, hFragment, hWord⟩ := List.mem_flatMap.1 hMem
    exact Fragment.isPlainText_words (List.all_eq_true.1 hStatement fragment hFragment) word hWord
  simp only [alwaysWords, List.forall_mem_cons]
  exact ⟨by decide, by decide, by decide, by decide,
    isPlainText_of_isIdentifier hClock, by decide, hBody⟩

/-- The walk is in front of a module item, and no choice of a case is to come. -/
structure Walk.IsAtItem (walk : Walk) : Prop where
  place : walk.place = .moduleBody
  label : walk.label = .idle
  awaitsChoice : walk.awaitsChoice = false

/-- An always block that a clock triggers is found as it is written, whatever stands in front of it,
and whatever but an `else` stands behind it. The walk adds one process from the first word to the
last word of the statement, with the clock in its list, and with the names of the statement in their
roles: those left of an assignment are targets, and all others are read. The base names of those
that non-blocking assignments assign are recorded under the conditions in force, and the labels of
blocks. Nothing else changes but what changes behind every item.

At the end of the statement the walk looks for an `else` and asks neither whether the statement has
an `if` that it could belong to nor whether the block stands in a branch of a generate `if`. So
every following `else` is taken, also one that belongs to the `if` around the block, and `hNext`
cannot be left out. The words may have any layout between them that the reader passes over. A run of
blanks with a vertical tab in it is a word to the reader, so texts with one between two words are
not covered. -/
theorem run_always (start : Walk) (reader : Reader) (tokens rest : List Token) (clock : String)
    (statement : ProceduralStatement) {offset stop : Nat}
    (hStart : (start.run reader.events.toList).IsAtItem) (hReader : reader.mode = .code)
    (hTokens : Contiguous offset tokens stop) (hClock : isIdentifier clock = true)
    (hStatement : statement.isWellFormed = true)
    (hWords : (significant tokens).map (·.text) = statement.alwaysWords clock)
    (hNext : ∀ next ∈ Token.nextSignificant comments none rest, next.text ≠ "else") :
    let before := start.run reader.events.toList
    let behind := start.run (reader.readBefore rest tokens).events.toList
    ∃ (first last : Token) (process : HdlProcess) (driven labels : List Word) (notes : List Note),
      (significant tokens).head? = some first ∧ (significant tokens).getLast? = some last ∧
      process.span = ⟨first.span.start, last.span.stop⟩ ∧ statement.Gives clock process ∧
      process.signalTargets.map (·.text) = statement.assigned ∧
      (∀ entry ∈ process.body.toList, entry.role ≠ .target → entry.role = .read) ∧
      driven.Sublist process.signalTargets ∧ driven.map (·.text) = statement.driven ∧
      labels.map (·.text) = statement.labels ∧ behind.place = .moduleBody ∧
      behind = { before.endItem with
        notes
        found := { before.found with
          processes := before.found.processes.push process
          labels := labels.foldl (·.push ·) before.found.labels
          clocked :=
            driven.foldl (fun signals target => signals.record target.stem before.conditions)
              before.found.clocked } } := by
  intro before behind
  have hPlain := isPlainText_of_significant
    (hWords ▸ ProceduralStatement.isPlainText_alwaysWords hClock hStatement)
  obtain ⟨first, last, process, harvest, hFirst, hLast, hGives, hSpan, hHarvest, hBody, hLeads⟩ :=
    Walk.leads_always hClock hStatement hWords
  have hBefore : before.Stands .moduleBody before :=
    ⟨before.notes, by rw [← hStart.place, ← hStart.label]⟩
  obtain ⟨notes, hEnd⟩ : (before.gains harvest).Ended process last.span.stop behind :=
    Walk.run_readBefore hReader hPlain
      (hLeads before _ hStart.awaitsChoice hNext tokens rfl) hBefore
  have hOrder : first.span.start ≤ last.span.stop :=
    hTokens.start_le_stop hFirst (List.mem_of_getLast? hLast)
  have hProcess : statement.Gives clock (process.close last.span.stop) :=
    ⟨hGives.label, hGives.clocked, hGives.all, hGives.sensitivity, hGives.body⟩
  refine ⟨first, last, process.close last.span.stop, harvest.driven, harvest.labels, notes,
    hFirst, hLast, ?_, hProcess, hProcess.assigned, hProcess.read, ?_, hHarvest.driven,
    hHarvest.labels, ?_, ?_⟩
  · simp [HdlProcess.close, hSpan, hOrder]
  · have hTargets := hHarvest.targets
    rwa [hBody] at hTargets
  · rw [hEnd]
  · rw [hEnd, Walk.endItem_eq, Walk.endItem_eq, ← hStart.place, ← hStart.label]
    rfl

/-- Six symbols look like assignments, and three of them are. -/
theorem run_always_nested :
    let text := "always@(posedge c)begin:b if(a<=d){q,r}<=x;else v[i]=y;" ++
      "for(i=0;i<n;i=i+1)case(s)1,2:y<=z;endcase end"
    let tokens := (tokenize delimiters none false text).list
    let behind := (Walk.start .moduleBody).run (Reader.readBefore [] {} tokens).events.toList
    ∃ process, behind.found.processes = #[process] ∧ process.span = ⟨0, 100⟩ ∧
      process.clocked = true ∧ process.sensitivity.toList.map (·.text) = ["c"] ∧
      process.signalTargets.map (·.text) = ["q", "r", "v", "y"] ∧
      behind.found.clocked.snapshots = [("q", []), ("r", []), ("y", [])] ∧
      behind.found.labels.texts = ["b"] ∧ behind.place = .moduleBody := by
  intro text tokens
  let statement : ProceduralStatement := .block (some "b")
    [.if ["a", "<=", "d"] (.assign (.concat ["q", "r"]) false ["x"])
        (some (.assign (.name "v" ["[", "i", "]"]) true ["y"])),
      .for ["i", "=", "0", ";", "i", "<", "n", ";", "i", "=", "i", "+", "1"]
        (.case ["s"] [(["1", ",", "2"], .assign (.name "y" []) false ["z"])])]
  have hTokens : Contiguous 0 tokens (tokenize delimiters none false text).scanned :=
    tokenize_contiguous ..
  have hComputed : tokens = (computeTokens delimiters false text.toList).list :=
    congrArg Tokens.list (tokenize_eq_computeTokens delimiters_spareInert false text)
  have ⟨hWords, hStart, hStop⟩ : (significant tokens).map (·.text) = statement.alwaysWords "c" ∧
      (significant tokens).head?.map (·.span.start) = some 0 ∧
      (significant tokens).getLast?.map (·.span.stop) = some 100 := by
    rw [hComputed]
    decide +kernel
  have hRun :=
    run_always (.start .moduleBody) {} tokens [] "c" statement ⟨rfl, rfl, rfl⟩ rfl hTokens
      (by decide +kernel) (by decide +kernel) hWords (by simp [Token.nextSignificant])
  -- What is read of the walk behind the block follows from the theorem; it is not computed.
  generalize (Walk.start .moduleBody).run (Reader.readBefore [] {} tokens).events.toList =
    behind at hRun ⊢
  obtain ⟨first, last, process, driven, labels, notes, hFirst, hLast, hSpan, hGives, hTargets,
    -, -, hDriven, hLabels, hPlace, hBehind⟩ := hRun
  rw [hFirst, Option.map_some, Option.some.injEq] at hStart
  rw [hLast, Option.map_some, Option.some.injEq] at hStop
  have hFound := congrArg Walk.found hBehind
  refine ⟨process, congrArg Findings.processes hFound, ?_, hGives.clocked,
    hGives.sensitivity, ?_, ?_, ?_, hPlace⟩
  · rw [hSpan, hStart, hStop]
  · exact hTargets.trans (by decide +kernel)
  · have hNames : driven.map (fun word => (word.base, ([] : List String))) =
        statement.driven.map fun name => (baseName name, []) := by
      rw [← hDriven, List.map_map]
      rfl
    rw [hFound]
    refine ClockedSignals.snapshots_record_stems.trans ?_
    refine (congrArg (List.foldl addSnapshot []) hNames).trans ?_
    decide +kernel
  · rw [hFound]
    refine (Words.texts_foldl_push _ labels).trans ?_
    rw [hLabels]
    decide +kernel

/-- An `else` that belongs to the generate `if` around an always block is taken by the block. No
process is added behind its statement, which ends at byte 28. The block goes on through the branch
of the `else` to byte 56, and the second assignment is none, since other words than its target stand
in front of it. -/
theorem run_always_else :
    let statement : ProceduralStatement := .assign (.name "q" []) false ["d"]
    let front := (tokenize delimiters none false "if(A)").list
    let block := (tokenize delimiters none false "always@(posedge c)q<=d;").list
    let rest := (tokenize delimiters none false "else always@(posedge c)r<=e;").list
    let reader := Reader.readBefore (block ++ rest) {} front
    let before := (Walk.start .moduleBody).run reader.events.toList
    let behind := (Walk.start .moduleBody).run (reader.readBefore rest block).events.toList
    let whole := "if(A)" ++ "always@(posedge c)q<=d;" ++ "else always@(posedge c)r<=e;"
    (before.IsAtItem ∧ reader.mode = .code ∧ Contiguous 0 block 23 ∧ statement.isWellFormed = true ∧
      (significant block).map (·.text) = statement.alwaysWords "c") ∧
    before.found.processes = #[] ∧ behind.found.processes = #[] ∧
    (scan .moduleBody none whole).table.processes.toList.map
      (fun process => (process.span, process.signalTargets.map (·.text))) = [(⟨5, 56⟩, ["q"])] := by
  intro statement front block rest reader before behind whole
  have hTokens : Contiguous 0 block
      (tokenize delimiters none false "always@(posedge c)q<=d;").scanned :=
    tokenize_contiguous ..
  have hScanned : (tokenize delimiters none false "always@(posedge c)q<=d;").scanned = 23 := by
    decide +kernel
  have hComputed : block = (computeTokens delimiters false "always@(posedge c)q<=d;".toList).list :=
    congrArg Tokens.list (tokenize_eq_computeTokens delimiters_spareInert false _)
  have hWords : (significant block).map (·.text) = statement.alwaysWords "c" := by
    rw [hComputed]
    decide +kernel
  have hStart : before.IsAtItem := ⟨by decide +kernel, by decide +kernel, by decide +kernel⟩
  have hWhole : (scan .moduleBody none whole).table.processes.toList.map
      (fun process => (process.span, process.signalTargets.map (·.text))) = [(⟨5, 56⟩, ["q"])] := by
    rw [scan_computed]
    decide +kernel
  exact ⟨⟨hStart, by decide +kernel, hScanned ▸ hTokens, by decide +kernel,
    hWords⟩, by decide +kernel, by decide +kernel, hWhole⟩

end Extent

end HdlIndex.Verilog

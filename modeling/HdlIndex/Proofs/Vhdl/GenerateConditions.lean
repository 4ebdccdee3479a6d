import HdlIndex.Proofs.Aligned
import HdlIndex.Proofs.Symbols.Distinct
import HdlIndex.Proofs.Token.Spaced
import HdlIndex.Proofs.Vhdl.Phrase
import HdlIndex.Proofs.Vhdl.ProcessExtent
import HdlIndex.Proofs.Vhdl.ProcessText

/-! The walk through written generate statements. The stack of open statements is what it was in
front of an item when the item is left, so that the items of a branch all stand under its condition.
A text of generate statements is read item by item, with the stack empty at its end, and its clocked
signals are found under the conditions around them. -/
namespace HdlIndex.Vhdl

section Items

variable {word : Token} {words : List Token} {after : Option Token} {walk : Walk} {place : Place}
  {generates : List Generate} {known : List (String × List String)} {top : Generate}
  {signal : String} {written : WrittenProcess}

/-- The conditions of open generate statements, outermost first. -/
def conditionsOf (generates : List Generate) : List String :=
  (generates.map (·.condition)).reverse

theorem conditionsOf_cons : conditionsOf (top :: generates) =
    conditionsOf generates ++ [top.condition] := by
  simp [conditionsOf]

/-- The generate statements that are open behind a header. -/
def GenerateKind.enter (kind : GenerateKind) (condition : String) (generates : List Generate) :
    List Generate :=
  match kind, generates with
  | .if, generates => { condition, alternatives := [condition] } :: generates
  | .elsif, [] => [{ condition }]
  | .elsif, top :: generates =>
    { top with condition, alternatives := top.alternatives ++ [condition], begun := false } ::
      generates
  | .for, generates => { condition := "for " ++ condition } :: generates
  | .case, generates => { condition := "", selector := some condition } :: generates

/-- The word that begins a header. -/
def GenerateKind.keyword : GenerateKind → Keyword
  | «if» => .if
  | elsif => .elsif
  | «for» => .for
  | case => .case

namespace Walk

/-- The walk is at a place and no label waits for a statement. It has the generate statements open
and the clocked signals found. -/
structure IsAt (generates : List Generate) (known : List (String × List String)) (place : Place)
    (walk : Walk) : Prop where
  place : walk.place = place
  label : walk.label = none
  generates : walk.generates = generates
  known : walk.found.clocked.snapshots = known

theorem IsAt.stands (h : walk.IsAt generates known place) : walk.Stands place walk :=
  ⟨walk.notes, by rw [← h.place]⟩

theorem IsAt.idle (hPlace : ∀ token, token.isBlank = true → place.absorb token = place) :
    machine.Idle (IsAt generates known place) := by
  intro token walk hBlank hWalk
  exact ⟨(congrArg (·.absorb token) hWalk.place).trans (hPlace token hBlank), hWalk.label,
    hWalk.generates, hWalk.known⟩

/-- A word is read where the walk is. -/
theorem IsAt.leads {Q R : Walk → Prop}
    (hPlace : ∀ token, token.isBlank = true → place.absorb token = place)
    (hRead : ∀ (walk : Walk) before, walk.IsAt generates known place →
      Q (walk.read (.ofToken word) before ((words.head?.or after).map .ofToken)))
    (hRest : machine.LeadsThrough words after Q R) :
    machine.LeadsThrough (word :: words) after (IsAt generates known place) R := by
  apply Machine.LeadsThrough.cons (idle hPlace) _ hRest
  rintro _ walk ⟨before, -, rfl⟩ hWalk
  exact hRead _ before ⟨hWalk.place, hWalk.label, hWalk.generates, hWalk.known⟩

/-- A clocked process records its signal targets under the conditions in force, in the order of the
body. -/
theorem clocked_commitProcess (base : Walk) {process : HdlProcess} (h : process.clocked = true)
    (offset : Nat) :
    (base.commitProcess process offset).found.clocked =
      (process.signalTargets.map (·.stem)).foldl
        (fun signals word => signals.record word base.conditions) base.found.clocked := by
  have hClosed : (process.close offset).clocked = true := h
  rw [commitProcess, List.foldl_map, hClosed]
  rfl

/-- A clocked process adds its signal under the conditions in force. -/
theorem leads_clocked (h : written.drivesOnly signal = true) :
    machine.LeadsAlong [] written.words (IsAt generates known (.architectureBody {}))
      (IsAt generates (addSnapshot known (signal, conditionsOf generates))
        (.architectureBody {})) := by
  simp only [WrittenProcess.drivesOnly, Bool.and_eq_true, Bool.not_eq_true',
    List.isEmpty_eq_false_iff, List.all_eq_true, beq_iff_eq] at h
  obtain ⟨⟨⟨hWritten, hEdge⟩, hSome⟩, hBase⟩ := h
  refine .of_through fun words after hWords _ => ?_
  obtain ⟨first, closing, process, -, -, hGives, -, hLeads⟩ := leads_process hWritten hWords
  intro tokens hTokens events walk hReads hWalk
  obtain ⟨notes, hEnd⟩ :=
    hLeads walk after hWalk.label tokens hTokens events walk hReads hWalk.stands
  rw [hEnd]
  have hTargets : (process.signalTargets.map (·.stem)).map (·.text) =
      (written.assigned .signal).map baseName := by
    rw [← hGives.assigned .signal, HdlProcess.signalTargets, List.map_map, List.map_map,
      List.map_map]
    rfl
  refine ⟨rfl, rfl, hWalk.generates, ?_⟩
  have hConditions : (walk.labelled written first).conditions = conditionsOf generates := by
    rw [← hWalk.generates]
    rfl
  have hKnown : (walk.labelled written first).found.clocked.snapshots = known := hWalk.known
  dsimp only
  rw [clocked_commitProcess _ (hGives.clocked.trans hEdge), hConditions,
    ClockedSignals.snapshots_record_foldl signal, hKnown]
  · intro hNil
    rw [hNil] at hTargets
    exact hSome (List.map_eq_nil_iff.1 hTargets.symm)
  · intro word hMem
    have hText := List.mem_map_of_mem (f := (·.text)) hMem
    rw [hTargets] at hText
    obtain ⟨name, hName, hWord⟩ := List.mem_map.1 hText
    exact hWord.symm.trans (hBase name hName)

/-- The walk collects an expression at a place. -/
def Collects (generates : List Generate) (known : List (String × List String))
    (place : Capture → Place) (expr : Capture) (walk : Walk) : Prop :=
  expr.active = true ∧ walk.IsAt generates known (place expr)

theorem Stands.isAt {base : Walk} (h : base.Stands place walk) (hLabel : base.label = none)
    (hGenerates : base.generates = generates) (hKnown : base.found.clocked.snapshots = known) :
    walk.IsAt generates known place := by
  obtain ⟨notes, rfl⟩ := h
  exact ⟨rfl, hLabel, hGenerates, hKnown⟩

theorem IsAt.goto (h : walk.IsAt generates known place) (place' : Place) :
    (walk.goto place').IsAt generates known place' :=
  ⟨rfl, h.label, h.generates, h.known⟩

/-- What leads on from where some walk stands leads on from where the walk is. -/
theorem IsAt.through {Q : Walk → Prop} (h : ∀ base : Walk, base.label = none →
      base.generates = generates → base.found.clocked.snapshots = known →
      machine.LeadsThrough words after (base.Stands place) Q) :
    machine.LeadsThrough words after (IsAt generates known place) Q := by
  intro tokens hTokens events walk hReads hWalk
  exact h walk hWalk.label hWalk.generates hWalk.known tokens hTokens events walk hReads
    hWalk.stands

/-- The word that begins a header settles the label in front of it. -/
theorem leads_keyword {base : Walk} (kind : GenerateKind) (hWord : word.text = kind.keyword.text)
    (hLabel : kind = .elsif → base.label = none) (hGenerates : base.generates = generates)
    (hKnown : base.found.clocked.snapshots = known) :
    machine.LeadsThrough [word] after (base.Stands (.architectureBody {}))
      (Collects generates known (.generateHeader kind 0) .fresh) := by
  have hIdle : machine.Idle (Stands { base with label := none } (.generateHeader kind 0 .fresh)) :=
    Stands.idle fun token hBlank => by
      rw [Place.absorb, Capture.absorb_of_active rfl, Capture.push_fresh hBlank]
  refine Stands.leads (fun _ _ => rfl) (fun before notes _ => ⟨notes, ?_⟩)
    ((Machine.LeadsThrough.nil hIdle).imp
    fun walk hWalk => ⟨rfl, hWalk.isAt rfl hGenerates hKnown⟩)
  have hSymbol : (Lexeme.ofToken word).symbol = .keyword kind.keyword :=
    Lexeme.symbol_keyword kind.keyword hWord
  cases kind with
  | elsif =>
      simp only [Walk.read, readStatement, hSymbol, GenerateKind.keyword, readFirst,
        beginGenerate, Walk.goto]
      rw [← hLabel rfl]
      rfl
  | «if» | «for» | case =>
      simp only [Walk.read, readStatement, hSymbol, GenerateKind.keyword, readFirst,
        beginGenerate, Walk.goto]
      rfl

/-- A label and the word behind it begin a header. -/
theorem leads_labelled {label : String} (kind : GenerateKind) (hKind : kind ≠ .elsif)
    (hLabel : isIdentifier label = true) :
    machine.LeadsAlong [] [label, ":", kind.keyword.text]
      (IsAt generates known (.architectureBody {}))
      (Collects generates known (.generateHeader kind 0) .fresh) := by
  refine .of_through fun words after hWords _ => ?_
  simp only [List.map_eq_cons_iff, List.map_eq_nil_iff] at hWords
  obtain ⟨first, _, rfl, rfl, colon, _, rfl, hColon, word, _, rfl, hWord, rfl⟩ := hWords
  refine IsAt.through fun base hNone hGenerates hKnown => ?_
  exact leads_label hNone hLabel hColon
    (leads_keyword kind hWord (absurd · hKind) hGenerates hKnown)

/-- The word `elsif` begins a header. -/
theorem leads_elsif :
    machine.LeadsAlong [] ["elsif"] (IsAt generates known (.architectureBody {}))
      (Collects generates known (.generateHeader .elsif 0) .fresh) := by
  refine .of_through fun words after hWords _ => ?_
  simp only [List.map_eq_cons_iff, List.map_eq_nil_iff] at hWords
  obtain ⟨word, _, rfl, hWord, rfl⟩ := hWords
  exact IsAt.through fun base hNone hGenerates hKnown =>
    leads_keyword .elsif hWord (fun _ => hNone) hGenerates hKnown

/-- A blank or a part of a string goes into the condition, and the walk goes on collecting it. -/
theorem Collects.filler {place : Capture → Place} {expr : Capture} (token : Token)
    (hPlace : (place expr).absorb token = place (expr.absorb token))
    (hWalk : Collects generates known place expr walk) :
    Collects generates known place (expr.push token) (walk.step (.filler token)) := by
  obtain ⟨hActive, hWalk⟩ := hWalk
  refine ⟨Capture.active_push.trans hActive, ?_, hWalk.label, hWalk.generates, hWalk.known⟩
  rw [step, hWalk.place, hPlace, Capture.absorb, if_pos hActive]

theorem Collects.note {place : Capture → Place} {expr : Capture}
    (hWalk : Collects generates known place expr walk) (note : Note) :
    Collects generates known place expr (walk.note note) :=
  ⟨hWalk.1, hWalk.2.place, hWalk.2.label, hWalk.2.generates, hWalk.2.known⟩

/-- A word of a header is collected. -/
theorem Collects.readHeader {kind : GenerateKind} {depth depth' : Nat} {expr : Capture}
    {before next : Option Lexeme} (hDepth : headerDepth depth word.text = some depth')
    (hWalk : Collects generates known (.generateHeader kind depth) expr walk) :
    Collects generates known (.generateHeader kind depth') (expr.push word)
      (walk.read (.ofToken word) before next) := by
  obtain ⟨hActive, hWalk⟩ := hWalk
  have hHere : (Lexeme.ofToken word).symbol = .ofText word.text := rfl
  refine ⟨Capture.active_push.trans hActive, ?_⟩
  rw [Walk.read, hWalk.place]
  dsimp only
  unfold readGenerate
  dsimp only
  split
  · next hSymbol =>
    have hText : word.text = "(" := Symbol.eq_of_spelling? (by rw [← hHere, hSymbol]; rfl)
    rw [hText] at hDepth
    cases hDepth
    exact hWalk.goto _
  · next hSymbol =>
    have hText : word.text = ")" := Symbol.eq_of_spelling? (by rw [← hHere, hSymbol]; rfl)
    rw [hText] at hDepth
    cases depth <;> cases hDepth
    exact hWalk.goto _
  · next hSymbol =>
    have hText : word.text = "generate" := Symbol.eq_of_spelling? (by rw [← hHere, hSymbol]; rfl)
    rw [hText] at hDepth
    cases hDepth
  · next hOpen hClose _ =>
    rw [headerDepth] at hDepth
    split at hDepth
    · next hText => exact (hOpen (by rw [hHere, hText]; rfl)).elim
    split at hDepth
    · next hText => exact (hClose (by rw [hHere, hText]; rfl)).elim
    split at hDepth
    · cases hDepth
    · cases hDepth
      exact hWalk.goto _

/-- Entering a generate statement adds a frame with its condition. -/
theorem enterGenerate_eq (kind : GenerateKind) (condition : String) :
    walk.enterGenerate kind condition =
      { walk with generates := kind.enter condition walk.generates } := by
  cases kind with
  | elsif =>
      rw [enterGenerate]
      split
      · next h => rw [h]; rfl
      · next h => rw [h]; rfl
  | «if» | «for» | case => rfl

/-- The word `generate` puts the condition of its header in force. -/
theorem Collects.finishHeader {kind : GenerateKind} {expr : Capture} {before next : Option Lexeme}
    (hWord : word.text = "generate")
    (hWalk : Collects generates known (.generateHeader kind 0) expr walk) :
    (walk.read (.ofToken word) before next).IsAt (kind.enter expr.text generates) known
      (.architectureBody {}) := by
  obtain ⟨-, hWalk⟩ := hWalk
  have hSymbol : (Lexeme.ofToken word).symbol = .keyword .generate :=
    Lexeme.symbol_keyword .generate hWord
  rw [Walk.read, hWalk.place]
  simp only [readGenerate, hSymbol, if_pos, enterGenerate_eq, hWalk.generates]
  exact ⟨rfl, hWalk.label, rfl, hWalk.known⟩

/-- The word behind a collected expression takes it up. -/
theorem leads_mark {place : Capture → Place} {mark condition : String} {Q : Walk → Prop}
    (hPlace : ∀ expr token, (place expr).absorb token = place (expr.absorb token))
    (hIdle : machine.Idle Q)
    (hRead : ∀ (word : Token) (walk : Walk) before next expr, word.text = mark →
      expr.text = condition → Collects generates known place expr walk →
        Q (walk.read (.ofToken word) before next)) :
    machine.LeadsAlong [] [mark]
      (fun walk => ∃ expr : Capture, expr.text = condition ∧
        Collects generates known place expr walk)
      Q := by
  refine .of_through fun words after hWords _ => ?_
  simp only [List.map_eq_cons_iff, List.map_eq_nil_iff] at hWords
  obtain ⟨word, _, rfl, hWord, rfl⟩ := hWords
  refine .cons ?_ ?_ (.nil hIdle)
  · rintro token walk hBlank ⟨expr, hText, hWalk⟩
    exact ⟨expr.push token, (Capture.text_push_blank hBlank).trans hText,
      hWalk.filler token (hPlace expr token)⟩
  · rintro _ walk ⟨before, -, rfl⟩ ⟨expr, hText, hWalk⟩
    exact hRead word _ before _ expr hWord hText (hWalk.note _)

/-- A whole header behind its first word puts its text in force. -/
theorem leads_condition {kind : GenerateKind} {words : List String} (h : isHeader words = true) :
    machine.LeadsAlong [] (words ++ ["generate"])
      (Collects generates known (.generateHeader kind 0) .fresh)
      (IsAt (kind.enter (expressionText words) generates) known (.architectureBody {})) := by
  refine .append (Machine.LeadsAlong.collect headerDepth
    (P := fun depth => Collects generates known (.generateHeader kind depth)) ?_ ?_
    (beq_iff_eq.1 h))
    (leads_mark (fun _ _ => rfl) (IsAt.idle fun _ _ => rfl) ?_) (by simp)
  · exact fun _ _ token _ _ hWalk => hWalk.filler token rfl
  · rintro depth depth' expr token _ _ walk hDepth ⟨before, -, rfl⟩ hWalk
    exact Collects.readHeader hDepth (hWalk.note _)
  · rintro word walk before next expr hWord hText hWalk
    rw [expressionText, ← hText]
    exact hWalk.finishHeader hWord

/-- The words `end generate;` leave the innermost generate statement. -/
theorem leads_ending :
    machine.LeadsAlong [] GenerateItem.ending (IsAt (top :: generates) known (.architectureBody {}))
      (IsAt generates known (.architectureBody {})) := by
  refine .of_through fun words after hWords _ => ?_
  simp only [GenerateItem.ending, List.map_eq_cons_iff, List.map_eq_nil_iff] at hWords
  obtain ⟨ending, _, rfl, hEnding, word, _, rfl, hWord, semicolon, _, rfl, hSemicolon, rfl⟩ :=
    hWords
  have hEndingSymbol : (Lexeme.ofToken ending).symbol = .keyword .end :=
    Lexeme.symbol_keyword .end hEnding
  have hSymbol : (Lexeme.ofToken word).symbol = .keyword .generate :=
    Lexeme.symbol_keyword .generate hWord
  have hSemicolonSymbol : (Lexeme.ofToken semicolon).symbol = .semicolon :=
    Lexeme.symbol_ofToken hSemicolon
  let Q := IsAt generates known (.skipStatement .architectureBody 0)
  refine IsAt.leads (fun _ _ => rfl) (Q := Q) (fun walk before hWalk => ?_)
    (IsAt.leads (fun _ _ => rfl) (Q := Q) (fun walk before hWalk => ?_)
      (IsAt.leads (fun _ _ => rfl) (fun walk before hWalk => ?_) (.nil (IsAt.idle fun _ _ => rfl))))
  · rw [Walk.read, hWalk.place]
    simp only [readStatement, hEndingSymbol, readFirst, readEnd, isNext, List.head?_cons,
      Option.some_or, Option.map_some, Option.any_some, hSymbol, decide_true, if_true]
    exact ⟨rfl, hWalk.label, congrArg List.tail hWalk.generates, hWalk.known⟩
  · rw [Walk.read, hWalk.place]
    simpa [readSkipped, hSymbol] using hWalk
  · rw [Walk.read, hWalk.place]
    simpa [readSkipped, hSemicolonSymbol, Home.place] using hWalk.goto _

/-- The words `else generate` put the last alternative in force. -/
theorem leads_else :
    machine.LeadsAlong [] ["else", "generate"]
      (IsAt (top :: generates) known (.architectureBody {}))
      (IsAt ({ top with
        condition := "not (" ++ " or ".intercalate top.alternatives ++ ")"
        begun := false } :: generates) known (.architectureBody {})) := by
  refine .of_through fun words after hWords _ => ?_
  simp only [List.map_eq_cons_iff, List.map_eq_nil_iff] at hWords
  obtain ⟨otherwise, _, rfl, hElse, word, _, rfl, hWord, rfl⟩ := hWords
  have hElseSymbol : (Lexeme.ofToken otherwise).symbol = .keyword .else :=
    Lexeme.symbol_keyword .else hElse
  have hSymbol : (Lexeme.ofToken word).symbol = .keyword .generate :=
    Lexeme.symbol_keyword .generate hWord
  let Q := IsAt ({ top with
    condition := "not (" ++ " or ".intercalate top.alternatives ++ ")"
    begun := false } :: generates) known (.architectureBody {})
  refine IsAt.leads (fun _ _ => rfl) (Q := Q) (fun walk before hWalk => ?_)
    (IsAt.leads (fun _ _ => rfl) (fun walk before hWalk => ?_) (.nil (IsAt.idle fun _ _ => rfl)))
  · rw [Walk.read, hWalk.place]
    simp only [readStatement, hElseSymbol, readFirst, if_true, beginElse, modifyGenerate,
      hWalk.generates]
    exact ⟨rfl, rfl, rfl, hWalk.known⟩
  · rw [Walk.read, hWalk.place]
    simp only [readStatement, hSymbol, readFirst, if_true]
    exact hWalk.goto _

/-- The word `when` begins a choice, where a case is open. -/
theorem leads_when (hTop : top.selector.isSome = true) :
    machine.LeadsAlong [] ["when"] (IsAt (top :: generates) known (.architectureBody {}))
      (Collects ({ top with begun := false } :: generates) known .generateChoice .fresh) := by
  refine .of_through fun words after hWords _ => ?_
  simp only [List.map_eq_cons_iff, List.map_eq_nil_iff] at hWords
  obtain ⟨word, _, rfl, hWord, rfl⟩ := hWords
  have hSymbol : (Lexeme.ofToken word).symbol = .keyword .when := Lexeme.symbol_keyword .when hWord
  have hIdle : machine.Idle (IsAt ({ top with begun := false } :: generates) known
      (.generateChoice .fresh)) :=
    IsAt.idle fun token hBlank => by
      rw [Place.absorb, Capture.absorb_of_active rfl, Capture.push_fresh hBlank]
  refine IsAt.leads (fun _ _ => rfl) (fun walk before hWalk => ?_)
    ((Machine.LeadsThrough.nil hIdle).imp fun walk hWalk => ⟨rfl, hWalk⟩)
  rw [Walk.read, hWalk.place]
  simp only [readStatement, hSymbol, readFirst, if_true, hWalk.generates, List.head?_cons,
    Option.any_some, hTop, modifyGenerate]
  exact ⟨rfl, hWalk.label, rfl, hWalk.known⟩

/-- A word of a choice is collected. -/
theorem Collects.readChoice {expr : Capture} {before next : Option Lexeme}
    (hWord : word.text ≠ "=>") (hWalk : Collects generates known .generateChoice expr walk) :
    Collects generates known .generateChoice (expr.push word)
      (walk.read (.ofToken word) before next) := by
  obtain ⟨hActive, hWalk⟩ := hWalk
  refine ⟨Capture.active_push.trans hActive, ?_⟩
  rw [Walk.read, hWalk.place]
  dsimp only
  unfold Walk.readChoice
  split
  · next hSymbol => exact (hWord
      (Symbol.eq_of_spelling? (by rw [← Lexeme.symbol_ofToken rfl, hSymbol]; rfl))).elim
  · exact hWalk.goto _

/-- The arrow behind a choice puts its condition in force. -/
theorem Collects.finishChoice {expr : Capture} {before next : Option Lexeme} {selector : String}
    (hWord : word.text = "=>") (hTop : top.selector = some selector)
    (hWalk : Collects (top :: generates) known .generateChoice expr walk) :
    (walk.read (.ofToken word) before next).IsAt
      ({ top with condition := selector ++ " = " ++ expr.text } :: generates) known
      (.architectureBody {}) := by
  obtain ⟨-, hWalk⟩ := hWalk
  have hSymbol : (Lexeme.ofToken word).symbol = .arrow := Lexeme.symbol_ofToken hWord
  rw [Walk.read, hWalk.place]
  simp only [Walk.readChoice, hSymbol, modifyGenerate, hWalk.generates, hTop]
  exact ⟨rfl, hWalk.label, rfl, hWalk.known⟩

/-- A whole choice behind the word `when` puts its text in force. -/
theorem leads_choice {words : List String} {selector : String} (h : words.contains "=>" = false)
    (hTop : top.selector = some selector) :
    machine.LeadsAlong [] (words ++ ["=>"])
      (Collects (top :: generates) known .generateChoice .fresh)
      (IsAt ({ top with condition := selector ++ " = " ++ expressionText words } :: generates) known
        (.architectureBody {})) := by
  let next (_ : Nat) (word : String) : Option Nat := if word = "=>" then none else some 0
  have hDepth : words.foldlM next 0 = some 0 := by
    induction words with
    | nil => rfl
    | cons word words ih =>
        simp only [List.contains_cons, Bool.or_eq_false_iff, beq_eq_false_iff_ne, ne_eq] at h
        simpa [next, List.foldlM_cons, Ne.symm h.1] using ih h.2
  refine .append (Machine.LeadsAlong.collect next
    (P := fun _ => Collects (top :: generates) known .generateChoice) ?_ ?_ hDepth)
    (leads_mark (fun _ _ => rfl) (IsAt.idle fun _ _ => rfl) ?_) (by simp)
  · exact fun _ _ token _ _ hWalk => hWalk.filler token rfl
  · rintro _ _ expr token _ _ walk hDepth ⟨before, -, rfl⟩ hWalk
    refine Collects.readChoice ?_ (hWalk.note _)
    rintro hWord
    simp [next, hWord] at hDepth
  · rintro word walk before next expr hWord hText hWalk
    rw [expressionText, ← hText]
    exact hWalk.finishChoice hWord hTop

/-- The walk is in a branch of a generate statement, under some condition. -/
def IsIn (alternatives : List String) (selector : Option String) (generates : List Generate)
    (known : List (String × List String)) (walk : Walk) : Prop :=
  ∃ condition, walk.IsAt ({ condition, alternatives, selector } :: generates) known
    (.architectureBody {})

/-- The words `end generate;` leave a branch, whichever it is. -/
theorem IsIn.leads_ending {alternatives : List String} {selector : Option String} :
    machine.LeadsAlong [] GenerateItem.ending (IsIn alternatives selector generates known)
      (IsAt generates known (.architectureBody {})) :=
  .of_exists fun _ => Walk.leads_ending

/-- What leads to a branch under a known condition leads to the branch. -/
theorem IsIn.of_isAt {words : List String} {P : Walk → Prop} {condition : String}
    {alternatives : List String} {selector : Option String}
    (h : machine.LeadsAlong [] words P
      (IsAt ({ condition, alternatives, selector } :: generates) known (.architectureBody {}))) :
    machine.LeadsAlong [] words P (IsIn alternatives selector generates known) :=
  h.imp fun _ hWalk => ⟨condition, hWalk⟩

-- The recursion is that of the tree. An item is entered with the stack `generates` and left with
-- it; what goes on inside is a matter of the topmost level alone.
mutual

/-- An item adds the signals of its processes under the conditions around it, and leaves the stack
of open generate statements as it was. -/
theorem leads_item (generates : List Generate) (known : List (String × List String)) :
    ∀ item : GenerateItem, item.isWellFormed = true →
      machine.LeadsAlong [] item.words (IsAt generates known (.architectureBody {}))
        (IsAt generates ((item.signals (conditionsOf generates)).foldl addSnapshot known)
          (.architectureBody {}))
  | .process written signal, h => by
      rw [GenerateItem.words, GenerateItem.signals]
      exact leads_clocked h
  | .if label condition body alternatives otherwise, h => by
      simp only [GenerateItem.isWellFormed, Bool.and_eq_true] at h
      obtain ⟨⟨⟨⟨hLabel, hCondition⟩, hBody⟩, hAlternatives⟩, hElse⟩ := h
      let text := expressionText condition
      have hItems := leads_items ({ condition := text, alternatives := [text] } :: generates) known
        body hBody
      rw [conditionsOf_cons] at hItems
      have hOthers known := leads_alternatives generates known [text] alternatives hAlternatives
      have hLast known :=
        leads_otherwise generates known (condition :: alternatives.map (·.1)) otherwise hElse
      simp only [List.map_cons, List.map_map] at hLast
      rw [GenerateItem.words, GenerateItem.signals, List.foldl_append, List.foldl_append]
      refine (leads_labelled .if (by decide) hLabel).append ?_ (by simp)
      refine (leads_condition hCondition).append ?_ (by simp)
      refine (IsIn.of_isAt hItems).append ?_ (by simp)
      refine (hOthers _).append ?_ (by simp)
      exact (hLast _).append (.of_exists fun _ => leads_ending) (by simp)
  | .for label scheme body, h => by
      simp only [GenerateItem.isWellFormed, Bool.and_eq_true] at h
      obtain ⟨⟨hLabel, hScheme⟩, hBody⟩ := h
      have hItems :=
        leads_items ({ condition := "for " ++ expressionText scheme } :: generates) known
          body hBody
      rw [conditionsOf_cons] at hItems
      rw [GenerateItem.words, GenerateItem.signals]
      refine (leads_labelled .for (by decide) hLabel).append ?_ (by simp)
      exact (leads_condition hScheme).append (hItems.append leads_ending (by simp)) (by simp)
  | .case label selector choices, h => by
      simp only [GenerateItem.isWellFormed, Bool.and_eq_true] at h
      obtain ⟨⟨hLabel, hSelector⟩, hChoices⟩ := h
      have hHeader : machine.LeadsAlong [] (selector ++ ["generate"])
          (Collects generates known (.generateHeader .case 0) .fresh)
          (IsIn [] (some (expressionText selector)) generates known) :=
        IsIn.of_isAt (leads_condition hSelector)
      have hBranches := leads_choices generates known selector choices hChoices
      rw [GenerateItem.words, GenerateItem.signals]
      refine (leads_labelled .case (by decide) hLabel).append ?_ (by simp)
      exact hHeader.append (hBranches.append IsIn.leads_ending (by simp)) (by simp)

/-- The statements of a well-formed tree lead back into the architecture body, having added the
conditions of their signals. The induction is on the tree. -/
theorem leads_items (generates : List Generate) (known : List (String × List String)) :
    ∀ items : List GenerateItem, GenerateItem.areWellFormed items = true →
      machine.LeadsAlong [] (GenerateItem.wordsOfList items)
        (IsAt generates known (.architectureBody {}))
        (IsAt generates
          ((GenerateItem.signalsOfList (conditionsOf generates) items).foldl addSnapshot known)
          (.architectureBody {}))
  | [], _ => by
      rw [GenerateItem.wordsOfList, GenerateItem.signalsOfList]
      exact .nil
  | item :: items, h => by
      simp only [GenerateItem.areWellFormed, Bool.and_eq_true] at h
      rw [GenerateItem.wordsOfList, GenerateItem.signalsOfList, List.foldl_append]
      exact (leads_item generates known item h.1).append
        (leads_items generates _ items h.2) (by simp)

/-- Each `elsif` replaces the condition in force, and adds its own to those seen. -/
theorem leads_alternatives (generates : List Generate) (known : List (String × List String))
    (earlier : List String) :
    ∀ branches : List (List String × List GenerateItem),
      GenerateItem.alternativesAreWellFormed branches = true →
      machine.LeadsAlong [] (GenerateItem.wordsOfAlternatives branches)
        (IsIn earlier none generates known)
        (IsIn (earlier ++ branches.map (expressionText ·.1)) none generates
          ((GenerateItem.signalsOfAlternatives (conditionsOf generates) branches).foldl addSnapshot
            known))
  | [], _ => by
      rw [GenerateItem.wordsOfAlternatives, GenerateItem.signalsOfAlternatives, List.map_nil,
        List.append_nil]
      exact .nil
  | (condition, body) :: branches, h => by
      simp only [GenerateItem.alternativesAreWellFormed, Bool.and_eq_true] at h
      obtain ⟨⟨hCondition, hBody⟩, hBranches⟩ := h
      let text := expressionText condition
      have hItems := leads_items
        ({ condition := text, alternatives := earlier ++ [text] } :: generates) known body hBody
      rw [conditionsOf_cons] at hItems
      have hOthers := leads_alternatives generates
        ((GenerateItem.signalsOfList (conditionsOf generates ++ [text]) body).foldl
          addSnapshot known)
        (earlier ++ [text]) branches hBranches
      rw [List.append_assoc] at hOthers
      rw [GenerateItem.wordsOfAlternatives, GenerateItem.signalsOfAlternatives, List.foldl_append]
      refine .of_exists fun _ => leads_elsif.append ?_ (by simp)
      refine (leads_condition hCondition).append ?_ (by simp)
      exact (IsIn.of_isAt hItems).append hOthers (by simp)

/-- The last alternative is under the condition that all of the others do not hold. -/
theorem leads_otherwise (generates : List Generate) (known : List (String × List String))
    (conditions : List (List String)) :
    ∀ otherwise : Option (List GenerateItem), GenerateItem.elseIsWellFormed otherwise = true →
      machine.LeadsAlong [] (GenerateItem.wordsOfElse otherwise)
        (IsIn (conditions.map expressionText) none generates known)
        fun walk => ∃ top, walk.IsAt (top :: generates)
          ((GenerateItem.signalsOfElse (conditionsOf generates) conditions otherwise).foldl
            addSnapshot known) (.architectureBody {})
  | none, _ => by
      rw [GenerateItem.wordsOfElse, GenerateItem.signalsOfElse]
      refine Machine.LeadsAlong.nil.imp ?_
      rintro walk ⟨condition, hWalk⟩
      exact ⟨_, hWalk⟩
  | some body, h => by
      have hItems := leads_items
        ({ condition := elseCondition conditions, alternatives := conditions.map expressionText } ::
          generates) known body h
      rw [conditionsOf_cons] at hItems
      rw [GenerateItem.wordsOfElse, GenerateItem.signalsOfElse]
      refine .of_exists fun _ => leads_else.append ?_ (by simp)
      exact hItems.imp fun _ hWalk => ⟨_, hWalk⟩

/-- Each choice of a case replaces the condition in force. -/
theorem leads_choices (generates : List Generate) (known : List (String × List String))
    (selector : List String) :
    ∀ branches : List (List String × List GenerateItem),
      GenerateItem.choicesAreWellFormed branches = true →
      machine.LeadsAlong [] (GenerateItem.wordsOfChoices branches)
        (IsIn [] (some (expressionText selector)) generates known)
        (IsIn [] (some (expressionText selector)) generates
          ((GenerateItem.signalsOfChoices (conditionsOf generates) selector branches).foldl
            addSnapshot known))
  | [], _ => by
      rw [GenerateItem.wordsOfChoices, GenerateItem.signalsOfChoices]
      exact .nil
  | (choice, body) :: branches, h => by
      simp only [GenerateItem.choicesAreWellFormed, Bool.and_eq_true, Bool.not_eq_true'] at h
      obtain ⟨⟨hChoice, hBody⟩, hBranches⟩ := h
      let text := expressionText selector ++ " = " ++ expressionText choice
      have hItems := leads_items
        ({ condition := text, selector := some (expressionText selector) } :: generates) known body
        hBody
      rw [conditionsOf_cons] at hItems
      have hOthers := leads_choices generates
        ((GenerateItem.signalsOfList (conditionsOf generates ++ [text]) body).foldl
          addSnapshot known)
        selector branches hBranches
      rw [GenerateItem.wordsOfChoices, GenerateItem.signalsOfChoices, List.foldl_append]
      refine .of_exists fun _ => (leads_when rfl).append ?_ (by simp)
      refine (leads_choice hChoice rfl).append ?_ (by simp)
      exact (IsIn.of_isAt hItems).append hOthers (by simp)

end

end Walk

end Items

section Texts

variable {piece text : String} {words : List String}

theorem IsPiece.isSolid (h : IsPiece piece) (hSpace : piece ≠ " ") : IsSolid piece :=
  ⟨h.ne_empty, fun _ hMem => h.isBlank_of_mem hSpace hMem⟩

/-- A space makes no other delimiter of a symbol, and it ends a word. -/
theorem IsPiece.finds (h : IsPiece piece) (hSpace : piece ≠ " ") :
    Delimiter.Finds delimiters piece := by
  cases hKind : PieceKind.of piece with
  | space => exact absurd (PieceKind.of_eq_space hKind) hSpace
  | word => exact .inl fun c hMem => plain_of_isWordChar ((h hKind).isWordChar_of_mem hMem)
  | symbol =>
      refine .inr fun rest => takeFirst?_symbol (PieceKind.of_eq_symbol hKind) ?_
      rintro c hHead hMerges
      obtain rfl := Option.some.inj hHead
      exact absurd hMerges.mem (by decide)

/-- The tokens of a text of spaced words are its words and spaces. -/
theorem tokens_spacedText (hWords : ∀ word ∈ words, IsPiece word ∧ word ≠ " ")
    (hText : Text.foldCase text = spacedText words) :
    (tokens none text).scanned = text.utf8ByteSize ∧
    ((tokens none text).list.filter (! ·.isEmpty)).map (·.text) = spaced words := by
  have hLexes : Lexes delimiters (spacedText words).toList ((spaced words).map String.toList) :=
    lexes_spacedText (fun word hMem => ⟨(hWords word hMem).1.isSolid (hWords word hMem).2,
      (hWords word hMem).1.finds (hWords word hMem).2⟩) fun rest => takeFirst?_space
  rw [← hText] at hLexes
  obtain ⟨hScanned, hList⟩ := hLexes.tokenize false
  rw [Text.utf8ByteSize_foldCase] at hScanned
  refine ⟨hScanned, ?_⟩
  rw [tokens, hList]
  simp [Token.text_row]

/-- No expression under way takes up a token without characters. -/
theorem Place.absorb_of_isEmpty {place : Place} {token : Token} (h : token.isEmpty = true) :
    place.absorb token = place := by
  cases place <;> simp [absorb, Capture.absorb_of_isEmpty h]

/-- What the words of a text lead to, the walk through the text leads to. -/
theorem run_spacedText {P Q : Walk → Prop} (hWords : ∀ word ∈ words, IsPiece word ∧ word ≠ " ")
    (hText : Text.foldCase text = spacedText words) (h : machine.LeadsAlong [] words P Q)
    {walk : Walk} (hWalk : P walk) :
    Q (walk.run (readEvents text.utf8ByteSize (tokens none text).list)) := by
  obtain ⟨-, hTokens⟩ := tokens_spacedText hWords hText
  have hPlain : ∀ token ∈ (tokens none text).list, IsPlain token := by
    intro token hMem
    cases hEmpty : token.isEmpty with
    | true =>
        have hNil : token.text = "" := String.isEmpty_iff.1 hEmpty
        simp [IsPlain, hNil]
    | false =>
        have hPiece : token.text ∈ spaced words := by
          rw [← hTokens]
          exact List.mem_map_of_mem (List.mem_filter.2 ⟨hMem, by simp [hEmpty]⟩)
        obtain ⟨word, hWord, hText⟩ := List.mem_flatMap.1 hPiece
        simp only [List.mem_cons, List.not_mem_nil, or_false] at hText
        rcases hText with hText | hSpace
        · exact (hText ▸ (hWords word hWord).1).plain
        · simp [IsPlain, hSpace]
  have hSolid : ∀ word ∈ words, IsSolid word :=
    fun word hMem => (hWords word hMem).1.isSolid (hWords word hMem).2
  refine Machine.Leads.of_filter (fun token walk hEmpty => ?_)
    (h hSolid _ none hTokens (by simp)) _ walk (readEvents_reads _ hPlain) hWalk
  simp [machine, Walk.step, Place.absorb_of_isEmpty hEmpty]

/-- Nothing is left to be done at the end of a text that ends between statements. -/
theorem Walk.finish_eq_self {walk : Walk} {statement : Statement}
    (h : walk.place = .architectureBody statement) (size : Nat) : walk.finish size = walk := by
  simp [finish, h, Place.process?]

/-- Reading a text of generate statements finds each signal that a process in it drives under the
conditions of the branches around the process, from the outermost to the innermost one, and there is
nothing to remark. The text may be in any case, and its table is in lower case. -/
theorem scan_generates (items : List GenerateItem) (text : String)
    (hItems : GenerateItem.areWellFormed items = true)
    (hWords : ∀ word ∈ GenerateItem.wordsOfList items, IsPiece word ∧ word ≠ " ")
    (hText : Text.foldCase text = spacedText (GenerateItem.wordsOfList items))
    (hDistinct : ((GenerateItem.signalsOfList [] items).map (·.1)).Nodup) :
    let table := (scan .architectureBody none text).table
    table.clocked.entries.toList.map (fun entry => (entry.signal.text, entry.conditions)) =
      GenerateItem.signalsOfList [] items ∧
    table.diagnostics = [] := by
  intro table
  obtain ⟨hScanned, -⟩ := tokens_spacedText hWords hText
  have hStart : (Walk.start .architectureBody).IsAt [] [] (.architectureBody {}) :=
    ⟨rfl, rfl, rfl, rfl⟩
  have hEnd := run_spacedText hWords hText (Walk.leads_items [] [] items hItems) hStart
  constructor
  · have hClocked : table.clocked = ((Walk.start .architectureBody).run
        (readEvents text.utf8ByteSize (tokens none text).list)).found.clocked := by
      show (walkThrough _ _ _).found.clocked = _
      rw [walkThrough, Walk.finish_eq_self hEnd.place]
    have hKnown := hEnd.known
    rw [foldl_addSnapshot (by simpa [conditionsOf] using hDistinct)] at hKnown
    rw [hClocked]
    exact hKnown
  · show diagnose _ _ _ = []
    rw [diagnose_walkThrough, hEnd.generates, hScanned]
    simp

/-- Three processes stand in branches of statements, two of which stand in branches themselves. -/
theorem scan_generates_nested :
    let text := spacedText [
      "g", ":", "IF", "(", "w", ">", "1", ")", "and", "x", "generate", "process", "(", "clk", ")",
      "begin", "if", "rising_edge", "(", "clk", ")", "then", "Q1", "(", "0", ")", "<=", "d", ";",
      "end", "if", ";", "end", "process", ";", "elsif", "w", "=", "1", "generate", "f", ":", "for",
      "i", "in", "0", "to", "n", "(", "1", ")", "generate", "process", "(", "clk", ")", "begin",
      "if", "rising_edge", "(", "clk", ")", "then", "q2", "<=", "d", ";", "end", "if", ";", "end",
      "process", ";", "end", "generate", ";", "else", "generate", "c", ":", "case", "M", "generate",
      "when", "x", "|", "y", "=>", "process", "(", "clk", ")", "begin", "if", "rising_edge", "(",
      "clk", ")", "then", "q3", "<=", "d", ";", "q3", "<=", "e", ";", "end", "if", ";", "end",
      "process", ";", "when", "others", "=>", "end", "generate", ";", "end", "generate", ";"]
    let table := (scan .architectureBody none text).table
    table.clocked.entries.toList.map (fun entry => (entry.signal.text, entry.conditions)) =
      [("q1", ["( w > 1 ) and x"]), ("q2", ["w = 1", "for i in 0 to n ( 1 )"]),
        ("q3", ["not (( w > 1 ) and x or w = 1)", "m = x | y"])] ∧
      table.diagnostics = [] := by
  intro text table
  let clocked (body : List SequentialStatement) : WrittenProcess :=
    { sensitivity := ["clk"], body := [.if ["rising_edge", "(", "clk", ")"] body [] none] }
  let items : List GenerateItem :=
    [.if "g" ["(", "w", ">", "1", ")", "and", "x"]
      [.process (clocked [.assign .signal ⟨"q1", ["(", "0", ")"]⟩ ["d"]]) "q1"]
      [(["w", "=", "1"], [.for "f" ["i", "in", "0", "to", "n", "(", "1", ")"]
        [.process (clocked [.assign .signal ⟨"q2", []⟩ ["d"]]) "q2"]])]
      (some [.case "c" ["m"]
        [(["x", "|", "y"], [.process (clocked
          [.assign .signal ⟨"q3", []⟩ ["d"], .assign .signal ⟨"q3", []⟩ ["e"]]) "q3"]),
        (["others"], [])]])]
  have hSignals : GenerateItem.signalsOfList [] items =
      [("q1", ["( w > 1 ) and x"]), ("q2", ["w = 1", "for i in 0 to n ( 1 )"]),
        ("q3", ["not (( w > 1 ) and x or w = 1)", "m = x | y"])] := by decide +kernel
  have hText : Text.foldCase text = spacedText (GenerateItem.wordsOfList items) :=
    (Text.foldCase_join _).trans (congrArg String.join (by decide +kernel))
  obtain ⟨hClocked, hDiagnostics⟩ := scan_generates items text (by decide +kernel)
    (by decide +kernel) hText (by rw [hSignals]; decide)
  exact ⟨hClocked.trans hSignals, hDiagnostics⟩

end Texts

end HdlIndex.Vhdl

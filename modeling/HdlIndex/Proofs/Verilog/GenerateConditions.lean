import HdlIndex.Proofs.Aligned
import HdlIndex.Proofs.Verilog.GenerateBranches
import HdlIndex.Proofs.Verilog.ItemText

/-! The walk through written generate constructs. The conditions in force and the blocks open behind
an item are those in front of it, so that the items of a branch all stand under its condition. A
text of items is read one item after the other, and its clocked signals are found under the
conditions of the constructs around them. -/
namespace HdlIndex.Verilog

section Items

variable {level : Level} {known : List (String × List String)}

namespace ModuleItem

/-- A word that is spelled out begins an item. -/
theorem head?_words (item : ModuleItem) :
    ∃ first ∈ ["always", "if", "for", "case"], item.words.head? = some first := by
  cases item with
  | always clock statement signal => exact ⟨"always", by decide, by rw [words]; rfl⟩
  | «if» condition label body alternatives otherwise => exact ⟨"if", by decide, by rw [words]; rfl⟩
  | «for» header label body => exact ⟨"for", by decide, by rw [words]; rfl⟩
  | case selector items => exact ⟨"case", by decide, by rw [words]; rfl⟩

/-- Nothing that can stand behind a construct changes how it is read. -/
theorem head?_wordsOfList (items : List ModuleItem) :
    ∀ first ∈ (wordsOfList items).head?, first ∉ ["else", ":"] := by
  intro first hFirst
  cases items with
  | nil =>
      rw [wordsOfList] at hFirst
      cases hFirst
  | cons item items =>
      obtain ⟨word, hWord, hHead⟩ := head?_words item
      rw [wordsOfList, List.head?_append, hHead, Option.some_or] at hFirst
      obtain rfl := Option.some.inj hFirst
      rintro hMem
      simp only [List.mem_cons, List.not_mem_nil, or_false] at hWord hMem
      rcases hMem with rfl | rfl <;> simp at hWord

/-- The text of an `else` starts with that word, so that no colon stands behind what comes in front
of it. -/
theorem head?_wordsOfElse (otherwise : Option (Option String × List ModuleItem)) :
    ∀ first ∈ (wordsOfElse otherwise).head?, first ∉ [":"] := by
  intro first hFirst
  match otherwise with
  | none =>
    rw [wordsOfElse] at hFirst
    cases hFirst
  | some (none, body) | some (some label, body) =>
    rw [wordsOfElse] at hFirst
    obtain rfl := Option.some.inj hFirst
    decide

/-- Nor does the text of an alternative start with a colon. -/
theorem head?_wordsOfAlternatives (branches : List (List String × Option String × List ModuleItem))
    {others : List String} (h : ∀ first ∈ others.head?, first ∉ [":"]) :
    ∀ first ∈ (wordsOfAlternatives branches ++ others).head?, first ∉ [":"] := by
  intro first hFirst
  match branches with
  | [] =>
    rw [wordsOfAlternatives] at hFirst
    exact h first hFirst
  | (condition, label, body) :: branches =>
    rw [wordsOfAlternatives] at hFirst
    obtain rfl := Option.some.inj hFirst
    decide

/-- Neither does the text of an item start with a colon: a look-ahead for a label finds none. -/
theorem head?_wordsOfItems {branches : List (List String × Option String × List ModuleItem)}
    (h : itemsAreWellFormed branches = true) :
    ∀ first ∈ (wordsOfItems branches).head?, first ∉ [":"] := by
  intro first hFirst
  match branches with
  | [] =>
    rw [wordsOfItems] at hFirst
    cases hFirst
  | (choice, label, body) :: branches =>
    simp only [itemsAreWellFormed, isChoice, isBalanced, Bool.and_eq_true, Bool.not_eq_true',
      List.isEmpty_eq_false_iff, beq_iff_eq] at h
    obtain ⟨⟨⟨⟨hSome, -, hBalanced⟩, -⟩, -⟩, -⟩ := h
    obtain ⟨word, rest, rfl⟩ := List.exists_cons_of_ne_nil hSome
    rw [wordsOfItems] at hFirst
    obtain rfl := Option.some.inj hFirst
    rintro hMem
    obtain rfl := List.mem_singleton.1 hMem
    cases hBalanced

end ModuleItem

namespace Walk

/-- A block is walked from its mark to its end. -/
theorem leads_block {mark : String} {label : Option String} {body : List ModuleItem}
    {known' : List (String × List String)} {P Q : Walk → Prop}
    (hOpen : machine.LeadsAlong [":"] (ModuleItem.opening mark label) P
      (IsAt level known .moduleBody))
    (hItems : machine.LeadsAlong ["else", ":"] (ModuleItem.wordsOfList body)
      (IsAt level known .moduleBody) (IsAt level known' .moduleBody))
    (hEnd : machine.LeadsAlong [":"] ["end"] (IsAt level known' .moduleBody) Q) :
    machine.LeadsAlong [":"] (ModuleItem.block mark label (ModuleItem.wordsOfList body)) P Q := by
  refine hOpen.append (hItems.append_mono hEnd (by simp) (by simp)) ?_
  have hHead := ModuleItem.head?_wordsOfList body
  cases hWords : ModuleItem.wordsOfList body with
  | nil => simp
  | cons word words =>
      rw [hWords] at hHead
      have hWord := hHead word rfl
      simp only [List.mem_cons, List.not_mem_nil, or_false, not_or] at hWord
      simpa using hWord.2

-- The recursion is that of the tree. An item is entered with some conditions in force and some
-- blocks open, and left with the same ones.
mutual

/-- An item adds the signals of its always blocks under the conditions around it, and leaves the
conditions in force as they were. -/
theorem leads_item (frames : List Frame) (blocks : Nat)
    (hSteady : Level.IsSteady { frames, blocks }) (known : List (String × List String)) :
    ∀ item : ModuleItem, item.isWellFormed = true →
      machine.LeadsAlong ["else", ":"] item.words (IsAt { frames, blocks } known .moduleBody)
        (IsAt { frames, blocks } ((item.signals (conditionsOf frames)).foldl addSnapshot known)
          .moduleBody)
  | .always clock statement signal, h => by
      simp only [ModuleItem.isWellFormed, Bool.and_eq_true] at h
      rw [ModuleItem.words, ModuleItem.signals]
      exact leads_clocked hSteady h.1 h.2
  | .if condition label body alternatives otherwise, h => by
      simp only [ModuleItem.isWellFormed, Bool.and_eq_true] at h
      obtain ⟨⟨⟨⟨hCondition, hLabel⟩, hBody⟩, hAlternatives⟩, hElse⟩ := h
      have hItems := leads_items
        (.ofBlock (chosen [] condition) (noneHolds [condition]) blocks :: frames) (blocks + 1)
        (.ofBlock none) known body hBody
      rw [conditionsOf_cons] at hItems
      have hOthers known :=
        leads_alternatives frames blocks hSteady known [condition]
          (by simp) alternatives hAlternatives
      have hLast known :=
        leads_otherwise frames blocks hSteady known (condition ::
          alternatives.map (·.1)) otherwise hElse
      have hHead := ModuleItem.head?_wordsOfElse otherwise
      rw [ModuleItem.words, ModuleItem.signals, List.foldl_append, List.foldl_append]
      refine .mono (show [":"] ⊆ ["else", ":"] by simp) ?_
      refine (leads_start .if hSteady).append_free ((leads_header hCondition).append_free ?_)
      refine (leads_block (leads_if hLabel) hItems (leads_leave hSteady)).append ?_
        (ModuleItem.head?_wordsOfAlternatives alternatives hHead)
      exact (hOthers _).append (hLast _) hHead
  | .for header label body, h => by
      simp only [ModuleItem.isWellFormed, Bool.and_eq_true] at h
      obtain ⟨⟨hHeader, hLabel⟩, hBody⟩ := h
      have hItems := leads_items (.ofBlock (loopCondition header) "" blocks :: frames) (blocks + 1)
        (.ofBlock none) known body hBody
      rw [conditionsOf_cons] at hItems
      rw [ModuleItem.words, ModuleItem.signals]
      refine .mono (show [":"] ⊆ ["else", ":"] by simp) ?_
      refine (leads_start .for hSteady).append_free ((leads_header hHeader).append_free ?_)
      exact (leads_block (leads_for hLabel) hItems (leads_leave hSteady)).imp fun _ hWalk => hWalk.1
  | .case selector items, h => by
      simp only [ModuleItem.isWellFormed, Bool.and_eq_true] at h
      have hItems := leads_choices frames blocks known selector items h.2
      rw [ModuleItem.words, ModuleItem.signals]
      refine .mono (show [":"] ⊆ ["else", ":"] by simp) ?_
      refine (leads_start .case hSteady).append_free ((leads_header h.1).append_free ?_)
      exact leads_case.append_free
        (hItems.append (.mono (by simp) (leads_endcase hSteady)) (by simp))

/-- The items of a well-formed tree lead back to the level at which they started, having added the
conditions of their signals. The induction is on the tree, with the look-ahead for `else` and for a
colon as a side condition on what follows. -/
theorem leads_items (frames : List Frame) (blocks : Nat)
    (hSteady : Level.IsSteady { frames, blocks }) (known : List (String × List String)) :
    ∀ items : List ModuleItem, ModuleItem.areWellFormed items = true →
      machine.LeadsAlong ["else", ":"] (ModuleItem.wordsOfList items)
        (IsAt { frames, blocks } known .moduleBody)
        (IsAt { frames, blocks }
          ((ModuleItem.signalsOfList (conditionsOf frames) items).foldl addSnapshot known)
          .moduleBody)
  | [], _ => by
      rw [ModuleItem.wordsOfList, ModuleItem.signalsOfList]
      exact .nil
  | item :: items, h => by
      simp only [ModuleItem.areWellFormed, Bool.and_eq_true] at h
      rw [ModuleItem.wordsOfList, ModuleItem.signalsOfList, List.foldl_append]
      exact (leads_item frames blocks hSteady known item h.1).append
        (leads_items frames blocks hSteady _ items h.2) (ModuleItem.head?_wordsOfList items)

/-- Each `else if` is left with the condition that none of those so far holds. -/
theorem leads_alternatives (frames : List Frame) (blocks : Nat)
    (hSteady : Level.IsSteady { frames, blocks }) (known : List (String × List String))
    (earlier : List (List String)) (hEarlier : earlier ≠ []) :
    ∀ branches : List (List String × Option String × List ModuleItem),
      ModuleItem.alternativesAreWellFormed branches = true →
      machine.LeadsAlong [":"] (ModuleItem.wordsOfAlternatives branches)
        (IsBehind { frames, blocks } known (noneHolds earlier))
        (IsBehind { frames, blocks }
          ((ModuleItem.signalsOfAlternatives (conditionsOf frames) earlier branches).foldl
            addSnapshot known)
          (noneHolds (earlier ++ branches.map (·.1))))
  | [], _ => by
      rw [ModuleItem.wordsOfAlternatives, ModuleItem.signalsOfAlternatives, List.map_nil,
        List.append_nil]
      exact .nil
  | (condition, label, body) :: branches, h => by
      simp only [ModuleItem.alternativesAreWellFormed, Bool.and_eq_true] at h
      obtain ⟨⟨⟨hCondition, hLabel⟩, hBody⟩, hBranches⟩ := h
      have hItems := leads_items
        (.ofBlock (chosen earlier condition) (noneHolds (earlier ++ [condition])) blocks :: frames)
        (blocks + 1) (.ofBlock none) known body hBody
      rw [conditionsOf_cons] at hItems
      have hChosen : chosen earlier condition = onlyHolds earlier condition := by
        rw [chosen, if_neg (by simpa using hEarlier)]
      have hOthers := leads_alternatives frames blocks hSteady
        ((ModuleItem.signalsOfList (conditionsOf frames ++ [chosen earlier condition]) body).foldl
          addSnapshot known) (earlier ++ [condition]) (by simp) branches hBranches
      rw [List.append_assoc] at hOthers
      have hHead : ∀ first ∈ (ModuleItem.wordsOfAlternatives branches).head?, first ∉ [":"] := by
        rw [← List.append_nil (ModuleItem.wordsOfAlternatives branches)]
        exact ModuleItem.head?_wordsOfAlternatives branches (by simp)
      rw [ModuleItem.wordsOfAlternatives, ModuleItem.signalsOfAlternatives,
        List.foldl_append, ← hChosen]
      refine (leads_elseIf hEarlier hSteady).append_free ((leads_header hCondition).append_free ?_)
      exact (leads_block (leads_if hLabel) hItems (leads_leave hSteady)).append hOthers hHead

/-- The `else` branch is under the condition that none of those in front of it holds. -/
theorem leads_otherwise (frames : List Frame) (blocks : Nat)
    (hSteady : Level.IsSteady { frames, blocks }) (known : List (String × List String))
    (conditions : List (List String)) :
    ∀ otherwise : Option (Option String × List ModuleItem),
      ModuleItem.elseIsWellFormed otherwise = true →
      machine.LeadsAlong [":"] (ModuleItem.wordsOfElse otherwise)
        (IsBehind { frames, blocks } known (noneHolds conditions))
        (IsAt { frames, blocks }
          ((ModuleItem.signalsOfElse (conditionsOf frames) conditions otherwise).foldl
            addSnapshot known)
          .moduleBody)
  | none, _ => by
      rw [ModuleItem.wordsOfElse, ModuleItem.signalsOfElse]
      exact Machine.LeadsAlong.nil.imp fun _ hWalk => hWalk.1
  | some (label, body), h => by
      simp only [ModuleItem.elseIsWellFormed, Bool.and_eq_true] at h
      have hItems := leads_items (.ofBlock (noneHolds conditions) "" blocks :: frames) (blocks + 1)
        (.ofBlock none) known body h.2
      rw [conditionsOf_cons] at hItems
      rw [ModuleItem.wordsOfElse, ModuleItem.signalsOfElse]
      exact (leads_block (leads_else hSteady h.1) hItems (leads_leave hSteady)).imp fun _ hWalk =>
        hWalk.1

/-- The block of each case item is under the condition of its choice. -/
theorem leads_choices (frames : List Frame) (blocks : Nat) (known : List (String × List String))
    (selector : List String) :
    ∀ branches : List (List String × Option String × List ModuleItem),
      ModuleItem.itemsAreWellFormed branches = true →
      machine.LeadsAlong [":"] (ModuleItem.wordsOfItems branches)
        (IsChoosing (expressionText selector) frames blocks known)
        (IsChoosing (expressionText selector) frames blocks
          ((ModuleItem.signalsOfItems (conditionsOf frames) selector branches).foldl
            addSnapshot known))
  | [], _ => by
      rw [ModuleItem.wordsOfItems, ModuleItem.signalsOfItems]
      exact .nil
  | (choice, label, body) :: branches, h => by
      simp only [ModuleItem.itemsAreWellFormed, Bool.and_eq_true] at h
      obtain ⟨⟨⟨hChoice, hLabel⟩, hBody⟩, hBranches⟩ := h
      have hItems := leads_items
        (.ofCase (expressionText selector) (choiceCondition selector choice) false blocks :: frames)
        (blocks + 1) (.ofCase none) known body hBody
      rw [conditionsOf_cons] at hItems
      have hOthers := leads_choices frames blocks
        ((ModuleItem.signalsOfList (conditionsOf frames ++
          [choiceCondition selector choice]) body).foldl
          addSnapshot known) selector branches hBranches
      rw [ModuleItem.wordsOfItems, ModuleItem.signalsOfItems, List.foldl_append]
      refine (leads_choice hChoice).append_free ?_
      exact (leads_block (leads_chosen hLabel) hItems leads_next).append hOthers
        (ModuleItem.head?_wordsOfItems hBranches)

end

end Walk

end Items

section Texts

variable {words : List String}

/-- Nothing is left to be recorded where a text ends between items. -/
theorem Walk.flushAt_eq_self {walk : Walk} (h : walk.place = .moduleBody) (offset : Nat) :
    walk.flushAt offset = walk := by
  rw [flushAt, h]

theorem Walk.finish_eq_self {walk : Walk} (h : walk.place = .moduleBody) (size : Nat) :
    walk.finish size = walk := by
  rw [finish, flushAt_eq_self h, h]
  rfl

/-- A text of spaced words is lexed into the words and the spaces. -/
theorem isLexed_spaced (hWords : ∀ word ∈ words, isLexeme word = true) :
    IsLexed delimiters (spaced words) :=
  lexes_spacedText
    (fun word hMem =>
      ⟨isSolid_of_isLexeme (hWords word hMem), finds_of_isLexeme (hWords word hMem)⟩)
    fun _ => Delimiter.takeFirst?_space isSpaced_delimiters

/-- What the words of a text lead to, the walk through the text leads to. -/
theorem run_spacedText {barred : List String} {P Q : Walk → Prop}
    (hWords : ∀ word ∈ words, isLexeme word = true) (h : machine.LeadsAlong barred words P Q)
    (hBarred : Token.sentinelText ∉ barred) (hPlace : ∀ walk, Q walk → walk.place = .moduleBody)
    {walk : Walk} (hWalk : P walk) :
    Q (walk.run (readEvents (spacedText words).utf8ByteSize
      (tokens none (spacedText words)).list)) := by
  have hSolid : ∀ word ∈ words, IsSolid word :=
    fun word hMem => isSolid_of_isLexeme (hWords word hMem)
  have hPlain : ∀ word ∈ spaced words, isPlainText word = true := by
    intro part hPart
    obtain ⟨word, hMem, hPart⟩ := List.mem_flatMap.1 hPart
    rcases List.mem_pair.1 hPart with rfl | rfl
    · exact isPlainText_of_isLexeme (hWords part hMem)
    · decide
  obtain ⟨last, hLast, hRun⟩ := run_of_isLexed (isLexed_spaced hWords) hPlain
    (fun tokens hTokens => h hSolid tokens _ hTokens (by
      rintro next hNext
      obtain rfl := Option.some.inj hNext
      exact hBarred)) hWalk
  rw [spacedText, hRun, Walk.flushAt_eq_self (hPlace last hLast)]
  exact hLast

/-- Reading a text of module items finds each signal that an always block in it drives under the
conditions of the generate branches around the block, from the outermost to the innermost one, and
there is nothing to remark. -/
theorem scan_conditions (items : List ModuleItem)
    (hItems : ModuleItem.areWellFormed items = true)
    (hWords : ∀ word ∈ ModuleItem.wordsOfList items, isLexeme word = true)
    (hDistinct : ((ModuleItem.signalsOfList [] items).map (·.1)).Nodup) :
    let table := (scan .moduleBody none (spacedText (ModuleItem.wordsOfList items))).table
    table.clocked.entries.toList.map (fun entry => (entry.signal.text, entry.conditions)) =
      ModuleItem.signalsOfList [] items ∧
    table.diagnostics = [] := by
  intro table
  let text := spacedText (ModuleItem.wordsOfList items)
  let events := readEvents text.utf8ByteSize (tokens none text).list
  obtain ⟨-, -, -, hTokens⟩ := tokens_of_isLexed (isLexed_spaced hWords)
  have hScanned : (tokens none text).scanned = text.utf8ByteSize := hTokens
  have hSteady : Level.IsSteady { frames := [], blocks := 0 } := nofun
  have hStart : (Walk.start .moduleBody).IsAt { frames := [], blocks := 0 } [] .moduleBody :=
    ⟨rfl, rfl, rfl, rfl, rfl, rfl⟩
  have hEnd : ((Walk.start .moduleBody).run events).IsAt _ _ _ :=
    run_spacedText hWords (Walk.leads_items [] 0 hSteady [] items hItems) (by decide)
      (fun _ hWalk => hWalk.place) hStart
  constructor
  · have hFinish : walkThrough .moduleBody events text.utf8ByteSize =
        (Walk.start .moduleBody).run events := Walk.finish_eq_self hEnd.place _
    have hClocked : table.clocked = ((Walk.start .moduleBody).run events).found.clocked :=
      congrArg (fun walk : Walk => walk.found.clocked) hFinish
    have hKnown := hEnd.known
    rw [foldl_addSnapshot (by simpa [conditionsOf] using hDistinct)] at hKnown
    rw [hClocked]
    exact hKnown
  · show diagnose _ _ _ = []
    have hLocated := walkThrough_located .moduleBody none text
    rw [diagnose_walkThrough _ _ _ _ fun list hMem => (hLocated.lists list hMem).settled,
      hEnd.frames, hScanned]
    simp

/-- Five always blocks stand in the branches of constructs and behind them. The innermost ones are
in a loop and in a case. -/
theorem scan_conditions_nested :
    let text := spacedText [
      "if", "(", "W", ">", "1", "&&", "x", ")", "begin", ":", "wide", "always", "@", "(", "posedge",
      "clk", ")", "q1", "<=", "d", ";", "end", "else", "if", "(", "W", "==", "1", ")",
      "begin", "for",
      "(", "i", "=", "0", ";", "i", "<", "N", ";", "i", "=", "i", "+", "1", ")", "begin", ":", "g",
      "always", "@", "(", "posedge", "clk", ")", "q2", "[", "i", "]", "<=", "d", ";", "end", "end",
      "else", "begin", "case", "(", "M", ")", "0", ",", "f", "[", "1", ":", "0", "]", ":",
      "begin", ":",
      "a", "always", "@", "(", "posedge", "clk", ")", "q3", "<=", "d", ";", "end", "default", ":",
      "begin", "always", "@", "(", "posedge", "clk", ")", "begin", "q4", "<=", "d", ";",
      "q4", "<=", "e",
      ";", "end", "end", "endcase", "end", "always", "@", "(", "posedge", "clk", ")",
      "q5", "<=", "d",
      ";"]
    let table := (scan .moduleBody none text).table
    table.clocked.entries.toList.map (fun entry => (entry.signal.text, entry.conditions)) =
      [("q1", ["W > 1 && x"]),
        ("q2", ["!(W > 1 && x) && (W == 1)", "for (i = 0 ; i < N ; i = i + 1)"]),
        ("q3", ["!(W > 1 && x) && !(W == 1)", "M == 0 , f [ 1 : 0 ]"]),
        ("q4", ["!(W > 1 && x) && !(W == 1)", "default"]), ("q5", [])] ∧
      table.diagnostics = [] := by
  intro text table
  let drive (name : String) (part : List String) : ProceduralStatement :=
    .assign (.name name part) false ["d"]
  let items : List ModuleItem :=
    [.if ["W", ">", "1", "&&", "x"] (some "wide") [.always "clk" (drive "q1" []) "q1"]
      [(["W", "==", "1"], none,
        [.for ["i", "=", "0", ";", "i", "<", "N", ";", "i", "=", "i", "+", "1"]
        (some "g") [.always "clk" (drive "q2" ["[", "i", "]"]) "q2"]])]
      (some (none, [.case ["M"]
        [(["0", ",", "f", "[", "1", ":", "0", "]"], some "a", [.always "clk" (drive "q3" []) "q3"]),
          (["default"], none, [.always "clk"
            (.block none [drive "q4" [], .assign (.name "q4" []) false ["e"]]) "q4"])]])),
      .always "clk" (drive "q5" []) "q5"]
  have hSignals : ModuleItem.signalsOfList [] items =
      [("q1", ["W > 1 && x"]),
        ("q2", ["!(W > 1 && x) && (W == 1)", "for (i = 0 ; i < N ; i = i + 1)"]),
        ("q3", ["!(W > 1 && x) && !(W == 1)", "M == 0 , f [ 1 : 0 ]"]),
        ("q4", ["!(W > 1 && x) && !(W == 1)", "default"]), ("q5", [])] := by decide +kernel
  have hText : text = spacedText (ModuleItem.wordsOfList items) :=
    congrArg spacedText (by decide +kernel)
  obtain ⟨hClocked, hDiagnostics⟩ := scan_conditions items (by decide +kernel) (by decide +kernel)
    (by rw [hSignals]; decide)
  rw [← hText] at hClocked hDiagnostics
  exact ⟨hClocked.trans hSignals, hDiagnostics⟩

end Texts

end HdlIndex.Verilog

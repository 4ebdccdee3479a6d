import HdlIndex.Proofs.Verilog.GenerateFrames

/-! The walk through the parts of a generate construct: headers and choices, which are collected,
and the words that open and close the blocks of its branches. -/
namespace HdlIndex.Verilog

variable {word : Token} {after : Option Token} {walk : Walk} {frames : List Frame} {blocks : Nat}
  {known : List (String × List String)} {condition otherwise : String}

/-- The word that begins a header. -/
def GenerateKind.keyword : GenerateKind → Keyword
  | «if» => .if
  | «for» => .for
  | case => .case

namespace Walk

variable {level : Level}

/-- The walk collects an expression at a place. -/
def Collects (level : Level) (known : List (String × List String)) (place : Capture → Place)
    (expr : Capture) (walk : Walk) : Prop :=
  expr.active = true ∧ walk.IsAt level known (place expr)

/-- The walk has collected a text at a place. -/
def Collected (level : Level) (known : List (String × List String)) (place : Capture → Place)
    (text : String) (walk : Walk) : Prop :=
  ∃ expr : Capture, expr.text = text ∧ Collects level known place expr walk

/-- A blank or a part of a string goes into the condition, and the walk goes on collecting it. -/
theorem Collects.filler {place : Capture → Place} {expr : Capture} (token : Token)
    (hPlace : (place expr).absorb token = place (expr.absorb token))
    (hWalk : Collects level known place expr walk) :
    Collects level known place (expr.push token) (walk.step (.filler token)) := by
  obtain ⟨hActive, hWalk⟩ := hWalk
  refine ⟨Capture.active_push.trans hActive, ?_, hWalk.label, hWalk.frames, hWalk.blocks,
    hWalk.chained, hWalk.known⟩
  rw [step, hWalk.place, hPlace, Capture.absorb_of_active hActive]

theorem Collects.note {place : Capture → Place} {expr : Capture}
    (hWalk : Collects level known place expr walk) (note : Note) :
    Collects level known place expr (walk.note note) :=
  ⟨hWalk.1, hWalk.2.note note⟩

theorem Collected.idle {place : Capture → Place} {text : String}
    (hPlace : ∀ expr token, (place expr).absorb token = place (expr.absorb token)) :
    machine.Idle (Collected level known place text) := by
  rintro token walk hBlank ⟨expr, rfl, hWalk⟩
  exact ⟨expr.push token, Capture.text_push_blank hBlank, hWalk.filler token (hPlace expr token)⟩

/-- A word and a parenthesis begin a header. -/
theorem leads_begin {kind : GenerateKind} {paren : Token} (hSteady : level.IsSteady)
    (hWord : word.text = kind.keyword.text) (hParen : paren.text = "(") :
    machine.LeadsThrough [word, paren] after (IsAt level known .moduleBody)
      (Collects level known (.generateHeader kind 1) .fresh) := by
  have hSymbol : (Lexeme.ofToken paren).symbol = .parenOpen := Lexeme.symbol_ofToken hParen
  have hFresh : machine.Idle (IsAt level known (.generateHeader kind 1 .fresh)) :=
    IsAt.idle fun token hBlank => by
      rw [Place.absorb, Capture.absorb_of_active rfl, Capture.push_fresh hBlank]
  let Q := IsAt level known (.generateHeader kind 0 .idle)
  refine IsAt.leads (Q := Q) (fun _ _ => rfl) (fun walk hWalk => ?_)
    (IsAt.leads (Q := IsAt level known (.generateHeader kind 1 .fresh)) (fun _ _ => rfl)
      (fun walk hWalk => ?_)
      ((Machine.LeadsThrough.nil hFresh).imp fun walk hWalk => ⟨rfl, hWalk⟩))
  · rw [hWalk.read_keyword kind.keyword (.inl hSteady) hWord]
    cases kind <;> exact hWalk.goto _
  · rw [Walk.read, hWalk.place]
    simp only [readGenerate, hSymbol]
    exact hWalk.goto _

/-- A word of a header is collected. The parenthesis around them all is open. -/
theorem Collects.readHeader {kind : GenerateKind} {depth depth' : Nat} {expr : Capture}
    {next : Option Lexeme} (hDepth : bracketDepth (fun _ => true) depth word.text = some depth')
    (hWalk : Collects level known (.generateHeader kind (depth + 1)) expr walk) :
    Collects level known (.generateHeader kind (depth' + 1)) (expr.push word)
      (walk.read (.ofToken word) next) := by
  obtain ⟨hActive, hWalk⟩ := hWalk
  have hSymbol : (Lexeme.ofToken word).symbol = .ofText word.text := rfl
  refine ⟨Capture.active_push.trans hActive, ?_⟩
  rw [Walk.read, hWalk.place]
  dsimp only
  rw [readGenerate, hSymbol, hActive, Bool.not_true, Bool.and_false, if_neg Bool.false_ne_true]
  rw [bracketDepth] at hDepth
  dsimp only at hDepth ⊢
  split at hDepth
  · next hOpener =>
    obtain rfl := Option.some.inj hDepth
    rw [if_pos hOpener]
    exact hWalk.goto _
  split at hDepth
  · next hOpener hCloser =>
    split at hDepth
    · cases hDepth
    next hOpen =>
    obtain rfl := Option.some.inj hDepth
    have hInner : depth + 1 - 1 = depth - 1 + 1 := by omega
    rw [if_neg hOpener, if_neg (by simp [hOpen]), if_pos hCloser, hInner]
    exact hWalk.goto _
  · next hOpener hCloser =>
    obtain rfl : depth = depth' := by simpa using hDepth
    have hParen : Symbol.ofText word.text ≠ .parenClose := fun hParen => by
      simp [hParen, Symbol.isCloser] at hCloser
    rw [if_neg hOpener, if_neg (by simp [hParen]), if_neg hCloser, if_pos rfl]
    exact hWalk.goto _

/-- The words of a header are collected. -/
theorem leads_header {kind : GenerateKind} {words : List String} (h : isHeader words = true) :
    machine.LeadsAlong [] words (Collects level known (.generateHeader kind 1) .fresh)
      (Collected level known (.generateHeader kind 1) (expressionText words)) := by
  simp only [isHeader, isBalanced, Bool.and_eq_true, beq_iff_eq] at h
  refine Machine.LeadsAlong.collect (bracketDepth fun _ => true)
    (P := fun depth => Collects level known (.generateHeader kind (depth + 1))) ?_ ?_ h.2
  · exact fun _ _ token _ _ hWalk => hWalk.filler token rfl
  · rintro depth depth' expr token follower _ walk hDepth rfl hWalk
    have hStep := step_word hWalk.2.label (.ofToken token) (follower.map .ofToken)
    exact (congrArg _ hStep).mpr ((hWalk.note _).readHeader hDepth)

/-- The parenthesis that closes a header puts its condition in force. -/
theorem Collects.read_close {kind : GenerateKind} {expr : Capture} (hWord : word.text = ")")
    (hWalk : Collects level known (.generateHeader kind 1) expr walk) (next : Option Lexeme) :
    walk.read (.ofToken word) next = (walk.enterGenerate kind expr.text next).goto .moduleBody := by
  have hSymbol : (Lexeme.ofToken word).symbol = .parenClose := Lexeme.symbol_ofToken hWord
  rw [Walk.read, hWalk.2.place]
  simp only [readGenerate, hSymbol]
  rfl

/-- The word `begin` opens a block, and a colon behind it begins a label. -/
theorem IsAt.read_begin (hWord : word.text = "begin") (hWalk : walk.IsAt level known .moduleBody)
    (next : Option Lexeme) :
    walk.read (.ofToken word) next =
      { walk with blocks := walk.blocks + 1 }.expectLabel true next :=
  hWalk.read_keyword .begin (.inr rfl) hWord next

/-- Behind a mark, which sees the word `begin`, a block opens. -/
theorem leads_opening {mark : String} {label : Option String} {P : Walk → Prop}
    (hLabel : label.all isIdentifier = true) (hIdle : machine.Idle P)
    (hMark : ∀ (word : Token) walk next, word.text = mark → isNext next (.keyword .begin) = true →
      P walk → (walk.step (.word (.ofToken word) next)).IsAt { frames, blocks } known .moduleBody) :
    machine.LeadsAlong [":"] (ModuleItem.opening mark label) P
      (IsAt { frames, blocks := blocks + 1 } known .moduleBody) := by
  have hBegin {token : Token} (h : token.text = "begin") :
      isNext (some (.ofToken token)) (.keyword .begin) = true := by
    rw [isNext, Option.any_some, Lexeme.symbol_keyword .begin h, decide_eq_true rfl]
  refine .of_through fun words after hWords hAfter => ?_
  cases label with
  | none =>
      simp only [ModuleItem.opening, List.map_eq_cons_iff, List.map_eq_nil_iff] at hWords
      obtain ⟨word, _, rfl, hWord, token, _, rfl, hToken, rfl⟩ := hWords
      refine .cons (Q := IsAt { frames, blocks } known .moduleBody) hIdle ?_
        (IsAt.leads (fun _ _ => rfl) (fun walk hWalk => ?_) (.nil (IsAt.idle fun _ _ => rfl)))
      · rintro _ walk rfl hWalk
        exact hMark word walk _ hWord (hBegin hToken) hWalk
      · rw [hWalk.read_begin hToken, List.head?_nil, Option.none_or, expectLabel_of_ne]
        · exact ⟨hWalk.place, hWalk.label, hWalk.frames, congrArg (· + 1) hWalk.blocks,
            hWalk.chained, hWalk.known⟩
        · exact fun next hNext hColon => hAfter next hNext (by simp [hColon])
  | some label =>
      simp only [ModuleItem.opening, List.map_eq_cons_iff, List.map_eq_nil_iff] at hWords
      obtain ⟨word, _, rfl, hWord, token, _, rfl, hToken, colon, _, rfl, hColon, name, _, rfl, rfl,
        rfl⟩ := hWords
      refine .cons (Q := IsAt { frames, blocks } known .moduleBody) hIdle ?_
        (IsAt.through fun base hWalk => ?_)
      · rintro _ walk rfl hWalk
        exact hMark word walk _ hWord (hBegin hToken) hWalk
      have hName : (Symbol.ofText name.text).isWord = true :=
        (congrArg Symbol.isWord (symbol_of_isIdentifier hLabel)).trans rfl
      have hNext : isNext (some (Lexeme.ofToken colon)) .colon = true := by
        rw [isNext, Option.any_some, Lexeme.symbol_ofToken hColon]
        rfl
      let opened : Walk := { base with blocks := base.blocks + 1 }
      have hLabelled :
          machine.LeadsThrough [colon, name] after (opened.Awaits (.colon true) .moduleBody)
          (IsAt { frames, blocks := blocks + 1 } known .moduleBody) := by
        refine Awaits.leads_label true (fun _ _ => rfl) hColon hName
          ((Machine.LeadsThrough.nil (Awaits.idle fun _ _ => rfl)).imp ?_)
        rintro _ ⟨notes, rfl⟩
        exact ⟨rfl, rfl, hWalk.frames, congrArg (· + 1) hWalk.blocks, hWalk.chained, hWalk.known⟩
      refine Stands.leads (fun _ _ => rfl) (fun notes => ⟨notes, ?_⟩) hLabelled
      have hAt : IsAt { frames, blocks } known .moduleBody
          { base with place := .moduleBody, label := .idle, notes } :=
        ⟨rfl, rfl, hWalk.frames, hWalk.blocks, hWalk.chained, hWalk.known⟩
      rw [hAt.read_begin hToken, List.head?_cons, Option.some_or, Option.map_some, expectLabel,
        if_pos hNext]

/-- The word `end` closes a block, unless a colon behind it begins a label. -/
theorem leads_end {Q : Walk → Prop} (hIdle : machine.Idle Q)
    (hClose : ∀ walk : Walk, walk.IsAt level known .moduleBody → Q walk.closeBlock) :
    machine.LeadsAlong [":"] ["end"] (IsAt level known .moduleBody) Q := by
  refine .of_through fun words after hWords hAfter => ?_
  simp only [List.map_eq_cons_iff, List.map_eq_nil_iff] at hWords
  obtain ⟨word, _, rfl, hWord, rfl⟩ := hWords
  refine IsAt.leads (fun _ _ => rfl) (fun walk hWalk => ?_) (.nil hIdle)
  rw [hWalk.read_keyword .end (.inr rfl) hWord, List.head?_nil, Option.none_or]
  have hClosed : walk.readItemKeyword .end (.ofToken word) (after.map .ofToken) =
      walk.closeBlock.expectLabel false (after.map .ofToken) := rfl
  rw [hClosed, expectLabel_of_ne fun next hNext hColon => hAfter next hNext (by simp [hColon])]
  exact hClose walk hWalk

/-- The walk is behind a block, with the condition of an `else`. -/
def IsBehind (level : Level) (known : List (String × List String)) (otherwise : String)
    (walk : Walk) : Prop :=
  walk.IsAt level known .moduleBody ∧ walk.pendingElse = some otherwise

theorem IsBehind.idle : machine.Idle (IsBehind level known otherwise) := by
  rintro token walk hBlank ⟨hWalk, hElse⟩
  exact ⟨IsAt.idle (fun _ _ => rfl) token walk hBlank hWalk, hElse⟩

/-- The end of a block leaves its condition, and tells what an `else` behind it stands for. -/
theorem leads_leave (hSteady : Level.IsSteady { frames, blocks }) :
    machine.LeadsAlong [":"] ["end"]
      (IsAt { frames := .ofBlock condition otherwise blocks :: frames, blocks := blocks + 1 } known
        .moduleBody)
      (IsBehind { frames, blocks } known otherwise) := by
  refine leads_end IsBehind.idle fun walk hWalk => ?_
  rw [closeBlock_ofBlock hSteady hWalk.frames hWalk.blocks]
  exact ⟨⟨hWalk.place, hWalk.label, rfl, rfl, hWalk.chained, hWalk.known⟩, rfl⟩

/-- What an `else` leaves to the `if` behind it. -/
def chain : List (List String) → Option String
  | [] => none
  | conditions => some (noneHolds conditions)

/-- The condition of an `if` behind others. -/
def chosen (earlier : List (List String)) (condition : List String) : String :=
  if earlier.isEmpty then expressionText condition else onlyHolds earlier condition

/-- That none of the conditions holds is that none of the earlier ones does, and not the last
one. -/
theorem noneHolds_concat {earlier : List (List String)} (hEarlier : earlier ≠ [])
    (condition : List String) :
    noneHolds (earlier ++ [condition]) = noneHolds earlier ++ " && " ++ negated condition := by
  rw [noneHolds, List.map_append,
    String.intercalate_append_of_ne_nil (by simpa using hEarlier) (by simp),
    List.map_singleton, String.intercalate_singleton]
  rfl

/-- A block behind the header of an `if` is under its condition, and those of earlier ones. -/
theorem leads_if {label : Option String} {earlier : List (List String)} {condition : List String}
    (hLabel : label.all isIdentifier = true) :
    machine.LeadsAlong [":"] (ModuleItem.opening ")" label)
      (Collected { frames, blocks, chained := chain earlier } known (.generateHeader .if 1)
        (expressionText condition))
      (IsAt
        { frames :=
            .ofBlock (chosen earlier condition) (noneHolds (earlier ++ [condition])) blocks ::
              frames
          blocks := blocks + 1 } known .moduleBody) := by
  refine leads_opening hLabel (Collected.idle fun _ _ => rfl) ?_
  rintro word walk next hWord hNext ⟨expr, hText, hWalk⟩
  rw [step_word hWalk.2.label, (hWalk.note _).read_close hWord, hText]
  generalize hNoted : walk.note _ = noted
  have hAt : noted.IsAt { frames, blocks, chained := chain earlier } known
      (.generateHeader .if 1 expr) := hNoted ▸ hWalk.2.note _
  have hUnchained : ({ noted with chained := none } : Walk).IsAt { frames, blocks } known
      (.generateHeader .if 1 expr) :=
    ⟨hAt.place, hAt.label, hAt.frames, hAt.blocks, rfl, hAt.known⟩
  have hEnter : noted.enterGenerate .if (expressionText condition) next =
      { noted with chained := none }.enterFrame (chosen earlier condition)
        (noneHolds (earlier ++ [condition])) next := by
    rw [enterGenerate, hAt.chained]
    cases earlier with
    | nil => rfl
    | cons first earlier =>
        rw [noneHolds_concat (List.cons_ne_nil first earlier)]
        simp only [chain, chosen, onlyHolds, negated, List.isEmpty_cons,
          Option.isSome_some, if_true, Bool.false_eq_true, if_false, String.append_assoc]
  rw [hEnter]
  exact (hUnchained.enterFrame hNext).goto _

/-- A block behind the header of a loop is under its condition. -/
theorem leads_for {label : Option String} {header : List String}
    (hLabel : label.all isIdentifier = true) :
    machine.LeadsAlong [":"] (ModuleItem.opening ")" label)
      (Collected { frames, blocks } known (.generateHeader .for 1) (expressionText header))
      (IsAt
        { frames := .ofBlock (loopCondition header) "" blocks :: frames, blocks := blocks + 1 }
        known .moduleBody) := by
  refine leads_opening hLabel (Collected.idle fun _ _ => rfl) ?_
  rintro word walk next hWord hNext ⟨expr, hText, hWalk⟩
  rw [step_word hWalk.2.label, (hWalk.note _).read_close hWord, hText]
  exact ((hWalk.2.note _).enterFrame hNext).goto _

/-- A block behind an `else` is under the condition that is left to it. -/
theorem leads_else {label : Option String} (hSteady : Level.IsSteady { frames, blocks })
    (hLabel : label.all isIdentifier = true) :
    machine.LeadsAlong [":"] (ModuleItem.opening "else" label)
      (IsBehind { frames, blocks } known otherwise)
      (IsAt { frames := .ofBlock otherwise "" blocks :: frames, blocks := blocks + 1 } known
        .moduleBody) := by
  refine leads_opening hLabel IsBehind.idle ?_
  rintro word walk next hWord hNext ⟨hWalk, hElse⟩
  rw [step_word hWalk.label, (hWalk.note _).read_keyword .else (.inl hSteady) hWord]
  have hOther : isNext next (.keyword .if) = false := by
    cases next with
    | none => rfl
    | some next =>
        have hSymbol : next.symbol = .keyword .begin := by simpa [isNext] using hNext
        simp [isNext, hSymbol]
  show (readElse _ next).IsAt _ _ _
  rw [readElse, hOther, if_neg Bool.false_ne_true]
  show IsAt _ _ _ (enterFrame _ (walk.pendingElse.getD "") "" next)
  rw [hElse]
  exact IsAt.enterFrame
    ⟨hWalk.place, hWalk.label, hWalk.frames, hWalk.blocks, hWalk.chained, hWalk.known⟩ hNext

/-- A word and a parenthesis begin a header. -/
theorem leads_start (kind : GenerateKind) (hSteady : level.IsSteady) :
    machine.LeadsAlong [] [kind.keyword.text, "("] (IsAt level known .moduleBody)
      (Collects level known (.generateHeader kind 1) .fresh) := by
  refine .of_through fun words after hWords _ => ?_
  simp only [List.map_eq_cons_iff, List.map_eq_nil_iff] at hWords
  obtain ⟨word, _, rfl, hWord, paren, _, rfl, hParen, rfl⟩ := hWords
  exact leads_begin hSteady hWord hParen

/-- An `else` leaves its condition to the `if` behind it. -/
theorem leads_elseIf {earlier : List (List String)} (hEarlier : earlier ≠ [])
    (hSteady : Level.IsSteady { frames, blocks }) :
    machine.LeadsAlong [] ["else", "if", "("]
      (IsBehind { frames, blocks } known (noneHolds earlier))
      (Collects { frames, blocks, chained := chain earlier } known
        (.generateHeader .if 1) .fresh) := by
  refine .of_through fun words after hWords _ => ?_
  simp only [List.map_eq_cons_iff, List.map_eq_nil_iff] at hWords
  obtain ⟨word, _, rfl, hWord, token, _, rfl, hToken, paren, _, rfl, hParen, rfl⟩ := hWords
  refine .cons IsBehind.idle ?_ (leads_begin hSteady hToken hParen)
  rintro _ walk rfl ⟨hWalk, hElse⟩
  have hNext : isNext (some (Lexeme.ofToken token)) (.keyword .if) = true := by
    rw [isNext, Option.any_some, Lexeme.symbol_keyword .if hToken, decide_eq_true rfl]
  refine (congrArg (IsAt _ _ _) ((step_word hWalk.label _ _).trans
    ((hWalk.note _).read_keyword .else (.inl hSteady) hWord _))).mpr ?_
  show (readElse _ (some (.ofToken token))).IsAt _ _ _
  rw [readElse, hNext, if_pos rfl]
  refine ⟨hWalk.place, hWalk.label, hWalk.frames, hWalk.blocks, ?_, hWalk.known⟩
  show some (walk.pendingElse.getD "") = chain earlier
  rw [hElse]
  cases earlier with
  | nil => exact absurd rfl hEarlier
  | cons first earlier => rfl

variable {selector : String}

/-- The walk is inside of a case, in front of a choice. The condition of the item before stands. -/
def IsChoosing (selector : String) (frames : List Frame) (blocks : Nat)
    (known : List (String × List String)) (walk : Walk) : Prop :=
  ∃ condition,
    walk.IsAt
      { frames := .ofCase selector condition true blocks :: frames, blocks } known .moduleBody

theorem IsChoosing.idle : machine.Idle (IsChoosing selector frames blocks known) := by
  rintro token walk hBlank ⟨condition, hWalk⟩
  exact ⟨condition, IsAt.idle (fun _ _ => rfl) token walk hBlank hWalk⟩

/-- The header of a case awaits its first choice. -/
theorem leads_case :
    machine.LeadsAlong [] [")"]
      (Collected { frames, blocks } known (.generateHeader .case 1) selector)
      (IsChoosing selector frames blocks known) := by
  refine .of_through fun words after hWords _ => ?_
  simp only [List.map_eq_cons_iff, List.map_eq_nil_iff] at hWords
  obtain ⟨word, _, rfl, hWord, rfl⟩ := hWords
  refine .cons (Collected.idle fun _ _ => rfl) ?_ (.nil IsChoosing.idle)
  rintro _ walk rfl ⟨expr, rfl, hWalk⟩
  refine (congrArg (IsChoosing _ _ _ _) ((step_word hWalk.2.label _ _).trans
    ((hWalk.note _).read_close hWord _))).mpr ⟨"", rfl, hWalk.2.label, ?_, hWalk.2.blocks,
      hWalk.2.chained, hWalk.2.known⟩
  show { condition := "", otherwise := "", owner := walk.blocks, single := false
         selector := some expr.text, awaiting := true } :: walk.frames = _
  rw [hWalk.2.frames, hWalk.2.blocks]
  rfl

/-- The end of a case leaves it. -/
theorem leads_endcase (hSteady : Level.IsSteady { frames, blocks }) :
    machine.LeadsAlong [] ["endcase"] (IsChoosing selector frames blocks known)
      (IsAt { frames, blocks } known .moduleBody) := by
  refine .of_exists fun condition => .of_through fun words after hWords _ => ?_
  simp only [List.map_eq_cons_iff, List.map_eq_nil_iff] at hWords
  obtain ⟨word, _, rfl, hWord, rfl⟩ := hWords
  refine IsAt.leads (fun _ _ => rfl) (fun walk hWalk => ?_) (.nil (IsAt.idle fun _ _ => rfl))
  rw [hWalk.read_keyword .endcase (.inr rfl) hWord]
  have hClose : walk.closeCase = ({ walk with frames } : Walk).endItem := by
    rw [closeCase, hWalk.frames, List.dropWhile_cons_of_neg (by simp [Frame.ofCase])]
  show walk.closeCase.IsAt _ _ _
  have hEnd : ({ walk with frames } : Walk).endItem = { walk with frames } :=
    endItem_eq_self hSteady rfl hWalk.blocks
  rw [hClose, hEnd]
  exact ⟨hWalk.place, hWalk.label, rfl, hWalk.blocks, hWalk.chained, hWalk.known⟩

/-- The end of the block of a case item leads to the next choice. -/
theorem leads_next :
    machine.LeadsAlong [":"] ["end"]
      (IsAt
        { frames := .ofCase selector condition false blocks :: frames, blocks := blocks + 1 }
        known .moduleBody)
      (IsChoosing selector frames blocks known) := by
  refine leads_end IsChoosing.idle fun walk hWalk => ?_
  rw [closeBlock_ofCase hWalk.frames hWalk.blocks]
  exact ⟨condition, hWalk.place, hWalk.label, rfl, rfl, hWalk.chained, hWalk.known⟩

/-- The walk reads a choice, of which nothing or some words are read. -/
def Chooses (selector : String) (frames : List Frame) (blocks : Nat)
    (known : List (String × List String)) (depth : Nat) (expr : Capture) (walk : Walk) : Prop :=
  depth = 0 ∧ expr = .fresh ∧ IsChoosing selector frames blocks known walk ∨
  ∃ condition, Collects { frames := .ofCase selector condition true blocks :: frames, blocks } known
    (.generateChoice depth) expr walk

theorem Chooses.filler {depth : Nat} {expr : Capture} {token : Token}
    (hBlank : token.isBlank = true) (hWalk : Chooses selector frames blocks known depth expr walk) :
    Chooses selector frames blocks known depth (expr.push token) (walk.step (.filler token)) := by
  rcases hWalk with ⟨rfl, rfl, hWalk⟩ | ⟨condition, hWalk⟩
  · exact .inl ⟨rfl, Capture.push_fresh hBlank, IsChoosing.idle token walk hBlank hWalk⟩
  · exact .inr ⟨condition, hWalk.filler token rfl⟩

/-- No block word begins a choice, so that the first word is read like the others. -/
theorem Chooses.step_word {depth : Nat} {expr : Capture}
    (hWord : depth = 0 → isBlockWord (.ofText word.text) = false)
    (hWalk : Chooses selector frames blocks known depth expr walk) (next : Option Lexeme) :
    ∃ condition place noted, expr.active = true ∧
      IsAt { frames := .ofCase selector condition true blocks :: frames, blocks } known place
        noted ∧
      walk.step (.word (.ofToken word) next) = noted.readChoice depth expr (.ofToken word) := by
  rcases hWalk with ⟨rfl, rfl, condition, hWalk⟩ | ⟨condition, hActive, hWalk⟩
  · have hNoted := hWalk.note (.visited walk.place.region.name (Lexeme.ofToken word).text)
    refine ⟨condition, _, _, rfl, hNoted, ?_⟩
    have hSymbol : (Lexeme.ofToken word).symbol = .ofText word.text := rfl
    have hAwaits :
        (walk.note (.visited walk.place.region.name (Lexeme.ofToken word).text)).awaitsChoice =
        true := by
      rw [awaitsChoice, hNoted.frames, hNoted.blocks]
      simp [Frame.ofCase]
    rw [Walk.step_word hWalk.label, Walk.read, hNoted.place]
    dsimp only
    rw [readItem, hAwaits, hSymbol, hWord rfl, Bool.not_false, Bool.and_true, if_pos rfl]
  · have hNoted := hWalk.note (.visited walk.place.region.name (Lexeme.ofToken word).text)
    refine ⟨condition, _, _, hActive, hNoted, ?_⟩
    rw [Walk.step_word hWalk.label, Walk.read, hNoted.place]

/-- No word of a choice outside of brackets closes or opens a block. -/
theorem isBlockWord_of_bracketDepth {depth depth' : Nat}
    (h : bracketDepth Symbol.isChosen depth word.text = some depth') (hDepth : depth = 0) :
    isBlockWord (.ofText word.text) = false := by
  subst hDepth
  rw [← Bool.not_eq_true]
  intro hBlock
  unfold isBlockWord at hBlock
  split at hBlock
  case h_6 => cases hBlock
  all_goals
    next hSymbol => simp [bracketDepth, hSymbol, Symbol.isOpener, Symbol.isCloser,
      Symbol.isChosen] at h

/-- A word of a choice is collected. -/
theorem Chooses.read {depth depth' : Nat} {expr : Capture} {next : Option Lexeme}
    (hDepth : bracketDepth Symbol.isChosen depth word.text = some depth')
    (hWalk : Chooses selector frames blocks known depth expr walk) :
    Chooses selector frames blocks known depth' (expr.push word)
      (walk.step (.word (.ofToken word) next)) := by
  obtain ⟨condition, place, noted, hActive, hNoted, hStep⟩ :=
    hWalk.step_word (isBlockWord_of_bracketDepth hDepth) next
  refine .inr ⟨condition, Capture.active_push.trans hActive, ?_⟩
  have hSymbol : (Lexeme.ofToken word).symbol = .ofText word.text := rfl
  rw [hStep, readChoice, hSymbol]
  rw [bracketDepth] at hDepth
  dsimp only at hDepth ⊢
  split at hDepth
  · next hOpener =>
    obtain rfl := Option.some.inj hDepth
    have hColon : Symbol.ofText word.text ≠ .colon := fun hColon => by
      simp [hColon, Symbol.isOpener] at hOpener
    rw [if_neg (by simp [hColon]), if_pos hOpener]
    exact hNoted.goto _
  split at hDepth
  · next hOpener hCloser =>
    split at hDepth
    · cases hDepth
    obtain rfl := Option.some.inj hDepth
    have hColon : Symbol.ofText word.text ≠ .colon := fun hColon => by
      simp [hColon, Symbol.isCloser] at hCloser
    rw [if_neg (by simp [hColon]), if_neg hOpener, if_pos hCloser]
    exact hNoted.goto _
  · next hOpener hCloser =>
    split at hDepth
    · cases hDepth
    next hChosen =>
    obtain rfl := Option.some.inj hDepth
    have hColon : ¬ (Symbol.ofText word.text = .colon ∧ depth = 0) := by
      rintro ⟨hColon, hZero⟩
      simp [hColon, hZero, Symbol.isChosen] at hChosen
    rw [if_neg (by simpa using hColon), if_neg hOpener, if_neg hCloser]
    exact hNoted.goto _

/-- The words of a choice are collected. -/
theorem leads_choice {choice : List String} (h : isChoice choice = true) :
    machine.LeadsAlong [] choice (IsChoosing selector frames blocks known) fun walk =>
      ∃ expr : Capture, expr.text = expressionText choice ∧
        Chooses selector frames blocks known 0 expr walk := by
  simp only [isChoice, isBalanced, Bool.and_eq_true, beq_iff_eq] at h
  refine .of_imp (fun walk hWalk => .inl ⟨rfl, rfl, hWalk⟩)
    (Machine.LeadsAlong.collect (bracketDepth Symbol.isChosen) ?_ ?_ h.2.2)
  · exact fun _ _ token _ hSpace hWalk => hWalk.filler (Token.isBlank_of_space hSpace)
  · rintro _ _ expr token follower _ walk hDepth rfl hWalk
    exact hWalk.read hDepth

/-- Only the word `default` reads like it. -/
theorem choiceCondition_eq (selector choice : List String) :
    choiceCondition selector choice =
      if expressionText choice = "default" then "default"
      else expressionText selector ++ " == " ++ expressionText choice := by
  have hDefault : choice = ["default"] ↔ expressionText choice = "default" := by
    constructor
    · rintro rfl
      rfl
    intro hText
    match choice with
    | [] => exact absurd hText (by decide)
    | [word] => rw [← hText, expressionText, String.intercalate_singleton]
    | word :: next :: rest =>
        have hSpace : ' ' ∈ (expressionText (word :: next :: rest)).toList := by
          rw [expressionText, String.intercalate_cons_cons]
          simp
        rw [hText] at hSpace
        exact absurd hSpace (by decide)
  simp only [choiceCondition, hDefault]

/-- A block behind a choice is under its condition. -/
theorem leads_chosen {label : Option String} {selector choice : List String}
    (hLabel : label.all isIdentifier = true) :
    machine.LeadsAlong [":"] (ModuleItem.opening ":" label)
      (fun walk => ∃ expr : Capture, expr.text = expressionText choice ∧
        Chooses (expressionText selector) frames blocks known 0 expr walk)
      (IsAt
        { frames :=
            .ofCase (expressionText selector) (choiceCondition selector choice) false blocks ::
              frames
          blocks := blocks + 1 } known .moduleBody) := by
  refine leads_opening hLabel ?_ ?_
  · rintro token walk hBlank ⟨expr, hText, hWalk⟩
    exact ⟨expr.push token, (Capture.text_push_blank hBlank).trans hText, hWalk.filler hBlank⟩
  rintro word walk next hWord - ⟨expr, hText, hWalk⟩
  have hSymbol : (Lexeme.ofToken word).symbol = .colon := Lexeme.symbol_ofToken hWord
  obtain ⟨condition, place, noted, -, hNoted, hStep⟩ :=
    hWalk.step_word (fun _ => by rw [hWord]; decide) next
  have hChoice : noted.readChoice 0 expr (.ofToken word) =
      { noted with
        frames :=
          .ofCase (expressionText selector) (choiceCondition selector choice) false blocks :: frames
        place := .moduleBody } := by
    rw [choiceCondition_eq, readChoice, hSymbol, if_pos (by simp), hNoted.frames, hText]
    by_cases hDefault : expressionText choice = "default"
    · simp [hDefault, Frame.ofCase]
    · simp [hDefault, Frame.ofCase]
  rw [hStep, hChoice]
  exact ⟨rfl, hNoted.label, rfl, hNoted.blocks, hNoted.chained, hNoted.known⟩

end Walk

end HdlIndex.Verilog

import HdlIndex.Proofs.Verilog.Clauses
import HdlIndex.Proofs.Verilog.ItemReading
import HdlIndex.Proofs.Verilog.Seeking
import HdlIndex.Proofs.Verilog.StatementRun

/-! The label behind the `end` of a block. Between the items of a module, and in an always block
that goes on, the walk reads the colon and the name as a label and goes on as if they were not
there. Behind the `end` that ends a whole always block, and behind `endfunction` and `endtask`, it
expects no label. -/
namespace HdlIndex.Verilog

open String (utf8Len)

theorem delimiters_areApart : Delimiter.areApart delimiters = true := by decide +kernel

/-- A name that a block can be labelled with. No delimiter is part of it. -/
def isLabelName (name : String) : Bool :=
  isIdentifier name && name.toList.all fun c => ! delimiters.any (·.leads c)

section Words

variable {name : String} {offset : Nat}

/-- The tokens of a colon and a name behind a word. -/
def labelTokens (offset : Nat) (name : String) : List Token :=
  [.placed offset [' '], .placed (offset + 1) [], .placed (offset + 1) [':'],
    .placed (offset + 2) [], .placed (offset + 2) [' '], .placed (offset + 3) name.toList]

theorem toList_label (name : String) :
    (" : " ++ name).toList = ' ' :: ':' :: ' ' :: name.toList := by
  simp

/-- A colon and a name between single spaces are split into the tokens of a label, whatever stands
in front. -/
theorem splits_label (hName : isLabelName name = true) (offset : Nat) :
    SplitsUpTo delimiters offset (" : " ++ name).toList
      (.placed offset [] :: labelTokens offset name) true := by
  rw [isLabelName, Bool.and_eq_true] at hName
  have hPlain := Delimiter.plain_of_all hName.2
  have hBlank : ∀ chars : List Char, (∀ c ∈ chars.head?, Delimiter.isGap c = false) →
      cut? delimiters (' ' :: chars) = some ⟨[], [' '], chars⟩ := by
    intro chars hHead
    have hRun : (' ' :: chars).takeWhile Delimiter.isGap = [' '] := by
      cases chars with
      | nil => rfl
      | cons c chars => simp [List.takeWhile, hHead c rfl, show Delimiter.isGap ' ' = true from rfl]
    rw [cut?, cutFrom?, Delimiter.takeFirst?_gap delimiters_areBroken rfl, hRun]
    rfl
  have hColon : cut? delimiters (':' :: ' ' :: name.toList) =
      some ⟨[], [':'], ' ' :: name.toList⟩ := rfl
  have hNonempty : name.toList ≠ [] := by
    intro hNil
    rw [String.toList_eq_nil_iff] at hNil
    rw [hNil] at hName
    exact absurd hName.1 (by decide)
  rw [toList_label]
  refine .cut (hBlank _ (by simp [Delimiter.isGap])) (.cut hColon (.cut (hBlank _ ?_) ?_))
  · intro c hc
    rw [← Bool.not_eq_true]
    intro hGap
    have hFound := hPlain c (List.mem_of_mem_head? hc) []
    rw [Delimiter.takeFirst?_gap delimiters_areBroken hGap] at hFound
    cases hFound
  · exact .last hNonempty (cutFrom?_plain [] hPlain)

/-- A plain word is seen ahead. -/
theorem lookAhead_plain {token : Token} (hBlank : token.isBlank = false)
    (hPlain : isPlainText token.text = true) (rest : List Token) :
    lookAhead (token :: rest) = some (.ofToken token) := by
  have hComment : comments.find? (·.1 = token.text) = none := by
    rw [List.find?_eq_none]
    intro pair hMem hText
    rw [decide_eq_true_iff] at hText
    have hPair : pair = ("//", "\n") ∨ pair = ("/*", "*/") := by simpa [comments] using hMem
    rw [← hText] at hPlain
    rcases hPair with rfl | rfl <;> exact absurd hPlain (by decide)
  rw [lookAhead, Token.nextSignificant, hBlank, hComment]
  rfl

/-- In front of a label its colon is seen ahead. -/
theorem lookAhead_label (offset : Nat) (name : String) (behind : List Token) :
    lookAhead (labelTokens offset name ++ behind) =
      some (.ofToken (.placed (offset + 1) [':'])) := by
  rw [labelTokens, List.cons_append, lookAhead_blank (Token.isBlank_placed _ _), List.cons_append,
    lookAhead_blank (Token.isBlank_placed _ _), List.cons_append,
    lookAhead_plain (Token.isBlank_placed _ _) (show isPlainText ":" = true by decide)]

theorem isPlainText_labelTokens (hName : isLabelName name = true) (offset : Nat) :
    ∀ token ∈ labelTokens offset name, isPlainText token.text = true := by
  rw [isLabelName, isIdentifier, Bool.and_eq_true, Bool.and_eq_true] at hName
  simp only [labelTokens, List.mem_cons, List.not_mem_nil, or_false, Token.placed,
    forall_eq_or_imp, forall_eq, String.ofList_toList]
  exact ⟨by decide, by decide, by decide, by decide, by decide, hName.1.1⟩

end Words

/-- The event that a token makes if it is no part of a comment, a string or a directive. -/
def Event.IsOf (token : Token) (event : Event) : Prop :=
  if token.isBlank then event = .filler token else ∃ next, event = .word (.ofToken token) next

section Reading

variable {reader : Reader} {token : Token} {tokens rest : List Token}

/-- In code a plain token makes one event: a filler if it is blank, and a word otherwise. -/
theorem Reader.emitted_plain (hMode : reader.mode = .code) (hToken : isPlainText token.text = true)
    (rest : List Token) :
    reader.emitted token rest =
        [if token.isBlank then .filler token else .word (.ofToken token) (lookAhead rest)] ∧
      (reader.read token rest).mode = .code := by
  have hForget : reader.forget.mode = .code := hMode
  rw [emitted, read, read, hMode, hForget]
  dsimp only
  rw [readCode_of_isPlainText hToken, readCode_of_isPlainText hToken]
  exact ⟨by simp [emit, forget, lookAhead], hMode⟩

/-- Plain tokens make one event each. -/
theorem Reader.emittedOver_plain (hMode : reader.mode = .code)
    (hTokens : ∀ token ∈ tokens, isPlainText token.text = true) (rest : List Token) :
    List.Forall₂ Event.IsOf tokens (reader.emittedOver tokens rest) ∧
      (reader.readOver tokens rest).mode = .code := by
  induction tokens generalizing reader with
  | nil => exact ⟨.nil, hMode⟩
  | cons token tokens ih =>
      rw [List.forall_mem_cons] at hTokens
      obtain ⟨hEmitted, hCode⟩ := emitted_plain hMode hTokens.1 (tokens ++ rest)
      obtain ⟨hEvents, hAfter⟩ := ih hCode hTokens.2
      refine ⟨?_, hAfter⟩
      rw [emittedOver, hEmitted]
      refine .cons ?_ hEvents
      rw [Event.IsOf]
      split
      · rfl
      · exact ⟨_, rfl⟩

end Reading

/-- At this place an `end` closes a block that is labelled: one between the items of a module, or
one within the outermost block of an always block. -/
def Place.isLabelled : Place → Bool
  | .moduleBody => true
  | .alwaysBlock _ block => block.depth = 0 && 1 < block.nest
  | _ => false

namespace Walk

variable {walk : Walk} {here : Lexeme} {name : String} {offset : Nat} {events : List Event}

/-- A walk that is not changed by blanks, with no label under way. -/
structure IsSettled (walk : Walk) : Prop where
  label : walk.label = .idle
  absorb : ∀ token, walk.place.absorb token = walk.place
  apart : walk.place.isInClause = false

theorem label_endItem (walk : Walk) : walk.endItem.label = walk.label := by
  unfold endItem
  dsimp only
  split
  · rfl
  · split <;> rfl

theorem label_closeBlock (walk : Walk) : walk.closeBlock.label = walk.label := label_endItem _

/-- An `end` that closes a labelled block looks ahead for the colon of the label, and does nothing
else with the word that it sees. -/
theorem readWord_end (hHere : here.symbol = .keyword .end)
    (hLabel : ∀ recorded, walk.label ≠ .name recorded) (hPlace : walk.place.isLabelled = true) :
    ∃ other : Walk, other.IsSettled ∧
      ∀ next, walk.readWord here next = other.expectLabel false next := by
  have hNone : walk.readLabel? here = none := by
    unfold readLabel?
    cases hCase : walk.label with
    | idle => rfl
    | colon recorded => exact if_neg (by simp [hHere])
    | name recorded => exact absurd hCase (hLabel recorded)
  set base :=
    ({ walk with label := .idle }.note (.visited walk.place.region.name here.text)) with hBase
  have hRead : ∀ next, walk.readWord here next = base.read here next := fun next => by
    rw [readWord, hNone]
  have hSame : base.place = walk.place := rfl
  cases hCase : walk.place with
  | moduleBody =>
      rw [hCase] at hSame
      have hIdles := Idles.closeBlock base
      refine ⟨base.closeBlock, ⟨label_closeBlock base, ?_, ?_⟩, fun next => ?_⟩
      · rw [hIdles.place, hSame]
        exact fun _ => rfl
      · rw [hIdles.place, hSame]
        rfl
      · have hWord : isBlockWord here.symbol = true := by rw [hHere]; rfl
        rw [hRead, read, hSame]
        dsimp only
        rw [readItem, hWord, Bool.not_true, Bool.and_false, if_neg Bool.false_ne_true, hHere]
        rfl
  | alwaysBlock clocked block =>
      rw [hCase] at hSame hPlace
      simp only [Place.isLabelled, Bool.and_eq_true, decide_eq_true_eq] at hPlace
      refine ⟨base.goto
        (.alwaysBlock clocked { block with nest := block.nest - 1, statement := {} }),
        ⟨rfl, fun _ => rfl, rfl⟩, fun next => ?_⟩
      rw [hRead, read, hSame]
      have hNest : block.nest - 1 ≠ 0 := by omega
      simp [readBlock, readBlockKeyword, isBlockOpen, isBlockClose, hHere, hPlace.1, hNest,
        Symbol.isOpener, Symbol.isCloser]
  | _ =>
      rw [hCase] at hPlace
      cases hPlace

/-- The colon and the name of a label that is expected are passed over. -/
theorem IsSettled.run_label (h : walk.IsSettled) (hName : isLabelName name = true)
    (hEvents : List.Forall₂ Event.IsOf (labelTokens offset name) events) :
    ({ walk with label := .colon false } : Walk).run events = walk := by
  rw [isLabelName, isIdentifier, Bool.and_eq_true, Bool.and_eq_true, beq_iff_eq] at hName
  have hBlank : ∀ {label : Label} {token : Token} {event : Event}, token.isBlank = true →
      event.IsOf token → ({ walk with label } : Walk).step event = { walk with label } := by
    intro label token event hBlank hEvent
    rw [Event.IsOf, if_pos hBlank] at hEvent
    rw [hEvent, step, h.absorb]
  have hColon : ∀ {token : Token} {event : Event}, token.text = ":" → event.IsOf token →
      ({ walk with label := .colon false } : Walk).step event =
        { walk with label := .name false } := by
    intro token event hText hEvent
    have hBlank : token.isBlank = false := by rw [Token.isBlank, hText]; rfl
    rw [Event.IsOf, hBlank, if_neg Bool.false_ne_true] at hEvent
    obtain ⟨next, rfl⟩ := hEvent
    have hSymbol : (Lexeme.ofToken token).symbol = .colon := Lexeme.symbol_ofToken hText
    simp [step, readWord, readLabel?, hSymbol]
  have hLabel : ∀ {token : Token} {event : Event}, token.text = name → event.IsOf token →
      ({ walk with label := .name false } : Walk).step event = { walk with label := .idle } := by
    intro token event hText hEvent
    have hSymbol : (Lexeme.ofToken token).symbol = .name :=
      (congrArg Symbol.ofText hText).trans hName.1.2
    have hBlank : token.isBlank = false :=
      isBlank_of_isNameLike (hText ▸ isNameLike_of_ofText hName.1.2)
    rw [Event.IsOf, hBlank, if_neg Bool.false_ne_true] at hEvent
    obtain ⟨next, rfl⟩ := hEvent
    simp [step, readWord, readLabel?, hSymbol, Symbol.isWord]
  rw [labelTokens] at hEvents
  rcases hEvents with _ | ⟨hSpace,
    _ | ⟨hEmpty, _ | ⟨hMark, _ | ⟨hEmpty', _ | ⟨hSpace', _ | ⟨hWord, _ | _⟩⟩⟩⟩⟩⟩
  have hIdle : walk = { walk with label := .idle } := by rw [← h.label]
  rw [run, List.foldl_cons, hBlank (Token.isBlank_placed _ _) hSpace, List.foldl_cons,
    hBlank (Token.isBlank_placed _ _) hEmpty, List.foldl_cons, hColon rfl hMark, List.foldl_cons,
    hBlank (Token.isBlank_placed _ _) hEmpty', List.foldl_cons,
    hBlank (Token.isBlank_placed _ _) hSpace', List.foldl_cons,
    hLabel String.ofList_toList hWord, ← hIdle]
  rfl

end Walk

section Inserting

variable {region : Region} {pre post name : String}

/-- The walk through a text in front of the last event of it. -/
def walkBefore (region : Region) (text : String) : Walk :=
  (Walk.start region).run (Reader.readAll {} (tokens none text).proper).events.toList.dropLast

/-- The text ends with an `end` that closes a labelled block, and is read as such. -/
structure ClosesBlock (region : Region) (text : String) : Prop where
  word : (tokens none text).proper.getLast?.map (·.text) = some "end"
  code : (Reader.readAll {} (tokens none text).proper.dropLast).mode = .code
  label : ∀ recorded, (walkBefore region text).label ≠ .name recorded
  place : (walkBefore region text).place.isLabelled = true

/-- A text that ends with a word is walked through up to it, and then the word is read in view of
what follows. -/
theorem run_before {text : String} {lead : List Token} {last : Token} {opened : Bool}
    (hSplits : SplitsUpTo delimiters 0 text.toList (lead ++ [last]) opened)
    (hCode : (Reader.readOver {} lead []).mode = .code) (hPlain : isPlainText last.text = true)
    (hBlank : last.isBlank = false) (region : Region) (rest : List Token) :
    (Walk.start region).run (Reader.emittedOver {} (lead ++ [last]) rest) =
        (walkBefore region text).step (.word (.ofToken last) (lookAhead rest)) ∧
      (Reader.readOver {} (lead ++ [last]) rest).mode = .code := by
  have hMode : ∀ rest, (Reader.readOver {} lead rest).mode = .code := fun rest =>
    (congrArg Reader.mode (Reader.forget_readOver_ahead {} lead [] rest)).trans hCode
  have hRead := fun rest => Reader.emitted_plain (hMode (last :: rest)) hPlain rest
  have hEvents : ∀ rest, Reader.emittedOver {} (lead ++ [last]) rest =
      Reader.emittedOver {} lead (last :: rest) ++ [.word (.ofToken last) (lookAhead rest)] := by
    intro rest
    rw [Reader.isReader.emittedOver_append, List.singleton_append, Reader.emittedOver,
      Reader.emittedOver, List.append_nil, List.nil_append, (hRead rest).1, hBlank,
      if_neg Bool.false_ne_true]
  have hBefore : walkBefore region text =
      (Walk.start region).run (Reader.emittedOver {} lead [last]) := by
    have hAll : (Reader.readAll {} (lead ++ [last])).events.toList =
        Reader.emittedOver {} (lead ++ [last]) [] := by
      rw [Reader.isReader.readAll_eq_readOver, Reader.isReader.emittedOver_eq]
      rfl
    rw [walkBefore, proper_tokens hSplits, hAll, hEvents, List.dropLast_concat]
  -- What the words in front of the last one look for is never behind it.
  have hLead : (Walk.start region).run (Reader.emittedOver {} lead (last :: rest)) =
      walkBefore region text := by
    rw [hBefore]
    exact Walk.run_sought [] hCode fun symbol _ => by
      rw [lookAhead_plain hBlank hPlain, lookAhead_plain hBlank hPlain]
  refine ⟨?_, ?_⟩
  · rw [hEvents, Walk.run_append, hLead]
    rfl
  · rw [Reader.isReader.readOver_append]
    exact (hRead rest).2

namespace ClosesBlock

variable {lead : List Token} {last : Token}

/-- A text that closes a block ends with its `end` as a token in code. -/
theorem splits (h : ClosesBlock region pre) : ∃ lead last,
    SplitsUpTo delimiters 0 pre.toList (lead ++ [last]) true ∧ last.text = "end" ∧
      (Reader.readOver {} lead []).mode = .code := by
  obtain ⟨tokens, opened, hSplits⟩ := SplitsUpTo.total delimiters 0 pre.toList
  have hWord := h.word
  have hCode := h.code
  rw [proper_tokens hSplits] at hWord hCode
  obtain rfl | ⟨lead, last, rfl⟩ := List.eq_nil_or_concat' tokens
  · cases hWord
  rw [List.getLast?_concat, Option.map_some, Option.some_inj] at hWord
  rw [List.dropLast_concat, Reader.isReader.readAll_eq_readOver] at hCode
  obtain rfl := hSplits.opened_of_last (by rw [hWord]; decide)
  exact ⟨lead, last, hSplits, hWord, hCode⟩

/-- Behind the `end` the walk is the same whatever follows, but for the colon that it looks for. -/
theorem run_eq (h : ClosesBlock region pre)
    (hSplits : SplitsUpTo delimiters 0 pre.toList (lead ++ [last]) true) (hText : last.text = "end")
    (hCode : (Reader.readOver {} lead []).mode = .code) :
    ∃ walk : Walk, walk.IsSettled ∧ ∀ rest,
      (Walk.start region).run (Reader.emittedOver {} (lead ++ [last]) rest) =
        walk.expectLabel false (lookAhead rest) := by
  have hHere : (Lexeme.ofToken last).symbol = .keyword .end := Lexeme.symbol_ofToken hText
  have hPlain : isPlainText last.text = true := by rw [hText]; decide
  have hBlank : last.isBlank = false := by rw [Token.isBlank, hText]; rfl
  obtain ⟨walk, hSettled, hWord⟩ := Walk.readWord_end hHere h.label h.place
  refine ⟨walk, hSettled, fun rest => ?_⟩
  rw [(run_before hSplits hCode hPlain hBlank region rest).1]
  exact hWord (lookAhead rest)

end ClosesBlock

/-- What ends the last word of a text is read behind it as it is alone, but for an empty word in
front. -/
theorem tokens_append_word {first second : List Token} {opened : Bool}
    (h : SplitsUpTo delimiters 0 pre.toList first true) (hPost : EndsWord delimiters post.toList)
    (hSecond : SplitsUpTo delimiters 0 post.toList second opened) :
    (tokens none (pre ++ post)).list =
      first ++ shift pre.utf8ByteSize (second.tail ++ [.sentinel post.utf8ByteSize]) := by
  have hSize : 0 + utf8Len pre.toList = pre.utf8ByteSize := by
    rw [Nat.zero_add, String.utf8Len_toList]
  obtain ⟨opened', hBoth⟩ := h.append_word delimiters_areApart delimiters_areBroken hPost
    (hSecond.shifted (0 + utf8Len pre.toList))
  rw [← String.toList_append] at hBoth
  rw [(list_tokens hBoth).1, hSize, shift, List.map_append, List.map_tail,
    String.utf8ByteSize_append, List.append_assoc]
  rfl

/-- The label is read as blanks, a colon and a name, whose words are not reserved. -/
theorem isQuiet_label {offset : Nat} {events : List Event} (hName : isLabelName name = true)
    (hEvents : List.Forall₂ Event.IsOf (labelTokens offset name) events) (text : String) :
    ∀ event ∈ events, event.IsQuiet text := by
  have hQuiet : ∀ {token : Token} {event : Event}, (Symbol.ofText token.text).isKeyword = false →
      event.IsOf token → event.IsQuiet text := by
    intro token event hSymbol hEvent
    rw [Event.IsOf] at hEvent
    split at hEvent
    · rw [hEvent]
      exact ⟨rfl, rfl, by simp [Event.directive?]⟩
    · obtain ⟨next, rfl⟩ := hEvent
      refine ⟨?_, rfl, by simp [Event.directive?]⟩
      have hLexeme : (Lexeme.ofToken token).symbol.isKeyword = false := hSymbol
      rw [Event.keyword?, hLexeme]
      rfl
  have hWords : ∀ token ∈ labelTokens offset name,
      (Symbol.ofText token.text).isKeyword = false := by
    rw [isLabelName, isIdentifier, Bool.and_eq_true, Bool.and_eq_true, beq_iff_eq] at hName
    simp only [labelTokens, List.mem_cons, List.not_mem_nil, or_false, Token.placed,
      forall_eq_or_imp, forall_eq, String.ofList_toList]
    refine ⟨by decide, by decide, by decide, by decide, by decide, ?_⟩
    rw [hName.1.2]
    rfl
  generalize labelTokens offset name = tokens at hEvents hWords
  induction hEvents with
  | nil => simp
  | cons hEvent _ ih =>
      rw [List.forall_mem_cons] at hWords ⊢
      exact ⟨hQuiet hWords.1 hEvent, ih hWords.2⟩

/-- What is read behind the end of a word is the text that ends it, from its first delimiter on. -/
theorem rest_of_endsWord {second : List Token} {opened : Bool}
    (hPost : EndsWord delimiters post.toList)
    (hSecond : SplitsUpTo delimiters 0 post.toList second opened) :
    let rest := second.tail ++ [.sentinel post.utf8ByteSize]
    Contiguous 0 rest post.utf8ByteSize ∧ lookAhead rest = lookAhead (tokens none post).list ∧
      ∀ token ∈ rest, token ∈ (tokens none post).list := by
  intro rest
  have hAll := contiguous_tokens post
  rw [(list_tokens hSecond).1] at hAll ⊢
  rcases hSecond.cons_of_endsWord hPost with ⟨rfl, -⟩ | hCons
  · exact ⟨hAll, rfl, fun _ => id⟩
  · rw [hCons] at hAll ⊢
    obtain ⟨-, -, hTail⟩ := hAll
    exact ⟨by simpa [Token.placed] using hTail,
      (lookAhead_blank (Token.isBlank_placed 0 []) _).symm,
      fun token hMem => List.mem_cons_of_mem _ hMem⟩

/-- The tokens of a text with a label behind it are its own and those of the label. -/
theorem append_label {first : List Token} (h : SplitsUpTo delimiters 0 pre.toList first true)
    (hName : isLabelName name = true) :
    SplitsUpTo delimiters 0 (pre ++ (" : " ++ name)).toList
      (first ++ labelTokens pre.utf8ByteSize name) true := by
  have hSize : 0 + utf8Len pre.toList = pre.utf8ByteSize := by
    rw [Nat.zero_add, String.utf8Len_toList]
  have hSpace : Delimiter.takeFirst? delimiters (" : " ++ name).toList ≠ none := by
    rw [toList_label, Delimiter.takeFirst?_gap delimiters_areBroken rfl]
    exact Option.some_ne_none _
  have hLabel := splits_label hName (0 + utf8Len pre.toList)
  have hBoth :=
    h.append_joint (.of_opened delimiters_areApart delimiters_areBroken h) (fun _ => hSpace) hLabel
  rw [← String.toList_append, hSize] at hBoth
  exact hBoth

/-- The label is inserted behind the `end`, where the walk expects one. Only that word could have
seen the colon ahead. -/
theorem ClosesBlock.isInserted (h : ClosesBlock region pre) (hName : isLabelName name = true)
    (hPost : EndsWord delimiters post.toList)
    (hColon : Walk.isNext (lookAhead (tokens none post).list) .colon = false) :
    ∃ first rest, IsInserted region pre (" : " ++ name) post first
      (labelTokens pre.utf8ByteSize name) rest ∧
      ((Walk.start region).run (Reader.emittedOver {} first
        (shift (pre.utf8ByteSize + 1) rest))).place.isInClause = false := by
  obtain ⟨lead, last, hSplits, hText, hCode⟩ := h.splits
  obtain ⟨walk, hSettled, hRun⟩ := h.run_eq hSplits hText hCode
  obtain ⟨second, opened, hSecond⟩ := SplitsUpTo.total delimiters 0 post.toList
  obtain ⟨hContiguous, hAhead, hMem⟩ := rest_of_endsWord hPost hSecond
  have hMode := fun others => (run_before hSplits hCode (by rw [hText]; decide)
    (by rw [Token.isBlank, hText]; rfl) region others).2
  set rest := second.tail ++ [.sentinel post.utf8ByteSize] with hRest
  set behind := shift (pre ++ (" : " ++ name)).utf8ByteSize rest with hBehind
  have hRead := fun reader (hReader : Reader.mode reader = .code) =>
    reader.emittedOver_plain hReader (isPlainText_labelTokens hName pre.utf8ByteSize) behind
  refine ⟨lead ++ [last], rest,
    { list := tokens_append_word hSplits hPost hSecond
      list_inserted := tokens_append_word (append_label hSplits hName) hPost hSecond
      front := by
        have hFront := hSplits.contiguous
        rwa [Nat.zero_add, String.utf8Len_toList] at hFront
      back := hContiguous
      sized := List.forall_mem_append.2 ⟨fun token hToken _ => stop_eq_of_mem hSplits token hToken,
        fun token hToken => stop_eq_of_mem_tokens post token (hMem token hToken)⟩
      code := hMode []
      code_inserted := fun reader hReader => (hRead reader hReader).2
      quiet := fun reader hReader => isQuiet_label hName (hRead reader hReader).1 _
      walk := ?_ }, ?_⟩
  · show Walk.run _ (Reader.emittedOver _ (labelTokens pre.utf8ByteSize name) behind) = _
    -- The `end` sees the colon of the label with it, and what follows without it: that is no colon.
    have hNone : Walk.isNext (lookAhead behind) .colon = false := by
      rw [hBehind, lookAhead_shift, isNext_moved, hAhead, hColon]
    have hSome : Walk.isNext (some (.ofToken (.placed (pre.utf8ByteSize + 1) [':']))) .colon =
        true := rfl
    rw [hRun, hRun, lookAhead_label, Walk.expectLabel, if_pos hSome, Walk.expectLabel, hNone,
      if_neg Bool.false_ne_true]
    exact hSettled.run_label hName (hRead _ (hMode _)).1
  · rw [hRun, Walk.place_expectLabel]
    exact hSettled.apart

/-- The label of a block changes the places of a table only. -/
theorem scan_closingLabel (hPre : ClosesBlock region pre) (hName : isLabelName name = true)
    (hPost : EndsWord delimiters post.toList)
    (hColon : Walk.isNext (lookAhead (tokens none post).list) .colon = false) :
    (scan region none (pre ++ (" : " ++ name) ++ post)).table.unplaced =
      (scan region none (pre ++ post)).table.unplaced := by
  obtain ⟨first, rest, hInserted, hPlace⟩ := hPre.isInserted hName hPost hColon
  exact hInserted.scan.2 (hInserted.clause_isBeside hPlace)

/-- A label behind the `end` of a block inside of another one. -/
theorem scan_closingLabel_nested :
    let pre := "module m; always @* begin if (a) begin q = d; end"
    let post := " else q = c; end wire w; endmodule"
    (ClosesBlock .moduleContext pre ∧ EndsWord delimiters post.toList ∧
      Walk.isNext (lookAhead (tokens none post).list) .colon = false) ∧
      (scan .moduleContext none (pre ++ (" : " ++ "load") ++ post)).table.unplaced =
        (scan .moduleContext none (pre ++ post)).table.unplaced := by
  intro pre post
  have hPre : ClosesBlock .moduleContext pre := by
    constructor
    case label | place => rw [walkBefore, tokens_computed]; decide +kernel
    all_goals rw [tokens_computed]; decide +kernel
  have hPost : EndsWord delimiters post.toList := .inr (by decide)
  have hColon : Walk.isNext (lookAhead (tokens none post).list) .colon = false := by decide +kernel
  exact ⟨⟨hPre, hPost, hColon⟩, scan_closingLabel hPre (by decide) hPost hColon⟩

/-- Behind the `end` of a whole always block, and behind `endfunction` and `endtask`, no label is
expected: the colon begins a statement that is passed over, and the item that follows is a part of
it. -/
theorem scan_closingLabel_outermost :
    (scan .moduleContext none "module m; initial begin end : b wire w; endmodule").table.unplaced ≠
        (scan .moduleContext none "module m; initial begin end wire w; endmodule").table.unplaced ∧
      (scan .moduleContext none "module m; task t; endtask : t wire w; endmodule").table.unplaced ≠
        (scan .moduleContext none
          "module m; task t; endtask wire w; endmodule").table.unplaced := by
  simp only [scan_computed]
  exact ⟨by decide +kernel, by decide +kernel⟩

end Inserting

end HdlIndex.Verilog

import HdlIndex.Proofs.Verilog.Insertion

/-! What a walk looks for ahead. Only a few words look at the word behind them, and each one
compares it with one or two others. So words in front of a place are walked through alike whatever
stands behind it, as long as what the last of them looks for stands there in both cases or in
none. -/
namespace HdlIndex.Verilog

/-- The word that is ahead in front of tokens. -/
def lookAhead (tokens : List Token) : Option Lexeme :=
  (Token.nextSignificant comments none tokens).map .ofToken

theorem lookAhead_blank {token : Token} (hBlank : token.isBlank = true) (rest : List Token) :
    lookAhead (token :: rest) = lookAhead rest := by
  rw [lookAhead, lookAhead, Token.nextSignificant, if_pos hBlank]

theorem lookAhead_shift (offset : Nat) (tokens : List Token) :
    lookAhead (shift offset tokens) = (lookAhead tokens).map (·.moved (offset + ·)) := by
  rw [lookAhead, shift, Token.nextSignificant_moved, lookAhead, Option.map_map, Option.map_map]
  rfl

/-- What a word of a block's statements compares the word behind it with. -/
def Block.seeks (block : Block) (here : Lexeme) : List Symbol :=
  if here.symbol.isOpener || here.symbol.isCloser || 0 < block.depth then []
  else match here.symbol with
    | .semicolon => if block.nest = 0 then [.keyword .else] else []
    | .keyword .begin | .keyword .fork => [.colon]
    | .keyword .end | .keyword .join | .keyword .joinAny | .keyword .joinNone | .keyword .endcase =>
      if block.nest - 1 = 0 then [.keyword .else] else [.colon]
    | _ => []

namespace Walk

/-- What a word between the items of a module's body compares the word behind it with. -/
def seeksItem (walk : Walk) (here : Lexeme) : List Symbol :=
  if walk.awaitsChoice && ! isBlockWord here.symbol then []
  else match here.symbol with
    | .keyword .begin | .keyword .end => [.colon]
    | .keyword .else => [.keyword .if, .keyword .begin]
    | _ => []

/-- What a word compares the word behind it with. -/
def seeks (walk : Walk) (here : Lexeme) : List Symbol :=
  if (walk.readLabel? here).isSome then []
  else match walk.place with
    | .moduleBody => walk.seeksItem here
    | .importClause _ => if here.symbol.isWord then [.scope] else []
    | .generateHeader _ depth _ =>
      if here.symbol = .parenClose && depth = 1 then [.keyword .begin] else []
    | .alwaysHeader process => if here.symbol = .event then [] else Block.seeks { process } here
    | .alwaysBlock _ block => block.seeks here
    | _ => []

/-- What the last word in front of an event looks for behind the event, if that is known of the
place in front of the event. -/
def seeksBehind (walk : Walk) (symbols : List Symbol) : Event → List Symbol
  | .comment _ => symbols
  | .filler token => if token.isBlank then symbols else []
  | .word here _ => walk.seeks here
  | .directive _ | .ended _ => []

/-- What the last word of a reading looks for behind it. It is nothing if the word sees a string or
a directive instead. -/
def sought (walk : Walk) : List Event → List Symbol → List Symbol
  | [], symbols => symbols
  | event :: events, symbols => (walk.step event).sought events (walk.seeksBehind symbols event)

variable {walk : Walk} {here : Lexeme} {next next' : Option Lexeme} {home : Home} {block : Block}
  {clocked : Bool} {kind : GenerateKind} {depth : Nat} {expr : Capture} {process : HdlProcess}

section Words

theorem expectLabel_seeks (recorded : Bool) (h : isNext next .colon = isNext next' .colon) :
    walk.expectLabel recorded next = walk.expectLabel recorded next' := by
  rw [expectLabel, expectLabel, h]

theorem enterFrame_seeks (condition otherwise : String)
    (h : isNext next (.keyword .begin) = isNext next' (.keyword .begin)) :
    walk.enterFrame condition otherwise next = walk.enterFrame condition otherwise next' := by
  rw [enterFrame, enterFrame, h]

theorem endStatement_seeks (h : isNext next (.keyword .else) = isNext next' (.keyword .else)) :
    walk.endStatement clocked block here next = walk.endStatement clocked block here next' := by
  rw [endStatement, endStatement, h]

/-- Whether an import is scoped is all that it looks ahead for. -/
theorem readImport_seeks
    (h : here.symbol.isWord = true → isNext next .scope = isNext next' .scope) :
    walk.readImport home here next = walk.readImport home here next' := by
  rw [readImport, readImport]
  split
  · rfl
  · next hSymbol => rw [h (by rw [hSymbol]; rfl)]
  · next hSymbol => rw [h (by rw [hSymbol]; rfl)]
  · rfl

/-- Between items only the symbols of `seeksItem` are compared with the next word. -/
theorem readItem_seeks
    (h : ∀ symbol ∈ walk.seeksItem here, isNext next symbol = isNext next' symbol) :
    walk.readItem here next = walk.readItem here next' := by
  rw [seeksItem] at h
  rw [readItem, readItem]
  split
  · rfl
  rw [if_neg ‹_›] at h
  split
  · rfl
  · next word hSymbol =>
    rw [hSymbol] at h
    unfold readItemKeyword
    split
    · exact expectLabel_seeks true (h .colon (by simp))
    · exact expectLabel_seeks false (h .colon (by simp))
    case h_24 =>
      rw [readElse, readElse, h (.keyword .if) (by simp)]
      dsimp only
      rw [enterFrame_seeks _ _ (h (.keyword .begin) (by simp))]
    all_goals rfl
  · rfl
  · rfl

/-- Behind its closing parenthesis a generate header looks for `begin`, and elsewhere for
nothing. -/
theorem readGenerate_seeks
    (h : here.symbol = .parenClose → depth = 1 →
      isNext next (.keyword .begin) = isNext next' (.keyword .begin)) :
    walk.readGenerate kind depth expr here next = walk.readGenerate kind depth expr here next' := by
  unfold readGenerate
  dsimp only
  split
  · rfl
  split
  · rfl
  split
  · next hClose =>
    rw [Bool.and_eq_true, decide_eq_true_iff, decide_eq_true_iff] at hClose
    have hBegin := h hClose.1 hClose.2
    unfold enterGenerate
    cases kind with
    | «if» => dsimp only; rw [enterFrame_seeks _ _ hBegin]
    | «for» => dsimp only; rw [enterFrame_seeks _ _ hBegin]
    | case => rfl
  · rfl

/-- In a block only the symbols of `seeks` are looked for, so that any other next word would do as
well. -/
theorem readBlock_seeks
    (h : ∀ symbol ∈ block.seeks here, isNext next symbol = isNext next' symbol) :
    walk.readBlock clocked block here next = walk.readBlock clocked block here next' := by
  rw [Block.seeks] at h
  unfold readBlock
  dsimp only
  split
  · rfl
  split
  · rfl
  split
  · rfl
  rw [if_neg (by simp_all)] at h
  split
  · next hSymbol =>
    rw [hSymbol] at h
    split
    · next hNest => exact endStatement_seeks (h _ (by simp [hNest]))
    · rfl
  · next word hSymbol =>
    rw [hSymbol] at h
    unfold readBlockKeyword
    dsimp only
    split
    case h_1 => exact expectLabel_seeks true (h .colon (by simp))
    case h_2 => exact expectLabel_seeks true (h .colon (by simp))
    case h_9 =>
      split
      · rfl
      split
      · next hClose =>
        unfold isBlockClose at hClose
        split at hClose
        case h_6 => cases hClose
        all_goals
          split
          · next hNest => exact endStatement_seeks (h _ (by simp [hNest]))
          · next hNest => exact expectLabel_seeks false (h _ (by simp [hNest]))
      · rfl
    all_goals rfl
  all_goals rfl

/-- A word is read alike in front of two words if the one that it looks for is neither of them or
both. -/
theorem readWord_seeks (h : ∀ symbol ∈ walk.seeks here, isNext next symbol = isNext next' symbol) :
    walk.readWord here next = walk.readWord here next' := by
  rw [seeks] at h
  rw [readWord, readWord]
  cases hLabel : walk.readLabel? here with
  | some labelled => rfl
  | none =>
      rw [hLabel, Option.isSome_none, if_neg Bool.false_ne_true] at h
      have hAwaits : ∀ walk' : Walk, walk'.frames = walk.frames → walk'.blocks = walk.blocks →
          walk'.seeksItem here = walk.seeksItem here := by
        intro walk' hFrames hBlocks
        have hSame : walk'.awaitsChoice = walk.awaitsChoice := by
          rw [awaitsChoice, awaitsChoice, hFrames, hBlocks]
        rw [seeksItem, seeksItem, hSame]
      dsimp only
      set other :=
        ({ walk with label := .idle }.note (.visited walk.place.region.name here.text)) with hOther
      have hPlace : other.place = walk.place := rfl
      rw [read, read, hPlace]
      cases hCase : walk.place with
      | moduleBody =>
          rw [hCase] at h
          refine readItem_seeks ?_
          rwa [hAwaits other rfl rfl]
      | importClause home =>
          rw [hCase] at h
          exact readImport_seeks fun hWord => h .scope (by simp [hWord])
      | generateHeader kind depth expr =>
          rw [hCase] at h
          exact readGenerate_seeks fun hClose hDepth => h _ (by simp [hClose, hDepth])
      | alwaysHeader process =>
          rw [hCase] at h
          dsimp only at h ⊢
          rw [readAlwaysHeader, readAlwaysHeader]
          split
          · rfl
          · next hEvent =>
            rw [if_neg hEvent] at h
            exact readBlock_seeks h
      | alwaysBlock clocked block =>
          rw [hCase] at h
          exact readBlock_seeks h
      | _ => rfl

end Words

section Runs

variable {reader reader' : Reader} {token : Token} {tokens rest rest' : List Token}
  {symbols : List Symbol} {events : List Event} {closer after : Option String}

/-- What is sought over a run is what is sought over its parts. -/
theorem sought_append (events others : List Event) :
    walk.sought (events ++ others) symbols =
      (walk.run events).sought others (walk.sought events symbols) := by
  induction events generalizing walk symbols with
  | nil => rfl
  | cons event events ih => exact ih

/-- Through layout the same is looked for. -/
theorem sought_layout (h : ∀ event ∈ events, event.IsLayout) :
    walk.sought events symbols = symbols := by
  induction events generalizing walk with
  | nil => rfl
  | cons event events ih =>
      rw [List.forall_mem_cons] at h
      rw [sought]
      have hHere : walk.seeksBehind symbols event = symbols := by
        cases event with
        | comment span => rfl
        | filler token => exact if_pos h.1
        | _ => exact h.1.elim
      rw [hHere]
      exact ih h.2

end Runs

end Walk

section Readers

variable {reader reader' : Reader} {token : Token} {tokens rest rest' : List Token}
  {closer after : Option String}

theorem Reader.emittedOver_congr (h : reader'.forget = reader.forget) (tokens rest : List Token) :
    reader'.emittedOver tokens rest = reader.emittedOver tokens rest := by
  rw [isReader.emittedOver_eq, isReader.emittedOver_eq, h]

/-- Layout is the same whatever stands behind it. -/
theorem Reader.emittedOver_layout (hMode : reader.mode.resumes? = some closer)
    (hPass : Token.passOver comments closer tokens = some after) (rest rest' : List Token) :
    reader.emittedOver tokens rest' = reader.emittedOver tokens rest := by
  have hAhead : ∀ rest, (reader.emittedOver tokens rest).map (·.ahead none) =
      reader.emittedOver tokens rest := by
    intro rest
    have hLayout := (reader.readOver_of_passOver rest hMode hPass).2
    refine (List.map_congr_left fun event hMem => ?_).trans (List.map_id _)
    have hEvent := hLayout event hMem
    cases event <;> first
      | rfl
      | exact hEvent.elim
  rw [← hAhead rest', ← hAhead rest, reader.emittedOver_ahead tokens rest rest']

theorem Reader.forget_read_ahead (reader : Reader) (token : Token)
    (tokens rest rest' : List Token) :
    (reader.read token (tokens ++ rest')).forget = (reader.read token (tokens ++ rest)).forget :=
  reader.forget_readOver_ahead [token] (tokens ++ rest) (tokens ++ rest')

/-- Where the first token is taken alike in front of all tokens, the others decide. -/
theorem Walk.run_cons_alike {walk : Walk}
    (hEmitted : ∀ rest, reader.emitted token (tokens ++ rest) =
      reader.emitted token (tokens ++ []))
    (hRest : (walk.run (reader.emitted token (tokens ++ []))).run
        ((reader.read token (tokens ++ [])).emittedOver tokens rest') =
      (walk.run (reader.emitted token (tokens ++ []))).run
        ((reader.read token (tokens ++ [])).emittedOver tokens rest)) :
    walk.run (reader.emittedOver (token :: tokens) rest') =
      walk.run (reader.emittedOver (token :: tokens) rest) := by
  rw [Reader.emittedOver, Reader.emittedOver, run_append, run_append, hEmitted, hEmitted rest,
    Reader.emittedOver_congr (reader.forget_read_ahead token tokens [] rest'),
    Reader.emittedOver_congr (reader.forget_read_ahead token tokens [] rest)]
  exact hRest

/-- The last word in front of layout is read alike where what it looks for is seen alike behind the
layout. -/
theorem Walk.run_word_layout {walk : Walk} (symbols : List Symbol)
    (hEmitted : ∀ rest, reader.emitted token (tokens ++ rest) =
      [.word (.ofToken token)
        ((Token.nextSignificant comments none (tokens ++ rest)).map .ofToken)])
    (hAfter : (reader.read token (tokens ++ [])).mode = .code)
    (hPass : Token.passOver comments none tokens = some none)
    (h : ∀ symbol ∈ walk.sought (reader.emittedOver (token :: tokens) []) symbols,
      isNext (lookAhead rest) symbol = isNext (lookAhead rest') symbol) :
    walk.run (reader.emittedOver (token :: tokens) rest') =
      walk.run (reader.emittedOver (token :: tokens) rest) := by
  have hResumes : (reader.read token (tokens ++ [])).mode.resumes? = some none := by
    rw [hAfter]
    rfl
  have hLayout := (Reader.readOver_of_passOver [] hResumes hPass).2
  rw [Reader.emittedOver, hEmitted, List.singleton_append, sought, sought_layout hLayout] at h
  have hNext : ∀ rest, (Token.nextSignificant comments none (tokens ++ rest)).map .ofToken =
      lookAhead rest := by
    intro rest
    rw [Token.nextSignificant_append_of_passOver hPass]
    rfl
  have hSame := Reader.emittedOver_layout hResumes hPass
  rw [Reader.emittedOver, Reader.emittedOver, run_append, run_append, hEmitted rest,
    hEmitted rest', hNext rest, hNext rest',
    Reader.emittedOver_congr (reader.forget_read_ahead token tokens [] rest'),
    Reader.emittedOver_congr (reader.forget_read_ahead token tokens [] rest), hSame rest rest']
  have hWord : walk.readWord (.ofToken token) (lookAhead rest') =
      walk.readWord (.ofToken token) (lookAhead rest) :=
    readWord_seeks fun symbol hMem => (h symbol hMem).symm
  exact congrArg (Walk.run · _) hWord

/-- Words are walked through alike in front of tokens that begin alike for what the last word looks
for. -/
theorem Walk.run_sought {walk : Walk} (symbols : List Symbol)
    (hCode : (reader.readOver tokens []).mode = .code)
    (h : ∀ symbol ∈ walk.sought (reader.emittedOver tokens []) symbols,
      isNext (lookAhead rest) symbol = isNext (lookAhead rest') symbol) :
    walk.run (reader.emittedOver tokens rest') = walk.run (reader.emittedOver tokens rest) := by
  induction tokens generalizing walk reader symbols with
  | nil => rfl
  | cons token tokens ih =>
      have hOthers := h
      rw [Reader.emittedOver, sought_append] at hOthers
      have hRest := ih _ hCode hOthers
      have hTakes := reader.takes token (tokens ++ [])
      have hAhead := fun rest => reader.emitted_ahead token (tokens ++ []) (tokens ++ rest)
      generalize hEvents : reader.emitted token (tokens ++ []) = events at hTakes
      cases hTakes with
      | word hMode hBlank hSentinel hAfter =>
          simp only [hEvents] at hAhead
          cases hPass : Token.passOver comments none tokens with
          | none =>
              refine run_cons_alike (fun rest => ?_) hRest
              rw [hAhead rest, hEvents, Token.nextSignificant_append_of_not_passOver hPass rest,
                Token.nextSignificant_append_of_not_passOver hPass []]
              rfl
          | some after =>
              have hResumes : (reader.read token (tokens ++ [])).mode.resumes? = some none := by
                rw [hAfter]
                rfl
              have hEnd := (Reader.readOver_of_passOver [] hResumes hPass).1
              have hMode : ((reader.read token (tokens ++ [])).readOver tokens []).mode = .code :=
                hCode
              rw [hMode] at hEnd
              obtain rfl := Option.some.inj hEnd
              exact run_word_layout symbols hAhead hAfter hPass h
      | _ =>
          refine run_cons_alike (fun rest => ?_) hRest
          have hOther := hAhead rest
          rw [hEvents] at hOther
          exact hOther.trans hEvents.symm

end Readers

end HdlIndex.Verilog

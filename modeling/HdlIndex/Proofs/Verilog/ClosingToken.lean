import HdlIndex.Proofs.Computed
import HdlIndex.Proofs.Verilog.ItemText
import HdlIndex.Proofs.Verilog.Seeking

/-! The token that closes the list of a text. Nothing looks for it ahead, and what is under way
where the text ends is recorded alike whether it is met there or not. Only inside of a string it is
taken for a part of the text: a value or a range that is collected there goes on with it. -/
namespace HdlIndex.Verilog

/-- The tokens of a text without a sentinel. An empty delimiter closes a last word, and nothing
closes a text that is empty or ends in a delimiter. -/
def openTokens (text : String) : Tokens := tokenize delimiters none false text

/-- The range or the value of a name is being collected. -/
def Item.isCollecting (item : Item) : Bool := item.expr.active && item.name.isSome

/-- What is collected here is recorded where the text ends. -/
def Place.isCollecting : Place → Bool
  | .parameterList _ _ item | .portList _ item | .declaration item => item.isCollecting
  | _ => false

section Ahead

variable {walk : Walk} {here : Lexeme} {reader : Reader} {tokens rest : List Token}
  {symbol : Symbol}

/-- No word looks for a name. -/
theorem Walk.ne_name_of_mem_seeks (h : symbol ∈ walk.seeks here) : symbol ≠ .name := by
  have hBlock : ∀ block : Block, symbol ∈ block.seeks here → symbol ≠ .name := by
    intro block hMem
    rw [Block.seeks] at hMem
    repeat' split at hMem
    all_goals simp_all
  rw [seeks] at h
  split at h
  · simp at h
  split at h
  case h_1 =>
    rw [seeksItem] at h
    repeat' split at h
    all_goals first
      | (rintro rfl; simp at h)
  case h_4 =>
    split at h
    · simp at h
    · exact hBlock _ h
  case h_5 => exact hBlock _ h
  all_goals
    repeat' split at h
    all_goals (rintro rfl; simp at h)

/-- Nothing of these tokens is seen ahead, unless it is a name. -/
def IsUnseen (rest : List Token) : Prop :=
  ∀ closer symbol, symbol ≠ Symbol.name →
    Walk.isNext ((Token.nextSignificant comments closer rest).map .ofToken) symbol = false

theorem isUnseen_nil : IsUnseen [] := by
  intro closer symbol _
  cases closer <;> rfl

/-- The sentinel is seen as a name. -/
theorem isUnseen_sentinel (offset : Nat) : IsUnseen [.sentinel offset] := by
  intro closer symbol hSymbol
  cases closer with
  | some closer =>
      rw [Token.nextSignificant]
      exact isUnseen_nil _ symbol hSymbol
  | none =>
      have hName : Symbol.ofText Token.sentinelText = .name := by decide
      rw [nextSignificant_sentinel]
      simpa [Walk.isNext, Lexeme.ofToken, Token.sentinel, hName] using Ne.symm hSymbol

/-- The empty delimiter is passed over. -/
theorem isUnseen_closing (closed opened : Bool) (offset : Nat) :
    IsUnseen (SplitsUpTo.closing closed opened offset) := by
  rw [SplitsUpTo.closing]
  split
  · rintro (_ | closer) symbol -
    all_goals rfl
  · exact isUnseen_nil

/-- So tokens in front of them see what they see alone. -/
theorem IsUnseen.append (h : IsUnseen rest) (tokens : List Token) (hSymbol : symbol ≠ .name) :
    Walk.isNext (lookAhead (tokens ++ rest)) symbol = Walk.isNext (lookAhead tokens) symbol := by
  conv_rhs => rw [← List.append_nil tokens]
  rw [lookAhead, lookAhead]
  cases hPass : Token.passOver comments none tokens with
  | none =>
      rw [Token.nextSignificant_append_of_not_passOver hPass,
        Token.nextSignificant_append_of_not_passOver hPass []]
  | some after =>
      rw [Token.nextSignificant_append_of_passOver hPass,
        Token.nextSignificant_append_of_passOver hPass, h after symbol hSymbol,
        isUnseen_nil after symbol hSymbol]

/-- And they are walked through alike. -/
theorem Walk.run_unseen (h : IsUnseen rest) (tokens : List Token) :
    walk.run (reader.emittedOver tokens rest) = walk.run (reader.emittedOver tokens []) := by
  induction tokens generalizing walk reader with
  | nil => rfl
  | cons token tokens ih =>
      have hForget : ∀ rest rest', (reader.read token (tokens ++ rest')).forget =
          (reader.read token (tokens ++ rest)).forget := fun rest rest' =>
        reader.forget_readOver_ahead [token] (tokens ++ rest) (tokens ++ rest')
      have hToken : walk.run (reader.emitted token (tokens ++ rest)) =
          walk.run (reader.emitted token (tokens ++ [])) := by
        have hTakes := reader.takes token (tokens ++ [])
        rw [reader.emitted_ahead token (tokens ++ []) (tokens ++ rest)]
        generalize reader.emitted token (tokens ++ []) = events at hTakes
        cases hTakes with
        | word hMode hBlank hSentinel hAfter =>
            show walk.readWord (.ofToken token) (lookAhead (tokens ++ rest)) =
              walk.readWord (.ofToken token) (lookAhead (tokens ++ []))
            refine readWord_seeks fun symbol hMem => ?_
            rw [List.append_nil]
            exact h.append tokens (ne_name_of_mem_seeks hMem)
        | _ => rfl
      rw [Reader.emittedOver, Reader.emittedOver, run_append, run_append, hToken,
        Reader.emittedOver_congr (hForget [] rest), ih]

end Ahead

section Ends

variable {walk : Walk} {reader : Reader} {size : Nat}

/-- What is recorded at the end of a text is recorded once, whether the end is met as a token or
not. -/
theorem Walk.finish_flushAt (walk : Walk) (size : Nat) :
    (walk.flushAt size).finish size = walk.finish size := by
  have hTwice : (walk.flushAt size).flushAt size = walk.flushAt size := by
    cases hPlace : walk.place with
    | parameterList owner inside item => cases owner <;> simp only [flushAt, hPlace] <;> rfl
    | portList owner item => cases owner <;> simp only [flushAt, hPlace] <;> rfl
    | _ => simp only [flushAt, hPlace] <;> rfl
  rw [finish, hTwice, finish]

/-- What the end of a text of `size` bytes makes of a comment or a directive that is open. -/
def Mode.ending (size : Nat) : Mode → List Event
  | .lineComment start | .blockComment start => [.comment ⟨start, size⟩]
  | .directive start => [.directive ⟨start, size⟩]
  | .code | .string => []

/-- What the sentinel makes by itself. -/
def Mode.sentinelEvents (size : Nat) : Mode → List Event
  | .code => [.ended size]
  | .string => [.filler (.sentinel size)]
  | .lineComment _ | .blockComment _ | .directive _ => []

theorem Reader.upcoming_nil (reader : Reader) (size : Nat) :
    reader.upcoming size [] = reader.mode.ending size := by
  have hForget : reader.forget.mode = reader.mode := rfl
  rw [upcoming, readAll, finish, hForget]
  cases reader.mode <;> rfl

/-- The sentinel ends a directive as the end of the text does, and is no part of a comment. -/
theorem Reader.upcoming_sentinelEvents (reader : Reader) (size : Nat) :
    reader.upcoming size [.sentinel size] =
      reader.mode.sentinelEvents size ++ reader.mode.ending size := by
  have hSentinel := Token.isSentinel_sentinel size
  have hText : (Token.sentinel size).text ≠ "\n" ∧ (Token.sentinel size).text ≠ "*/" ∧
      (Token.sentinel size).text ≠ "\"" :=
    (by decide : Token.sentinelText ≠ "\n" ∧ Token.sentinelText ≠ "*/" ∧ Token.sentinelText ≠ "\"")
  have hForget : reader.forget.mode = reader.mode := rfl
  cases hMode : reader.mode with
  | code => exact upcoming_sentinel hMode size size
  | _ =>
      rw [isReader.upcoming_eq, upcoming_nil, emitted, read, read, hForget, hMode]
      simp [hText, hSentinel, hMode, forget, emit, Mode.sentinelEvents, Mode.ending] <;> rfl

/-- An empty delimiter in its stead makes an empty filler or nothing, and leaves the reader where it
is. -/
theorem Reader.upcoming_closing (reader : Reader) (closed opened : Bool) (size : Nat) :
    (reader.readAll (SplitsUpTo.closing closed opened size)).mode = reader.mode ∧
    ∃ fillers : List Token, (∀ token ∈ fillers, token.isEmpty = true) ∧
      reader.upcoming size (SplitsUpTo.closing closed opened size) =
        fillers.map Event.filler ++ reader.mode.ending size := by
  rw [SplitsUpTo.closing]
  split
  · have hForget : reader.forget.mode = reader.mode := rfl
    have hText : (Token.placed size []).text = "" := rfl
    have hOwn : (Token.placed size []).isSentinel = false := by
      simp [Token.isSentinel, hText, Token.sentinelText]
    have hEmpty : (Token.placed size []).isEmpty = true := rfl
    rw [isReader.upcoming_eq, upcoming_nil, emitted, readAll, readAll, read, read, hForget]
    cases hMode : reader.mode with
    | code =>
        rw [readCode_blank rfl, readCode_blank rfl]
        exact ⟨hMode,
          [.placed size []], by simp [hEmpty], by simp [emit, forget, hMode, Mode.ending]⟩
    | string => exact ⟨by simp [hText], [.placed size []], by simp [hEmpty], rfl⟩
    | _ =>
        simp only [hText, hOwn]
        exact ⟨hMode, [], by simp, congrArg (Mode.ending size) hMode⟩
  · exact ⟨rfl, [], by simp, upcoming_nil reader size⟩

/-- Empty fillers leave a walk where it stands. -/
theorem Walk.run_fillers {fillers : List Token} (h : ∀ token ∈ fillers, token.isEmpty = true) :
    walk.run (fillers.map .filler) = walk := by
  induction fillers with
  | nil => rfl
  | cons token fillers ih =>
      rw [List.forall_mem_cons] at h
      have hStep : walk.step (.filler token) = walk :=
        congrArg walk.goto (Place.absorb_of_isEmpty h.1)
      rw [List.map_cons, run, List.foldl_cons, hStep]
      exact ih h.2

theorem Walk.run_ending (walk : Walk) (mode : Mode) (size : Nat) :
    walk.run (mode.ending size) = walk := by
  cases mode <;> rfl

/-- What a string that is not closed adds in front of the end of a text of `size` bytes. -/
def Walk.absorbEnd (walk : Walk) (mode : Mode) (size : Nat) : Walk :=
  if mode = .string then walk.goto (walk.place.absorb (.sentinel size)) else walk

/-- The sentinel ends a walk as the end of the text does, but for a string. -/
theorem Walk.finish_sentinelEvents (walk : Walk) (mode : Mode) (size : Nat) :
    (walk.run (mode.sentinelEvents size ++ mode.ending size)).finish size =
      (walk.absorbEnd mode size).finish size := by
  rw [run_append, run_ending]
  cases mode with
  | code => exact walk.finish_flushAt size
  | _ => rfl

/-- Where nothing is collected, what a string adds does not show. -/
theorem Walk.finish_absorbEnd {mode : Mode} (h : mode = .string → walk.place.isCollecting = false)
    (size : Nat) : ((walk.absorbEnd mode size).finish size).found = (walk.finish size).found := by
  rw [absorbEnd]
  split
  case isFalse => rfl
  next hMode =>
  have hPlace := h hMode
  have hItem : ∀ item : Item, item.isCollecting = false → ∀ found,
      declare found { item with expr := item.expr.absorb (.sentinel size) } =
        declare found item := by
    intro item hIdle found
    rw [Item.isCollecting, Bool.and_eq_false_iff] at hIdle
    rcases hIdle with hIdle | hName
    · rw [Capture.absorb, hIdle]
      rfl
    · rw [Option.isSome_eq_false_iff, Option.isNone_iff_eq_none] at hName
      rw [declare, declare, hName]
  cases hCase : walk.place with
  | parameterList owner inside item =>
      rw [hCase] at hPlace
      have hFound := hItem item hPlace walk.found
      cases owner <;> simp [finish, flushAt, goto, Place.absorb, hCase, closeParameters,
        flush, collect, Owner.place, Place.process?, hFound]
  | portList owner item =>
      rw [hCase] at hPlace
      have hFound := hItem item hPlace walk.found
      cases owner <;> simp [finish, flushAt, goto, Place.absorb, hCase, flush, collect, Owner.place,
        Place.process?, hFound]
  | declaration item =>
      rw [hCase] at hPlace
      have hFound := hItem item hPlace walk.found
      simp [finish, flushAt, goto, Place.absorb, hCase, flush, collect, Place.process?, hFound]
  | generateHeader kind depth expr =>
      simp [finish, flushAt, goto, Place.absorb, hCase, Place.process?]
  | generateChoice depth expr => simp [finish, flushAt, goto, Place.absorb, hCase, Place.process?]
  | _ => rw [Place.absorb, goto, ← hCase] <;> simp

end Ends

section Tables

variable {region : Region} {text : String} {events events' : List Event} {walk walk' : Walk}

/-- A table is made of what the walk has found, and of the comments, directives and reserved words
that were read. -/
theorem tabulate_congr
    (hKeywords : events.filterMap Event.keyword? = events'.filterMap Event.keyword?)
    (hComments : events.filterMap Event.comment? = events'.filterMap Event.comment?)
    (hDirectives : events.filterMap Event.directive? = events'.filterMap Event.directive?)
    (hFound : walk.found = walk'.found) (hFrames : walk.frames = walk'.frames) (scanned : Nat) :
    tabulate text events scanned walk = tabulate text events' scanned walk' := by
  rw [tabulate, tabulate, diagnose, diagnose, hKeywords, hComments, hDirectives, hFound, hFrames]

/-- What the table takes from the closing token, or from the end of the text, is the comment or the
directive that is open there. -/
theorem filterMap_sentinelEvents {take : Event → Option Span} (mode : Mode) (size : Nat)
    (hEnded : take (.ended size) = none) (hFiller : ∀ token, take (.filler token) = none)
    (fillers : List Token) :
    (mode.sentinelEvents size ++ mode.ending size).filterMap take =
      (fillers.map Event.filler ++ mode.ending size).filterMap take := by
  have hFillers : (fillers.map Event.filler).filterMap take = [] := by
    rw [List.filterMap_map, List.filterMap_eq_nil_iff]
    exact fun token _ => hFiller token
  rw [List.filterMap_append, List.filterMap_append, hFillers]
  cases mode <;> simp [Mode.sentinelEvents, hEnded, hFiller]

/-- Tokens in front of others are read alike whatever these are, but for the word that is ahead. -/
theorem readEvents_append (size : Nat) (front rest : List Token) :
    readEvents size (front ++ rest) =
      Reader.emittedOver {} front rest ++ (Reader.readOver {} front []).upcoming size rest := by
  rw [readEvents_eq_upcoming, Reader.isReader.upcoming_append, ← Reader.isReader.upcoming_forget,
    Reader.forget_readOver_ahead {} front [] rest, Reader.isReader.upcoming_forget]

section Closing

variable (front : List Token) (opened : Bool) (size : Nat)

/-- What closes a list without a sentinel leaves the reader in its mode. -/
theorem mode_readAll_closing :
    (Reader.readAll {} (front ++ SplitsUpTo.closing false opened size)).mode =
      (Reader.readOver {} front []).mode := by
  set near := Reader.readOver {} front []
  have hForget : (Reader.readAll {} (front ++ SplitsUpTo.closing false opened size)).forget =
      (near.readAll (SplitsUpTo.closing false opened size)).forget := by
    rw [Reader.isReader.readAll_eq_readOver, Reader.isReader.readOver_append,
      ← Reader.isReader.forget_readOver, Reader.forget_readOver_ahead {} front [] _,
      Reader.isReader.forget_readOver, ← Reader.isReader.readAll_eq_readOver]
  exact (congrArg Reader.mode hForget).trans (near.upcoming_closing false opened size).1

/-- To a walk what closes a list without a sentinel is nothing. -/
theorem Walk.run_readAll_closing (walk : Walk) :
    walk.run (Reader.readAll {} (front ++ SplitsUpTo.closing false opened size)).events.toList =
      walk.run (Reader.emittedOver {} front []) := by
  obtain ⟨-, fillers, hFillers, hClosing⟩ :=
    (Reader.readOver {} front []).upcoming_closing false opened size
  rw [← Walk.run_finish _ _ size]
  show Walk.run _ (readEvents size _) = _
  rw [readEvents_append, hClosing, Walk.run_append, Walk.run_append, Walk.run_ending,
    Walk.run_fillers hFillers, Walk.run_unseen (isUnseen_closing _ _ _)]

/-- Comments, directive lines and reserved words are those of the list without a sentinel. -/
theorem filterMap_readEvents_sentinel {take : Event → Option Span}
    (hEnded : take (.ended size) = none) (hFiller : ∀ token, take (.filler token) = none)
    (hAhead : ∀ event : Event, take (event.ahead none) = take event) :
    (readEvents size (front ++ [.sentinel size])).filterMap take =
      (readEvents size (front ++ SplitsUpTo.closing false opened size)).filterMap take := by
  obtain ⟨-, fillers, -, hClosing⟩ :=
    (Reader.readOver {} front []).upcoming_closing false opened size
  have hEnd :=
    filterMap_sentinelEvents (Reader.readOver {} front []).mode size hEnded hFiller fillers
  have hFront := filterMap_ahead hAhead
    (Reader.emittedOver_ahead {} front (SplitsUpTo.closing false opened size) [.sentinel size])
  rw [readEvents_append, readEvents_append, Reader.upcoming_sentinelEvents, hClosing,
    List.filterMap_append, hEnd, hFront, ← List.filterMap_append]

/-- The sentinel ends the walk as the end of the text does, but for a string that is open there. -/
theorem walkThrough_sentinel (region : Region) :
    let reader := Reader.readAll {} (front ++ SplitsUpTo.closing false opened size)
    walkThrough region (readEvents size (front ++ [.sentinel size])) size =
      (((Walk.start region).run reader.events.toList).absorbEnd reader.mode size).finish size := by
  intro reader
  rw [walkThrough, readEvents_append, Walk.run_append, Walk.run_unseen (isUnseen_sentinel size),
    Reader.upcoming_sentinelEvents, Walk.finish_sentinelEvents, Walk.run_readAll_closing,
    mode_readAll_closing]

end Closing

/-- The table of a text by its tokens without a sentinel: only a string that is not closed makes a
difference. -/
theorem scan_eq_absorbEnd (region : Region) (text : String) :
    let size := text.utf8ByteSize
    let reader := Reader.readAll {} (openTokens text).list
    let walk := (Walk.start region).run reader.events.toList
    let events := readEvents size (openTokens text).list
    (scan region none text).table =
        tabulate text events size ((walk.absorbEnd reader.mode size).finish size) ∧
      tableOf region text (openTokens text) = tabulate text events size (walk.finish size) := by
  intro size reader walk events
  obtain ⟨front, opened, hSplits⟩ := SplitsUpTo.total delimiters 0 text.toList
  obtain ⟨hClosed, hScanned⟩ := list_tokens hSplits
  obtain ⟨hOpen, hOpenScanned⟩ := hSplits.tokenize false
  rw [if_neg Bool.false_ne_true, List.append_nil, ← openTokens] at hOpen
  rw [← openTokens] at hOpenScanned
  constructor
  · have hTaken : ∀ {take : Event → Option Span}, take (.ended size) = none →
        (∀ token, take (.filler token) = none) →
        (∀ event : Event, take (event.ahead none) = take event) →
        (readEvents size (tokens none text).list).filterMap take = events.filterMap take := by
      intro take hEnded hFiller hAhead
      show _ = (readEvents size (openTokens text).list).filterMap take
      rw [hClosed, hOpen]
      exact filterMap_readEvents_sentinel front opened size hEnded hFiller hAhead
    have hRun : walkThrough region (readEvents size (tokens none text).list) size =
        (walk.absorbEnd reader.mode size).finish size := by
      rw [hClosed, walkThrough_sentinel front opened, ← hOpen]
    show tabulate text _ (tokens none text).scanned (walkThrough region _ size) = _
    rw [hScanned, hRun]
    exact tabulate_congr (hTaken rfl (fun _ => rfl) keyword?_ahead)
      (hTaken rfl (fun _ => rfl) comment?_ahead) (hTaken rfl (fun _ => rfl) directive?_ahead)
      rfl rfl size
  · show tabulate text events (openTokens text).scanned (walkThrough region events size) = _
    have hFinish : walkThrough region events size = walk.finish size :=
      congrArg (Walk.finish · size) (Walk.run_finish (Walk.start region) reader size)
    rw [hOpenScanned, hFinish]

/-- The table of a text is that of its tokens without a sentinel, over every text and every start
region, unless the text ends inside of a string while a range or a value of a name is collected.
There the text of the sentinel is collected too. -/
theorem scan_openTokens (region : Region) (text : String) :
    let size := text.utf8ByteSize
    let reader := Reader.readAll {} (openTokens text).list
    let walk := (Walk.start region).run reader.events.toList
    ((reader.mode = .string → walk.place.isCollecting = false) →
      (scan region none text).table = tableOf region text (openTokens text)) ∧
    (reader.mode = .string → (scan region none text).table =
      tabulate text (readEvents size (openTokens text).list) size
        ((walk.goto (walk.place.absorb (.sentinel size))).finish size)) := by
  intro size reader walk
  obtain ⟨hScan, hTable⟩ := scan_eq_absorbEnd region text
  constructor
  · intro hPlace
    rw [hScan, hTable]
    refine tabulate_congr rfl rfl rfl (Walk.finish_absorbEnd hPlace size) ?_ size
    rw [Walk.frames_finish, Walk.frames_finish, Walk.absorbEnd]
    split <;> rfl
  · intro hMode
    rw [hScan, Walk.absorbEnd, if_pos hMode]

/-- Inside of a string that is passed over the sentinel does not show either. -/
theorem scan_openTokens_passed :
    let text := "module m; assign a = \"abc"
    Reader.mode (Reader.readAll {} (openTokens text).list) = .string ∧
      (scan .moduleContext none text).table = tableOf .moduleContext text (openTokens text) :=
  ⟨by decide +kernel,
    (scan_openTokens .moduleContext "module m; assign a = \"abc").1 fun _ => by decide +kernel⟩

/-- But it becomes a part of a value that ends the text inside of a string. -/
theorem sentinel_isCollected :
    let text := "parameter P = \"abc"
    (scan .parameterList none text).table.parameters.rows.toList.map (·.init) =
        ["\"abcEnd-Of-File"] ∧
      (tableOf .parameterList text (openTokens text)).parameters.rows.toList.map (·.init) =
        ["\"abc"] := by
  decide +kernel

end Tables

end HdlIndex.Verilog

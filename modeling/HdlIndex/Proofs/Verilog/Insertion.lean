import HdlIndex.Proofs.Token.Joined
import HdlIndex.Proofs.Verilog.Modules
import HdlIndex.Proofs.Verilog.RelaidTable

/-! A piece of text that is inserted between two tokens of a Verilog text. Both texts are compared
with one that has a gap of a single byte there, so that no place in front of the piece is a place
behind it. If the piece records nothing, and the walk stands behind it where it stood in front of
it, then the two tables differ in their places only, and perhaps in a parameter clause that the
piece is inserted into. -/
namespace HdlIndex

section Unplaced

variable (move : Nat → Nat)

theorem Words.unplaced_moved (words : Words) :
    (words.moved move).moved (fun _ => 0) = words.moved fun _ => 0 := by
  simp [Words.moved, Word.moved, Span.moved, Function.comp_def]

theorem Declarations.unplaced_moved (list : Declarations) :
    (list.moved move).moved (fun _ => 0) = list.moved fun _ => 0 := by
  simp [Declarations.moved, Row.moved, Word.moved, Span.moved, Function.comp_def]

theorem ClockedSignals.unplaced_moved (signals : ClockedSignals) :
    (signals.moved move).moved (fun _ => 0) = signals.moved fun _ => 0 := by
  simp [ClockedSignals.moved, ClockedSignal.moved, Word.moved, Span.moved, Function.comp_def]

theorem HdlProcess.unplaced_moved (process : HdlProcess) :
    (process.moved move).moved (fun _ => 0) = process.moved fun _ => 0 := by
  simp [HdlProcess.moved, BodyWord.moved, Word.moved, Span.moved, Function.comp_def]

end Unplaced

section Gap

/-- The tokens behind so many bytes. -/
def shift (offset : Nat) (tokens : List Token) : List Token := tokens.map (·.moved (offset + ·))

variable {tokens : List Token} {pre piece post : String} {span : Span}

/-- Contiguous tokens remain so when all are moved by one distance. -/
theorem shift_contiguous {offset stop : Nat} (h : Contiguous offset tokens stop) (count : Nat) :
    Contiguous (count + offset) (shift count tokens) (count + stop) := by
  induction tokens generalizing offset with
  | nil => exact congrArg (count + ·) h
  | cons token tokens ih =>
      obtain ⟨hStart, hStop, hRest⟩ := h
      exact ⟨congrArg (count + ·) hStart, Nat.add_le_add_left hStop _, ih hRest⟩

/-- A range of a text with a gap of one byte lies in front of the gap, or behind it. -/
def Span.IsBeside (pre : String) (span : Span) : Prop :=
  (span.start ≤ pre.utf8ByteSize ∧ span.stop ≤ pre.utf8ByteSize) ∨
    (pre.utf8ByteSize + 1 ≤ span.start ∧ pre.utf8ByteSize + 1 ≤ span.stop)

/-- Moves what stands behind the gap to behind a piece of text that fills it. -/
def fill (pre piece : String) : Nat → Nat :=
  relocate pre.utf8ByteSize (pre.utf8ByteSize + 1) (pre ++ piece).utf8ByteSize

theorem fill_monotone (pre piece : String) : Monotone (fill pre piece) := by
  refine relocate_monotone ?_ _
  rw [String.utf8ByteSize_append]
  exact Nat.le_add_right _ _

theorem fill_of_le {offset : Nat} (h : offset ≤ pre.utf8ByteSize) (piece : String) :
    fill pre piece offset = offset := relocate_of_le h

theorem fill_add (pre piece : String) (count : Nat) :
    fill pre piece (pre.utf8ByteSize + 1 + count) = (pre ++ piece).utf8ByteSize + count :=
  relocate_add (Nat.lt_succ_self _) _ _

/-- What is apart from the gap is cut out of the filled text alike. -/
theorem slice_fill (h : span.IsBeside pre) (piece post : String) :
    (span.moved (fill pre piece)).slice (pre ++ piece ++ post) =
      span.slice (pre ++ " " ++ post) := by
  rcases h with ⟨hStart, hStop⟩ | ⟨hStart, hStop⟩
  · rw [Span.moved, fill_of_le hStart, fill_of_le hStop, String.append_assoc, String.append_assoc,
      Span.slice_append_left hStart hStop, Span.slice_append_left hStart hStop]
  · obtain ⟨⟨start, stop⟩, rfl⟩ : ∃ inner : Span, span = inner.moved (pre.utf8ByteSize + 1 + ·) :=
      ⟨⟨span.start - (pre.utf8ByteSize + 1), span.stop - (pre.utf8ByteSize + 1)⟩, by
        rw [Span.moved, Nat.add_sub_cancel' hStart, Nat.add_sub_cancel' hStop]⟩
    have hGap : pre.utf8ByteSize + 1 = (pre ++ " ").utf8ByteSize := by
      rw [String.utf8ByteSize_append]
      rfl
    have hMoved : (Span.moved (pre.utf8ByteSize + 1 + ·) ⟨start, stop⟩).moved (fill pre piece) =
        Span.moved ((pre ++ piece).utf8ByteSize + ·) ⟨start, stop⟩ := by
      simp only [Span.moved, fill_add]
    rw [hMoved, Span.slice_append_right, hGap, Span.slice_append_right]

/-- A closed range that is apart from the gap is moved as a whole. -/
theorem isKept_fill (hOrder : span.start ≤ span.stop) (h : span.IsBeside pre)
    (piece post : String) :
    span.IsKept (fill pre piece) (pre ++ " " ++ post).toList (pre ++ piece ++ post).toList where
  slice := by
    rw [String.ofList_toList, String.ofList_toList]
    exact slice_fill h piece post
  together count hCount := by
    rw [String.ofList_toList] at hCount
    have hSize := hCount.trans (span.utf8ByteSize_slice_le _)
    rcases h with ⟨hStart, hStop⟩ | ⟨hStart, hStop⟩
    · rw [fill_of_le (by omega), fill_of_le hStart]
    · obtain ⟨start, hSpan⟩ := Nat.exists_eq_add_of_le hStart
      rw [hSpan, Nat.add_assoc, fill_add, fill_add, Nat.add_assoc]

end Gap

end HdlIndex

namespace HdlIndex.Verilog

section Unplaced

/-- What was found, with every place forgotten. -/
def Findings.unplaced (found : Findings) : Findings := found.moved fun _ => 0

/-- The table with every place forgotten. -/
def Table.unplaced (table : Table) : Table := table.moved fun _ => 0

/-- The table without the text of its parameter clause. -/
def Table.unclaused (table : Table) : Table := { table with genericDefinition := "" }

variable (move : Nat → Nat)

/-- Where something was found does not matter once its place is forgotten. -/
theorem Findings.unplaced_moved (found : Findings) :
    (found.moved move).unplaced = found.unplaced := by
  simp [unplaced, moved, Words.unplaced_moved, Declarations.unplaced_moved,
    ClockedSignals.unplaced_moved, HdlProcess.unplaced_moved, Instance.moved, Word.moved,
    Span.moved, Function.comp_def]

end Unplaced

section Ahead

variable {reader : Reader} {tokens rest rest' : List Token}

theorem Event.ahead_ahead (event : Event) (next next' : Option Lexeme) :
    (event.ahead next).ahead next' = event.ahead next' := by cases event <;> rfl

/-- The same tokens make the same events whatever stands behind them, but for the words ahead. -/
theorem Reader.emittedOver_ahead (reader : Reader) (tokens rest rest' : List Token) :
    (reader.emittedOver tokens rest').map (·.ahead none) =
      (reader.emittedOver tokens rest).map (·.ahead none) := by
  induction tokens generalizing reader with
  | nil => rfl
  | cons token tokens ih =>
      have hForget : (reader.read token (tokens ++ rest')).forget =
          (reader.read token (tokens ++ rest)).forget :=
        reader.forget_readOver_ahead [token] (tokens ++ rest) (tokens ++ rest')
      rw [emittedOver, emittedOver, List.map_append, List.map_append, ih,
        isReader.emittedOver_eq, hForget, ← isReader.emittedOver_eq,
        reader.emitted_ahead token (tokens ++ rest) (tokens ++ rest'), List.map_map]
      congr 1
      exact List.map_congr_left fun event _ => event.ahead_ahead _ _

end Ahead

section Tables

variable {move : Nat → Nat} {text text' : String}
  {events events' front front' inner back : List Event}
  {walk : Walk} {region : Region}

/-- The event records nothing in the table of the text by itself. -/
structure Event.IsQuiet (text : String) (event : Event) : Prop where
  keyword : event.keyword? = none
  comment : event.comment? = none
  included : ∀ span ∈ event.directive?, includedFile? text span = none

/-- What the table of a text takes from its reading is what that of another text takes, moved. -/
structure Event.Agree (move : Nat → Nat) (text text' : String)
    (events events' : List Event) : Prop where
  keywords : events'.filterMap Event.keyword? = (events.filterMap Event.keyword?).map (·.moved move)
  comments : (events'.filterMap Event.comment?).map (commentAt text') =
    ((events.filterMap Event.comment?).map (commentAt text)).map (·.moved move)
  includeFiles : (events'.filterMap Event.directive?).filterMap (includedFile? text') =
    ((events.filterMap Event.directive?).filterMap (includedFile? text)).map (·.moved move)

theorem comment?_moved (move : Nat → Nat) (event : Event) :
    (event.moved move).comment? = event.comment?.map (·.moved move) := by
  cases event <;> rfl

/-- The words ahead are not taken. -/
theorem filterMap_ahead {α : Type} {take : Event → Option α}
    (hTake : ∀ event : Event, take (event.ahead none) = take event)
    (h : front'.map (·.ahead none) = front.map (·.ahead none)) :
    front'.filterMap take = front.filterMap take := by
  have hAhead : ∀ events : List Event, (events.map (·.ahead none)).filterMap take =
      events.filterMap take := by
    intro events
    rw [List.filterMap_map]
    exact List.filterMap_congr fun event _ => hTake event
  rw [← hAhead front', h, hAhead]

theorem keyword?_ahead (event : Event) : (event.ahead none).keyword? = event.keyword? := by
  cases event <;> rfl

theorem comment?_ahead (event : Event) : (event.ahead none).comment? = event.comment? := by
  cases event <;> rfl

theorem directive?_ahead (event : Event) : (event.ahead none).directive? = event.directive? := by
  cases event <;> rfl

/-- What is taken from moved events is moved. -/
theorem filterMap_moved {take : Event → Option Span}
    (hTake : ∀ event : Event, take (event.moved move) = (take event).map (·.moved move))
    (events : List Event) :
    (events.map (·.moved move)).filterMap take = (events.filterMap take).map (·.moved move) := by
  rw [List.filterMap_map, List.map_filterMap]
  exact List.filterMap_congr fun event _ => hTake event

/-- Quiet events are nothing to the table. -/
theorem filterMap_isQuiet (hQuiet : ∀ event ∈ inner, event.IsQuiet text) :
    inner.filterMap Event.keyword? = [] ∧ inner.filterMap Event.comment? = [] ∧
      (inner.filterMap Event.directive?).filterMap (includedFile? text) = [] := by
  rw [List.filterMap_filterMap, List.filterMap_eq_nil_iff, List.filterMap_eq_nil_iff,
    List.filterMap_eq_nil_iff]
  refine ⟨fun event hMem => (hQuiet event hMem).keyword,
    fun event hMem => (hQuiet event hMem).comment, fun event hMem => ?_⟩
  rw [Option.bind_eq_none_iff]
  exact (hQuiet event hMem).included

/-- Quiet events between the moved ones make no difference. -/
theorem Event.Agree.of_parts
    (hKept : ∀ event ∈ front ++ back, ∀ span, event.comment? = some span ∨
      event.directive? = some span → span.IsKept move text.toList text'.toList)
    (hFront : front'.map (·.ahead none) = (front.map (·.moved move)).map (·.ahead none))
    (hQuiet : ∀ event ∈ inner, event.IsQuiet text') :
    Agree move text text' (front ++ back) (front' ++ inner ++ back.map (·.moved move)) := by
  obtain ⟨hKeywords, hComments, hIncluded⟩ := filterMap_isQuiet hQuiet
  have hSlice : ∀ span ∈ (front ++ back).filterMap Event.comment?,
      commentAt text' (span.moved move) = (commentAt text span).moved move := by
    intro span hMem
    obtain ⟨event, hEvent, hSpan⟩ := List.mem_filterMap.1 hMem
    have hSame := (hKept event hEvent span (.inl hSpan)).slice
    rw [String.ofList_toList, String.ofList_toList] at hSame
    rw [commentAt, commentAt, hSame]
    rfl
  have hFile : ∀ span ∈ (front ++ back).filterMap Event.directive?,
      includedFile? text' (span.moved move) = (includedFile? text span).map (·.moved move) := by
    intro span hMem
    obtain ⟨event, hEvent, hSpan⟩ := List.mem_filterMap.1 hMem
    exact includedFile?_moved (hKept event hEvent span (.inr hSpan))
  refine ⟨?_, ?_, ?_⟩
  · rw [List.filterMap_append, List.filterMap_append, filterMap_ahead keyword?_ahead hFront,
      hKeywords, List.append_nil, filterMap_moved (keyword?_moved move),
      filterMap_moved (keyword?_moved move), List.filterMap_append, List.map_append]
  · rw [List.filterMap_append, List.filterMap_append, filterMap_ahead comment?_ahead hFront,
      hComments, List.append_nil, filterMap_moved (comment?_moved move),
      filterMap_moved (comment?_moved move), ← List.map_append, ← List.filterMap_append,
      List.map_map, List.map_map]
    exact List.map_congr_left hSlice
  · rw [List.filterMap_append, List.filterMap_append, List.filterMap_append, List.filterMap_append,
      hIncluded, List.append_nil, ← List.filterMap_append, filterMap_ahead directive?_ahead hFront,
      filterMap_moved (directive?_moved move), filterMap_moved (directive?_moved move),
      ← List.map_append, ← List.filterMap_append, List.filterMap_map, List.map_filterMap]
    exact List.filterMap_congr hFile

/-- What a walk has found and what a reading hands on, with every place forgotten. -/
def forgotten (text : String) (events : List Event) (walk : Walk) : Table :=
  { toFindings := walk.found.unplaced
    genericDefinition := (walk.found.genericClause.map (·.slice text)).getD ""
    includeFiles := Words.moved (fun _ => 0)
      ⟨((events.filterMap Event.directive?).filterMap (includedFile? text)).toArray⟩
    comments := Words.moved (fun _ => 0)
      ⟨((events.filterMap Event.comment?).map (commentAt text)).toArray⟩
    keywords := (events.filterMap Event.keyword?).map (·.moved fun _ => 0)
    diagnostics := if walk.frames.isEmpty then [] else [.unclosedGenerate walk.frames.length] }

/-- A walk and a reading that are another walk and another reading, moved, make the same table but
for its places. The text of a clause is the same if it is cut out of both texts alike. -/
theorem Event.Agree.unplaced
    (h : Agree move text text' events (readEvents text'.utf8ByteSize (tokens none text').list))
    (hWalk : walkThrough region (readEvents text'.utf8ByteSize (tokens none text').list)
      text'.utf8ByteSize = walk.moved move) :
    (scan region none text').table.unplaced.unclaused = (forgotten text events walk).unclaused ∧
      ((∀ span ∈ walk.found.genericClause, (span.moved move).slice text' = span.slice text) →
        (scan region none text').table.unplaced = forgotten text events walk) := by
  have hAll := walkThrough_located region none text'
  rw [hWalk] at hAll
  have hScan : (scan region none text').table = tabulate text'
      (readEvents text'.utf8ByteSize (tokens none text').list) (tokens none text').scanned
      (walk.moved move) := by
    rw [← hWalk]
    rfl
  have hRagged : (walk.moved move).found.ragged = [] := hAll.ragged_eq_nil
  have hDiagnostics : diagnose (walk.moved move) (tokens none text').scanned text'.utf8ByteSize =
      (forgotten text events walk).diagnostics := by
    rw [diagnose, hRagged, scanned_tokens, if_neg (Nat.lt_irrefl _)]
    simp [forgotten, Walk.moved]
  have hFound : (walk.moved move).found.unplaced = walk.found.unplaced :=
    Findings.unplaced_moved move walk.found
  have hWords : ∀ {words words' : List Word}, words' = words.map (·.moved move) →
      Words.moved (fun _ => 0) ⟨words'.toArray⟩ = Words.moved (fun _ => 0) ⟨words.toArray⟩ := by
    rintro words _ rfl
    have hSame := Words.unplaced_moved move ⟨words.toArray⟩
    simpa [Words.moved] using hSame
  have hKeywords : ((readEvents text'.utf8ByteSize (tokens none text').list).filterMap
      Event.keyword?).map (Span.moved fun _ => 0) = (forgotten text events walk).keywords := by
    rw [h.keywords, List.map_map]
    rfl
  have hTable : (scan region none text').table.unplaced =
      { forgotten text events walk with
        genericDefinition :=
          (((walk.moved move).found.genericClause.map (·.slice text')).getD "") } := by
    rw [hScan, tabulate, hAll.align_eq_self, hDiagnostics, Table.unplaced, Table.moved]
    dsimp only
    rw [hWords h.comments, hWords h.includeFiles, hKeywords]
    exact congrArg (fun found => ({ forgotten text events walk with
      toFindings := found
      genericDefinition := (((walk.moved move).found.genericClause.map (·.slice text')).getD "") } :
        Table)) hFound
  refine ⟨by rw [hTable]; rfl, fun hClause => ?_⟩
  rw [hTable]
  have hSlice : (walk.moved move).found.genericClause.map (·.slice text') =
      walk.found.genericClause.map (·.slice text) := by
    show (walk.found.genericClause.map (·.moved move)).map (·.slice text') = _
    cases hSome : walk.found.genericClause with
    | none => rfl
    | some span => exact congrArg some (hClause span hSome)
  rw [hSlice]
  rfl

end Tables

section Insertion

/-- What is inserted between two parts of a text is read by itself, records nothing, and leaves the
walk where it stands without it. -/
structure IsInserted (region : Region) (pre piece post : String) (first inner rest : List Token) :
    Prop where
  list : (tokens none (pre ++ post)).list = first ++ shift pre.utf8ByteSize rest
  list_inserted : (tokens none (pre ++ piece ++ post)).list =
    first ++ inner ++ shift (pre ++ piece).utf8ByteSize rest
  front : Contiguous 0 first pre.utf8ByteSize
  back : Contiguous 0 rest post.utf8ByteSize
  sized : ∀ token ∈ first ++ rest, token.isSentinel = false →
    token.span.stop = token.span.start + token.text.utf8ByteSize
  code : (Reader.readOver {} first []).mode = .code
  code_inserted : ∀ reader : Reader, reader.mode = .code →
    (reader.readOver inner (shift (pre ++ piece).utf8ByteSize rest)).mode = .code
  quiet : ∀ reader : Reader, reader.mode = .code →
    ∀ event ∈ reader.emittedOver inner (shift (pre ++ piece).utf8ByteSize rest),
      event.IsQuiet (pre ++ piece ++ post)
  walk :
    let behind := shift (pre ++ piece).utf8ByteSize rest
    ((Walk.start region).run (Reader.emittedOver {} first (inner ++ behind))).run
        ((Reader.readOver {} first (inner ++ behind)).emittedOver inner behind) =
      (Walk.start region).run (Reader.emittedOver {} first behind)

variable {region : Region} {pre piece post : String} {first inner rest : List Token}
  {P : Word → Prop}

theorem stop_eq_of_mem {offset : Nat} {chars : List Char} {tokens : List Token} {opened : Bool}
    (h : SplitsUpTo delimiters offset chars tokens opened) :
    ∀ token ∈ tokens, token.span.stop = token.span.start + token.text.utf8ByteSize := by
  intro token hMem
  obtain ⟨start, part, rfl, -⟩ := h.placed_of_mem token hMem
  simp [Token.placed, String.utf8ByteSize_ofList]

/-- Of the tokens of a text only the sentinel has a text that it does not cover. -/
theorem stop_eq_of_mem_tokens (text : String) : ∀ token ∈ (tokens none text).list,
    token.isSentinel = false → token.span.stop = token.span.start + token.text.utf8ByteSize := by
  obtain ⟨front, opened, hSplits⟩ := SplitsUpTo.total delimiters 0 text.toList
  rw [(list_tokens hSplits).1, List.forall_mem_append]
  refine ⟨fun token hMem _ => stop_eq_of_mem hSplits token hMem, ?_⟩
  rw [List.forall_mem_singleton, Token.isSentinel_sentinel]
  simp

/-- The tokens of a text reach from its start to its end. -/
theorem contiguous_tokens (text : String) :
    Contiguous 0 (tokens none text).list text.utf8ByteSize := by
  have hTokens := tokenize_contiguous delimiters none true text
  have hScanned := scanned_tokens text
  rw [tokens] at hScanned
  rwa [hScanned] at hTokens

/-- Tokens that cover their texts do so behind so many bytes. -/
theorem sized_shift {offset : Nat} {tokens : List Token}
    (h : ∀ token ∈ tokens, token.isSentinel = false →
    token.span.stop = token.span.start + token.text.utf8ByteSize) :
    ∀ token ∈ shift offset tokens, token.isSentinel = false →
      token.span.stop = token.span.start + token.text.utf8ByteSize := by
  intro token hMem hWord
  obtain ⟨token, hToken, rfl⟩ := List.mem_map.1 hMem
  have hOwn : token.isSentinel = false := by
    rw [← hWord, Bool.eq_iff_iff]
    simp [Token.isSentinel, Token.moved, Span.moved, Span.isEmpty]
  show offset + token.span.stop = offset + token.span.start + token.text.utf8ByteSize
  rw [h token hToken hOwn, Nat.add_assoc]

/-- Tokens that cover their texts are moved as wholes if what they cover is. -/
theorem isRigid_of_sized {move : Nat → Nat} {tokens : List Token}
    (hSized : ∀ token ∈ tokens, token.isSentinel = false →
      token.span.stop = token.span.start + token.text.utf8ByteSize)
    (hMove : ∀ token ∈ tokens, token.span.stop = token.span.start + token.text.utf8ByteSize →
      ∀ count ≤ token.text.utf8ByteSize, move (token.span.start + count) =
        move token.span.start + count) :
    ∀ token ∈ tokens, TokenAll (·.IsRigid move) token := by
  intro token hMem
  refine ⟨Word.isRigid_absent _ _, Word.isRigid_absent _ _, fun hWord => ?_⟩
  have hSize := hSized token hMem hWord
  exact ⟨hSize, hMove token hMem hSize⟩

/-- The events of a text with a gap. -/
def gapped (pre post : String) (first rest : List Token) : List Event :=
  Reader.upcoming (pre.utf8ByteSize + 1 + post.utf8ByteSize) {}
    (first ++ shift (pre.utf8ByteSize + 1) rest)

/-- The text with a gap is read up to the gap, and from there. -/
theorem gapped_eq (pre post : String) (first rest : List Token) :
    gapped pre post first rest =
      Reader.emittedOver {} first (shift (pre.utf8ByteSize + 1) rest) ++
        (Reader.readOver {} first (shift (pre.utf8ByteSize + 1) rest)).upcoming
          (pre.utf8ByteSize + 1 + post.utf8ByteSize) (shift (pre.utf8ByteSize + 1) rest) :=
  Reader.isReader.upcoming_append _ _ _ _

section Code

variable {reader reader' : Reader} {tokens : List Token}

/-- Outside of comments and strings all readers read a token alike. -/
theorem Reader.read_forget_code (h : reader.mode = .code) (h' : reader'.mode = .code)
    (token : Token) (rest : List Token) :
    reader.forget.read token rest = reader'.forget.read token rest := by
  have hForget : reader.forget.mode = .code := h
  have hForget' : reader'.forget.mode = .code := h'
  rw [read, read, hForget, hForget']
  dsimp only
  rw [readCode, readCode]
  repeat' split
  all_goals simp [emit, forget, h, h']

/-- So they have the same events to come. -/
theorem Reader.upcoming_code (h : reader.mode = .code) (h' : reader'.mode = .code) (size : Nat)
    (tokens : List Token) : reader.upcoming size tokens = reader'.upcoming size tokens := by
  cases tokens with
  | nil => simp [upcoming, readAll, finish, forget, h, h']
  | cons token tokens => rw [upcoming, upcoming, readAll, readAll, read_forget_code h h']

/-- In code, a reader forgets what it has read: the mode it ends in depends on the tokens alone. -/
theorem Reader.mode_readOver_code (h : reader.mode = .code) (h' : reader'.mode = .code)
    (tokens rest : List Token) :
    (reader.readOver tokens rest).mode = (reader'.readOver tokens rest).mode := by
  have hForget := congrArg Reader.mode (Reader.isReader.forget_readOver reader tokens rest)
  have hForget' := congrArg Reader.mode (Reader.isReader.forget_readOver reader' tokens rest)
  cases tokens with
  | nil => exact h.trans h'.symm
  | cons token tokens =>
      refine hForget.symm.trans (Eq.trans ?_ hForget')
      rw [readOver, readOver, read_forget_code h h']

/-- And so do the events that it makes of them. -/
theorem Reader.emittedOver_code (h : reader.mode = .code) (h' : reader'.mode = .code)
    (tokens rest : List Token) :
    reader.emittedOver tokens rest = reader'.emittedOver tokens rest := by
  cases tokens with
  | nil => rfl
  | cons token tokens =>
      rw [isReader.emittedOver_eq, isReader.emittedOver_eq, readOver, readOver,
        read_forget_code h h']

/-- A reading that ends outside of comments and strings goes on as one that begins there. -/
theorem Reader.upcoming_append_code (hCode : (Reader.readOver {} tokens []).mode = .code)
    (size : Nat) (rest : List Token) : Reader.upcoming size {} (tokens ++ rest) =
      Reader.emittedOver {} tokens rest ++ Reader.upcoming size {} rest := by
  have hMode : (Reader.readOver {} tokens rest).mode = .code :=
    (congrArg Reader.mode (Reader.forget_readOver_ahead {} tokens [] rest)).trans hCode
  rw [isReader.upcoming_append, upcoming_code hMode (show Reader.mode {} = .code from rfl)]

end Code

namespace IsInserted

variable (h : IsInserted region pre piece post first inner rest)

include h

theorem mode_front (tokens : List Token) : (Reader.readOver {} first tokens).mode = .code :=
  (congrArg Reader.mode (Reader.forget_readOver_ahead {} first [] tokens)).trans h.code

theorem back_gapped : Contiguous (pre.utf8ByteSize + 1) (shift (pre.utf8ByteSize + 1) rest)
    (pre.utf8ByteSize + 1 + post.utf8ByteSize) :=
  shift_contiguous h.back _

/-- The tokens in front of the gap stay when it is filled, and those behind it are moved behind what
fills it. -/
theorem fill_tokens (piece : String) :
    first.map (·.moved (fill pre piece)) = first ∧
      (shift (pre.utf8ByteSize + 1) rest).map (·.moved (fill pre piece)) =
        shift (pre ++ piece).utf8ByteSize rest := by
  constructor
  · have hFixed : ∀ token ∈ first, token.moved (fill pre piece) = id token := by
      intro token hMem
      have hStop := h.front.stop_le_of_mem hMem
      have hStart := (h.front.le_of_mem hMem).2.trans hStop
      rw [Token.moved, Span.moved, fill_of_le hStart, fill_of_le hStop]
      rfl
    exact (List.map_congr_left hFixed).trans (List.map_id _)
  · rw [shift, shift, List.map_map]
    refine List.map_congr_left fun token _ => ?_
    simp only [Function.comp_apply, Token.moved, Span.moved, fill_add]

/-- Every token is moved as a whole. -/
theorem rigid (piece : String) : ∀ token ∈ first ++ shift (pre.utf8ByteSize + 1) rest,
    TokenAll (·.IsRigid (fill pre piece)) token := by
  obtain ⟨hFirst, hRest⟩ := List.forall_mem_append.1 h.sized
  refine List.forall_mem_append.2 ⟨isRigid_of_sized hFirst fun token hMem hSize count hCount => ?_,
    isRigid_of_sized (sized_shift hRest) fun token hMem _ count _ => ?_⟩
  · have hStop := h.front.stop_le_of_mem hMem
    rw [fill_of_le (by omega), fill_of_le (by omega)]
  · obtain ⟨token, -, rfl⟩ := List.mem_map.1 hMem
    show fill pre piece (pre.utf8ByteSize + 1 + token.span.start + count) =
      fill pre piece (pre.utf8ByteSize + 1 + token.span.start) + count
    rw [Nat.add_assoc, fill_add, fill_add, Nat.add_assoc]

theorem front_all (hTokens : ∀ token ∈ first, TokenAll P token) (behind : List Token) :
    ∀ event ∈ Reader.emittedOver {} first behind, event.All P := by
  exact (Reader.All.start P 0).emittedOver hTokens h.front behind

/-- What is known of all tokens behind the insertion holds of the events they become. -/
theorem back_all (hTokens : ∀ token ∈ shift (pre.utf8ByteSize + 1) rest, TokenAll P token)
    (hEnd : P (.absent (pre.utf8ByteSize + 1 + post.utf8ByteSize))) :
    ∀ event ∈ (Reader.readOver {} first (shift (pre.utf8ByteSize + 1) rest)).upcoming
        (pre.utf8ByteSize + 1 + post.utf8ByteSize) (shift (pre.utf8ByteSize + 1) rest),
      event.All P := by
  set near := Reader.readOver {} first (shift (pre.utf8ByteSize + 1) rest) with hNear
  have hMode : near.mode = .code := h.mode_front _
  rw [← Reader.isReader.upcoming_forget]
  exact (Reader.All.of_code hMode _).upcoming hTokens h.back_gapped (Nat.le_refl _) hEnd

/-- Filling the gap again moves every word as a whole. -/
theorem rigid_gapped (piece : String) :
    ∀ event ∈ gapped pre post first rest, event.All (·.IsRigid (fill pre piece)) := by
  obtain ⟨hFirst, hRest⟩ := List.forall_mem_append.1 (h.rigid piece)
  rw [gapped_eq, List.forall_mem_append]
  exact ⟨h.front_all hFirst _, h.back_all hRest (Word.isRigid_absent _ _)⟩

/-- No comment and no directive lies across the gap. -/
theorem kept_gapped (piece : String) : ∀ event ∈ gapped pre post first rest, ∀ span,
    event.comment? = some span ∨ event.directive? = some span →
      span.IsKept (fill pre piece) (pre ++ " " ++ post).toList (pre ++ piece ++ post).toList := by
  have hSpan : ∀ {P : Word → Prop} {event : Event} {span : Span}, event.All P →
      event.comment? = some span ∨ event.directive? = some span → span.All P := by
    intro P event span hEvent hTaken
    exact hTaken.elim (hEvent.comment? span) (hEvent.directive? span)
  have hFront : ∀ token ∈ first, TokenAll (·.span.stop ≤ pre.utf8ByteSize) token :=
    fun token hMem => .stop_le h.front hMem
  have hBack : ∀ token ∈ shift (pre.utf8ByteSize + 1) rest,
      TokenAll (pre.utf8ByteSize + 1 ≤ ·.span.start) token :=
    fun token hMem => .le_start h.back_gapped hMem
  rw [gapped_eq]
  intro event hMem span hTaken
  rcases List.mem_append.1 hMem with hEvent | hEvent
  · have hAll := hSpan (h.front_all hFront _ event hEvent) hTaken
    exact isKept_fill hAll.ordered (.inl ⟨hAll.ordered.trans hAll.stop, hAll.stop⟩) piece post
  · have hAll := hSpan (h.back_all hBack (Nat.le_add_right _ _) event hEvent) hTaken
    exact isKept_fill hAll.ordered (.inr ⟨hAll.start, hAll.start.trans hAll.ordered⟩) piece post

/-- Without the piece the text is the one with the gap, closed. -/
theorem events_eq : readEvents (pre ++ post).utf8ByteSize (tokens none (pre ++ post)).list =
    (gapped pre post first rest).map (·.moved (fill pre "")) := by
  obtain ⟨hFirst, hRest⟩ := h.fill_tokens ""
  have hStart : Reader.Matches (fill pre "") {} {} := ⟨rfl, rfl, by simp⟩
  have hBoth := hStart.upcoming_eq (pre.utf8ByteSize + 1 + post.utf8ByteSize) (h.rigid "")
  rw [fill_add, List.map_append, hFirst, hRest, String.append_empty,
    ← String.utf8ByteSize_append] at hBoth
  rw [readEvents_eq_upcoming, h.list, hBoth]
  rfl

/-- The events in front of the piece, the words ahead apart, and those behind it are moved. -/
theorem events_inserted :
    let far := shift (pre.utf8ByteSize + 1) rest
    let behind := shift (pre ++ piece).utf8ByteSize rest
    let front := Reader.emittedOver {} first far
    let back := (Reader.readOver {} first far).upcoming
      (pre.utf8ByteSize + 1 + post.utf8ByteSize) far
    readEvents (pre ++ piece ++ post).utf8ByteSize (tokens none (pre ++ piece ++ post)).list =
        Reader.emittedOver {} first (inner ++ behind) ++
          (Reader.readOver {} first (inner ++ behind)).emittedOver inner behind ++
          back.map (·.moved (fill pre piece)) ∧
      front.map (·.moved (fill pre piece)) = Reader.emittedOver {} first behind := by
  intro far behind front back
  obtain ⟨hRigidFirst, hRigidFar⟩ := List.forall_mem_append.1 (h.rigid piece)
  obtain ⟨hFirst, hRest⟩ := h.fill_tokens piece
  have hStart : Reader.Matches (fill pre piece) {} {} := ⟨rfl, rfl, by simp⟩
  have hSees : Reader.Sees (fill pre piece) (Reader.readOver {} first far).mode far behind := by
    intro closer _
    have hBehind : behind = far.map (·.moved (fill pre piece)) := hRest.symm
    rw [hBehind, Token.nextSignificant_moved]
  have hFront := hStart.emittedOver_eq hRigidFirst hSees
  rw [hFirst] at hFront
  refine ⟨?_, hFront.symm⟩
  set near := Reader.readOver {} first (inner ++ behind)
  have hFar : (Reader.readOver {} first far).mode = .code := h.mode_front _
  have hCode : (near.readOver inner behind).mode = .code := h.code_inserted near (h.mode_front _)
  have hBack : (near.readOver inner behind).upcoming (pre ++ piece ++ post).utf8ByteSize behind =
      back.map (·.moved (fill pre piece)) := by
    have hMoved := hStart.upcoming_eq (pre.utf8ByteSize + 1 + post.utf8ByteSize) hRigidFar
    rw [hRest, fill_add, ← String.utf8ByteSize_append] at hMoved
    have hFresh : Reader.mode {} = .code := rfl
    rw [Reader.upcoming_code hCode hFresh, hMoved, Reader.upcoming_code hFresh hFar]
  rw [readEvents_eq_upcoming, h.list_inserted, List.append_assoc, Reader.isReader.upcoming_append,
    Reader.isReader.upcoming_append, hBack, List.append_assoc]

/-- The walk through a text is the one through the text with a gap, moved, with or without the
piece. -/
theorem walkThrough_eq :
    let size := pre.utf8ByteSize + 1 + post.utf8ByteSize
    let walk := walkThrough region (gapped pre post first rest) size
    walkThrough region (readEvents (pre ++ post).utf8ByteSize (tokens none (pre ++ post)).list)
        (pre ++ post).utf8ByteSize = walk.moved (fill pre "") ∧
      walkThrough region (readEvents (pre ++ piece ++ post).utf8ByteSize
          (tokens none (pre ++ piece ++ post)).list) (pre ++ piece ++ post).utf8ByteSize =
        walk.moved (fill pre piece) := by
  intro size walk
  have hZero : ∀ piece, fill pre piece 0 = 0 := fun _ => fill_of_le (Nat.zero_le _) _
  have hRun : ∀ piece, (Walk.start region).run
      ((gapped pre post first rest).map (·.moved (fill pre piece))) =
      ((Walk.start region).run (gapped pre post first rest)).moved (fill pre piece) := by
    intro piece
    have hMoved := Walk.run_moved (.start region) (fill_monotone pre piece) (h.rigid_gapped piece)
    rwa [Walk.start_moved region (hZero piece)] at hMoved
  have hSize : ∀ piece, fill pre piece size = (pre ++ piece ++ post).utf8ByteSize := by
    intro piece
    rw [fill_add, ← String.utf8ByteSize_append]
  constructor
  · have hEnd := hSize ""
    rw [String.append_empty] at hEnd
    rw [walkThrough, h.events_eq, hRun, ← hEnd, Walk.finish_moved (fill_monotone pre "")]
    rfl
  · obtain ⟨hEvents, hFront⟩ := h.events_inserted
    have hWalk := hRun piece
    rw [gapped_eq, List.map_append, hFront, Walk.run_append, ← h.walk, ← gapped_eq] at hWalk
    rw [walkThrough, hEvents, Walk.run_append, Walk.run_append, hWalk, ← hSize piece,
      Walk.finish_moved (fill_monotone pre piece)]
    rfl

/-- The table is what it is without the piece, but for its places, and but for the text of a
parameter clause that lies across it. -/
theorem scan :
    let walk := walkThrough region (gapped pre post first rest)
      (pre.utf8ByteSize + 1 + post.utf8ByteSize)
    (Verilog.scan region none (pre ++ piece ++ post)).table.unplaced.unclaused =
        (Verilog.scan region none (pre ++ post)).table.unplaced.unclaused ∧
      ((∀ span ∈ walk.found.genericClause, span.IsBeside pre) →
        (Verilog.scan region none (pre ++ piece ++ post)).table.unplaced =
          (Verilog.scan region none (pre ++ post)).table.unplaced) := by
  intro walk
  obtain ⟨hWalk, hWalk'⟩ := h.walkThrough_eq
  obtain ⟨hEvents, hFront⟩ := h.events_inserted
  have hOld : Event.Agree (fill pre "") (pre ++ " " ++ post) (pre ++ "" ++ post)
      (gapped pre post first rest ++ [])
        ((gapped pre post first rest).map (·.moved (fill pre "")) ++ [] ++
        ([] : List Event).map (·.moved (fill pre ""))) :=
    .of_parts (by simpa using h.kept_gapped "") rfl (by simp)
  rw [List.append_nil, List.append_nil, List.map_nil, List.append_nil, ← h.events_eq,
    String.append_empty] at hOld
  have hKept := h.kept_gapped piece
  rw [gapped_eq] at hKept
  set behind := shift (pre ++ piece).utf8ByteSize rest
  have hNew := Event.Agree.of_parts hKept
    ((Reader.emittedOver_ahead {} first behind (inner ++ behind)).trans
      (congrArg (List.map (·.ahead none)) hFront).symm)
    (h.quiet _ (h.mode_front (inner ++ behind)))
  rw [← hEvents, ← gapped_eq] at hNew
  obtain ⟨hApart, hWhole⟩ := hOld.unplaced hWalk
  obtain ⟨hApart', hWhole'⟩ := hNew.unplaced hWalk'
  refine ⟨hApart'.trans hApart.symm, fun hClause => ?_⟩
  have hSlice := fun span hMem => slice_fill (hClause span hMem) "" post
  rw [String.append_empty] at hSlice
  exact (hWhole' fun span hMem => slice_fill (hClause span hMem) piece post).trans
    (hWhole hSlice).symm

end IsInserted

end Insertion

end HdlIndex.Verilog

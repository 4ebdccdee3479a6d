import HdlIndex.Proofs.Verilog.Braces
import HdlIndex.Proofs.Verilog.ClosingLabels
import HdlIndex.Proofs.Verilog.SourceOrder

/-! The text of a generate construct with braces around a single item. It is read as it is without
them, but for the places of what stands in the block and behind it. -/
namespace HdlIndex.Verilog

open String (utf8Len)

section Splitting

variable {text behind : String} {tokens rest : List Token} {opened opened' : Bool}

/-- The tokens of a text whose second part begins with white space. -/
theorem splits_append_white (h : SplitsUpTo delimiters 0 text.toList tokens opened)
    (hText : ∀ c ∈ text.toList.getLast?, Delimiter.isGap c = false)
    (hBehind : ∃ c ∈ behind.toList.head?, Delimiter.isWhite c = true)
    (hRest : SplitsUpTo delimiters 0 behind.toList rest opened') :
    SplitsUpTo delimiters 0 (text ++ behind).toList
      (tokens ++ (SplitsUpTo.bridge opened text.utf8ByteSize ++ shift text.utf8ByteSize rest.tail))
      opened' := by
  have hSize : 0 + utf8Len text.toList = text.utf8ByteSize := by
    rw [Nat.zero_add, String.utf8Len_toList]
  have hBoth := h.append_white delimiters_areBroken hText hBehind (hRest.shifted _)
  rw [← String.toList_append, hSize, ← List.map_tail] at hBoth
  exact hBoth

/-- The opening word is split off alone. -/
theorem splits_begin : SplitsUpTo delimiters 0 " begin".toList
    [.placed 0 [], .placed 0 [' '], .placed 1 "begin".toList] true := by
  have hCut : cut? delimiters " begin".toList = some ⟨[], [' '], "begin".toList⟩ := rfl
  have hWord : cut? delimiters "begin".toList = none := rfl
  exact .cut hCut (.last (by decide) hWord)

/-- And so is the closing one. -/
theorem splits_end : SplitsUpTo delimiters 0 " end".toList
    [.placed 0 [], .placed 0 [' '], .placed 1 "end".toList] true := by
  have hCut : cut? delimiters " end".toList = some ⟨[], [' '], "end".toList⟩ := rfl
  have hWord : cut? delimiters "end".toList = none := rfl
  exact .cut hCut (.last (by decide) hWord)

/-- The last character of a text is that of its last token. -/
theorem getLast?_of_proper {last : Token} (h : (Verilog.tokens none text).proper = tokens ++ [last])
    (hLast : last.text ≠ "") : text.toList.getLast? = last.text.toList.getLast? := by
  have hLossless := tokenize_isLossless delimiters none true text
  have hText : String.join ((Verilog.tokens none text).proper.map (·.text)) = text := by
    rw [Verilog.tokens, hLossless.joined, hLossless.complete rfl]
    exact Span.slice_whole text
  rw [h, List.map_append, String.join_append, List.map_singleton, String.join_cons, String.join_nil,
    String.append_empty] at hText
  rw [← hText, String.toList_append, List.getLast?_append_of_ne_nil _ (by simpa using hLast)]

end Splitting

section Parts

variable {pre item post : String} {first inner rest : List Token} {opened : Bool}

/-- The tokens of a `begin` behind a word, and those of an `end`. -/
def blockTokens (word : String) : List Token := [.placed 0 [' '], .placed 1 word.toList]

/-- The tokens of a text with an item in it, with and without a block around it, are those of its
parts. -/
structure AreParts (pre item post : String) (first inner rest : List Token)
    (opened : Bool) : Prop where
  bare : (tokens none (pre ++ item ++ post)).list = first ++ (shift pre.utf8ByteSize inner ++
    shift (pre ++ item).utf8ByteSize (SplitsUpTo.bridge opened 0 ++ rest))
  braced : (tokens none (pre ++ " begin" ++ item ++ " end" ++ post)).list =
    first ++ (shift pre.utf8ByteSize (blockTokens "begin") ++
      (shift (pre ++ " begin").utf8ByteSize inner ++
        (shift (pre ++ " begin" ++ item).utf8ByteSize (SplitsUpTo.bridge opened 0 ++
          blockTokens "end") ++ shift (pre ++ " begin" ++ item ++ " end").utf8ByteSize rest)))
  front : Contiguous 0 first pre.utf8ByteSize
  middle : Contiguous 0 inner item.utf8ByteSize
  back : Contiguous 0 rest post.utf8ByteSize
  sized : ∀ token ∈ first ++ inner ++ rest, token.isSentinel = false →
    token.span.stop = token.span.start + token.text.utf8ByteSize

theorem shift_bridge (offset : Nat) (opened : Bool) :
    shift offset (SplitsUpTo.bridge opened 0) = SplitsUpTo.bridge opened offset := by
  cases opened <;> rfl

theorem isBlank_of_mem_bridge (opened : Bool) (offset : Nat) :
    ∀ token ∈ SplitsUpTo.bridge opened offset, token.isBlank = true := by
  cases opened
  · simp [SplitsUpTo.bridge, Token.isBlank_placed]
  · simp [SplitsUpTo.bridge]

theorem contiguous_bridge (opened : Bool) (offset : Nat) :
    Contiguous offset (SplitsUpTo.bridge opened offset) offset := by
  cases opened
  · exact ⟨rfl, Nat.le_refl _, rfl⟩
  · exact rfl

theorem shift_append (offset : Nat) (tokens others : List Token) :
    shift offset (tokens ++ others) = shift offset tokens ++ shift offset others := List.map_append

theorem shift_sentinel (offset size : Nat) :
    shift offset [.sentinel size] = [.sentinel (offset + size)] := rfl

/-- In front of white space stands an empty word. -/
theorem cons_of_white {chars : List Char} {tokens : List Token} {offset : Nat}
    (h : SplitsUpTo delimiters offset chars tokens opened)
    (hWhite : ∃ c ∈ chars.head?, Delimiter.isWhite c = true) :
    tokens = .placed offset [] :: tokens.tail ∧
    Contiguous offset tokens.tail (offset + utf8Len chars) := by
  obtain ⟨c, hHead, hWhite⟩ := hWhite
  obtain ⟨rest, rfl⟩ := List.head?_eq_some_iff.1 hHead
  have hCons := (h.cons_of_endsWord (.inr (Delimiter.takeFirst?_white delimiters_areBroken hWhite
    rest))).resolve_left fun hNil => List.cons_ne_nil c rest hNil.2
  have hContiguous := h.contiguous
  rw [hCons] at hContiguous
  obtain ⟨-, -, hTail⟩ := hContiguous
  exact ⟨hCons, by simpa [Token.placed] using hTail⟩

/-- A word of the block ends the text that it is written behind. -/
theorem getLast?_blockWord (text : String) :
    (∀ c ∈ (text ++ " begin").toList.getLast?, Delimiter.isGap c = false) ∧
      ∀ c ∈ (text ++ " end").toList.getLast?, Delimiter.isGap c = false := by
  rw [String.toList_append, String.toList_append, List.getLast?_append_of_ne_nil _ (by decide),
    List.getLast?_append_of_ne_nil _ (by decide)]
  exact ⟨forall_mem_of_all (by decide), forall_mem_of_all (by decide)⟩

/-- An item that is not empty ends the text that it is written behind. -/
theorem getLast?_item (hBegins : ∃ c ∈ item.toList.head?, Delimiter.isWhite c = true)
    (hEnds : ∀ c ∈ item.toList.getLast?, Delimiter.isGap c = false) (text : String) :
    ∀ c ∈ (text ++ item).toList.getLast?, Delimiter.isGap c = false := by
  obtain ⟨c, hHead, -⟩ := hBegins
  obtain ⟨rest, hItem⟩ := List.head?_eq_some_iff.1 hHead
  rwa [String.toList_append, List.getLast?_append_of_ne_nil _ (by simp [hItem])]

section Splits

variable {second third : List Token} {opened' opened'' : Bool}
  (hPre : SplitsUpTo delimiters 0 pre.toList first opened')
  (hItem : SplitsUpTo delimiters 0 item.toList second opened)
  (hPost : SplitsUpTo delimiters 0 post.toList third opened'')
  (hLast : ∀ c ∈ pre.toList.getLast?, Delimiter.isGap c = false)
  (hBegins : ∃ c ∈ item.toList.head?, Delimiter.isWhite c = true)
  (hEnds : ∀ c ∈ item.toList.getLast?, Delimiter.isGap c = false)
  (hFollows : ∃ c ∈ post.toList.head?, Delimiter.isWhite c = true)

include hPre hItem hPost

/-- Every token of the three parts but the sentinel is as long as its text. -/
theorem sized_of_splits : ∀ token ∈ first ++ SplitsUpTo.bridge opened' pre.utf8ByteSize ++
      second.tail ++ (third.tail ++ [.sentinel post.utf8ByteSize]), token.isSentinel = false →
    token.span.stop = token.span.start + token.text.utf8ByteSize := by
  intro token hMem hWord
  simp only [List.mem_append, List.mem_singleton] at hMem
  rcases hMem with ((hFirst | hBridge) | hSecond) | hThird | rfl
  · exact stop_eq_of_mem hPre token hFirst
  · cases opened'
    · obtain rfl := List.mem_singleton.1 hBridge
      rfl
    · cases hBridge
  · exact stop_eq_of_mem hItem token (List.mem_of_mem_tail hSecond)
  · exact stop_eq_of_mem hPost token (List.mem_of_mem_tail hThird)
  · rw [Token.isSentinel_sentinel] at hWord
    cases hWord

include hLast hBegins hEnds hFollows

/-- The tokens of the text with the bare item. -/
theorem list_tokens_bare : (tokens none (pre ++ item ++ post)).list =
    first ++ SplitsUpTo.bridge opened' pre.utf8ByteSize ++ (shift pre.utf8ByteSize second.tail ++
      shift (pre ++ item).utf8ByteSize (SplitsUpTo.bridge opened 0 ++
        (third.tail ++ [.sentinel post.utf8ByteSize]))) := by
  have hBoth := splits_append_white hPre hLast hBegins hItem
  have hAll := splits_append_white hBoth (getLast?_item hBegins hEnds pre) hFollows hPost
  rw [(list_tokens hAll).1, shift_append, shift_append, shift_bridge, shift_sentinel]
  simp

/-- The tokens of the text with the item in a block. The two words of the block stand among those of
the parts, each behind a blank. -/
theorem list_tokens_braced : (tokens none (pre ++ " begin" ++ item ++ " end" ++ post)).list =
    first ++ SplitsUpTo.bridge opened' pre.utf8ByteSize ++
      (shift pre.utf8ByteSize (blockTokens "begin") ++
        (shift (pre ++ " begin").utf8ByteSize second.tail ++
          (shift (pre ++ " begin" ++ item).utf8ByteSize (SplitsUpTo.bridge opened 0 ++
            blockTokens "end") ++ shift (pre ++ " begin" ++ item ++ " end").utf8ByteSize
              (third.tail ++ [.sentinel post.utf8ByteSize])))) := by
  have hBegin := splits_append_white hPre hLast ⟨' ', rfl, rfl⟩ splits_begin
  have hBoth := splits_append_white hBegin (getLast?_blockWord pre).1 hBegins hItem
  have hEnd := splits_append_white hBoth (getLast?_item hBegins hEnds _) ⟨' ', rfl, rfl⟩ splits_end
  have hAll := splits_append_white hEnd (getLast?_blockWord _).2 hFollows hPost
  rw [(list_tokens hAll).1, shift_append, shift_append, shift_bridge, shift_sentinel]
  simp [blockTokens, SplitsUpTo.bridge]

/-- Where the text in front ends with a word and the item and the text behind begin with white
space, the tokens of both texts are those of the three parts. -/
theorem AreParts.of_splits :
    AreParts pre item post (first ++ SplitsUpTo.bridge opened' pre.utf8ByteSize) second.tail
      (third.tail ++ [.sentinel post.utf8ByteSize]) opened := by
  have hSize : ∀ text : String, 0 + utf8Len text.toList = text.utf8ByteSize := fun text => by
    rw [Nat.zero_add, String.utf8Len_toList]
  constructor
  case bare => exact list_tokens_bare hPre hItem hPost hLast hBegins hEnds hFollows
  case braced => exact list_tokens_braced hPre hItem hPost hLast hBegins hEnds hFollows
  case front =>
    have hFront := hPre.contiguous
    rw [hSize] at hFront
    exact hFront.append (contiguous_bridge opened' _)
  case middle =>
    have hMiddle := (cons_of_white hItem hBegins).2
    rwa [hSize] at hMiddle
  case back =>
    have hBack := (cons_of_white hPost hFollows).2
    rw [hSize] at hBack
    exact hBack.append ⟨rfl, Nat.le_refl _, rfl⟩
  case sized => exact sized_of_splits hPre hItem hPost

end Splits

/-- Moves what stands in the block around an item, and behind it, to where it stands without the
block. -/
def unbrace (pre item : String) (offset : Nat) : Nat :=
  relocate (pre ++ item).utf8ByteSize (pre ++ item ++ " end").utf8ByteSize
    (pre ++ item).utf8ByteSize
    (relocate pre.utf8ByteSize (pre ++ " begin").utf8ByteSize pre.utf8ByteSize offset)

theorem size_lt_begin (pre : String) : pre.utf8ByteSize < (pre ++ " begin").utf8ByteSize := by
  rw [String.utf8ByteSize_append]
  exact Nat.lt_add_of_pos_right (by decide)

theorem size_lt_end (pre : String) : pre.utf8ByteSize < (pre ++ " end").utf8ByteSize := by
  rw [String.utf8ByteSize_append]
  exact Nat.lt_add_of_pos_right (by decide)

theorem unbrace_monotone (pre item : String) : Monotone (unbrace pre item) :=
  (relocate_monotone (Nat.le_refl _) _).comp (relocate_monotone (Nat.le_refl _) _)

/-- In front of the item nothing moves. -/
theorem unbrace_of_le {offset : Nat} (h : offset ≤ pre.utf8ByteSize) (item : String) :
    unbrace pre item offset = offset := by
  rw [unbrace, relocate_of_le h, relocate_of_le]
  rw [String.utf8ByteSize_append]
  exact h.trans (Nat.le_add_right _ _)

/-- Inside of it all moves by the length of the opening word. -/
theorem unbrace_item {count : Nat} (h : count ≤ item.utf8ByteSize) (pre : String) :
    unbrace pre item ((pre ++ " begin").utf8ByteSize + count) = pre.utf8ByteSize + count := by
  rw [unbrace, relocate_add (size_lt_begin pre), relocate_of_le]
  rw [String.utf8ByteSize_append]
  exact Nat.add_le_add_left h _

/-- Offsets behind the braced item are moved back by the size of the two words and their spaces. -/
theorem unbrace_behind (pre item : String) (count : Nat) :
    unbrace pre item ((pre ++ " begin" ++ item ++ " end").utf8ByteSize + count) =
      (pre ++ item).utf8ByteSize + count := by
  have hBehind : (pre ++ " begin" ++ item ++ " end").utf8ByteSize + count =
      (pre ++ " begin").utf8ByteSize + (item.utf8ByteSize + (" end".utf8ByteSize + count)) := by
    simp only [String.utf8ByteSize_append, Nat.add_assoc]
  have hEnd : pre.utf8ByteSize + (item.utf8ByteSize + (" end".utf8ByteSize + count)) =
      (pre ++ item ++ " end").utf8ByteSize + count := by
    simp only [String.utf8ByteSize_append, Nat.add_assoc]
  rw [unbrace, hBehind, relocate_add (size_lt_begin pre), hEnd, relocate_add (size_lt_end _)]

namespace AreParts

variable (h : AreParts pre item post first inner rest opened)

include h

/-- Without the block the tokens stand where they are moved to. -/
theorem unbraced :
    first.map (·.moved (unbrace pre item)) = first ∧
      (shift (pre ++ " begin").utf8ByteSize inner).map (·.moved (unbrace pre item)) =
        shift pre.utf8ByteSize inner ∧
      ∀ tokens, (shift (pre ++ " begin" ++ item ++ " end").utf8ByteSize tokens).map
        (·.moved (unbrace pre item)) = shift (pre ++ item).utf8ByteSize tokens := by
  refine ⟨?_, ?_, fun tokens => ?_⟩
  · have hFixed : ∀ token ∈ first, token.moved (unbrace pre item) = id token := by
      intro token hMem
      have hStop := h.front.stop_le_of_mem hMem
      have hStart := (h.front.le_of_mem hMem).2.trans hStop
      rw [Token.moved, Span.moved, unbrace_of_le hStart, unbrace_of_le hStop]
      rfl
    exact (List.map_congr_left hFixed).trans (List.map_id _)
  · rw [shift, shift, List.map_map]
    refine List.map_congr_left fun token hMem => ?_
    have hStop := h.middle.stop_le_of_mem hMem
    have hStart := (h.middle.le_of_mem hMem).2.trans hStop
    simp only [Function.comp_apply, Token.moved, Span.moved, unbrace_item hStart,
      unbrace_item hStop]
  · rw [shift, shift, List.map_map]
    refine List.map_congr_left fun token _ => ?_
    simp only [Function.comp_apply, Token.moved, Span.moved, unbrace_behind]

theorem sized_item : ∀ token ∈ inner, token.isSentinel = false →
    token.span.stop = token.span.start + token.text.utf8ByteSize := fun token hMem =>
  h.sized token (List.mem_append_left _ (List.mem_append_right _ hMem))

/-- Every token is moved as a whole. -/
theorem rigid :
    (∀ token ∈ first, TokenAll (·.IsRigid (unbrace pre item)) token) ∧
      (∀ token ∈ shift (pre ++ " begin").utf8ByteSize inner,
        TokenAll (·.IsRigid (unbrace pre item)) token) ∧
      ∀ token ∈ shift (pre ++ " begin" ++ item ++ " end").utf8ByteSize
          (SplitsUpTo.bridge opened 0 ++ rest), TokenAll (·.IsRigid (unbrace pre item)) token := by
  obtain ⟨hSized, hRest⟩ := List.forall_mem_append.1 h.sized
  have hFirst := (List.forall_mem_append.1 hSized).1
  refine ⟨isRigid_of_sized hFirst fun token hMem hSize count hCount => ?_,
    isRigid_of_sized (sized_shift h.sized_item) fun token hMem hSize count hCount => ?_,
    isRigid_of_sized
      (sized_shift (List.forall_mem_append.2 ⟨?_, hRest⟩)) fun token hMem _ count _ => ?_⟩
  · have hStop := h.front.stop_le_of_mem hMem
    rw [unbrace_of_le (by omega), unbrace_of_le (by omega)]
  · have hStop := (shift_contiguous h.middle _).stop_le_of_mem hMem
    have hStart := ((shift_contiguous h.middle _).le_of_mem hMem).1
    obtain ⟨start, hStart⟩ := Nat.exists_eq_add_of_le hStart
    rw [hStart, Nat.add_zero, Nat.add_assoc, unbrace_item (by omega), unbrace_item (by omega),
      Nat.add_assoc]
  · cases opened <;> simp [SplitsUpTo.bridge, Token.placed]
  · obtain ⟨token, -, rfl⟩ := List.mem_map.1 hMem
    show unbrace pre item
      ((pre ++ " begin" ++ item ++ " end").utf8ByteSize + token.span.start + count) =
      unbrace pre item ((pre ++ " begin" ++ item ++ " end").utf8ByteSize + token.span.start) + count
    rw [Nat.add_assoc, unbrace_behind, unbrace_behind, Nat.add_assoc]

/-- The bare text is read like the braced one without the words of the block, moved. -/
theorem walkThrough_bare (region : Region)
    (hFirst : (Reader.readOver {} first []).mode = .code)
    (hInner : (Reader.readOver {} (shift (pre ++ " begin").utf8ByteSize inner) []).mode = .code) :
    let size := (pre ++ " begin" ++ item ++ " end").utf8ByteSize + post.utf8ByteSize
    let middle := shift (pre ++ " begin").utf8ByteSize inner
    let back :=
      shift (pre ++ " begin" ++ item ++ " end").utf8ByteSize (SplitsUpTo.bridge opened 0 ++ rest)
    walkThrough region
    (readEvents (pre ++ item ++ post).utf8ByteSize (tokens none (pre ++ item ++ post)).list)
        (pre ++ item ++ post).utf8ByteSize =
      (walkThrough region (Reader.emittedOver {} first (middle ++ back) ++
        (Reader.emittedOver {} middle back ++ Reader.upcoming size {} back)) size).moved
          (unbrace pre item) := by
  intro size middle back
  obtain ⟨hRigidFirst, hRigidMiddle, hRigidBack⟩ := h.rigid
  obtain ⟨hMovedFirst, hMovedMiddle, hMovedBack⟩ := h.unbraced
  have hStart : Reader.Matches (unbrace pre item) {} {} := ⟨rfl, rfl, by simp⟩
  have hSize : unbrace pre item size = (pre ++ item ++ post).utf8ByteSize := by
    rw [unbrace_behind, ← String.utf8ByteSize_append]
  have hEvents : readEvents (pre ++ item ++ post).utf8ByteSize
      (tokens none (pre ++ item ++ post)).list = (Reader.emittedOver {} first (middle ++ back) ++
        (Reader.emittedOver {} middle back ++ Reader.upcoming size {} back)).map
          (·.moved (unbrace pre item)) := by
    have hRigid : ∀ token ∈ first ++ (middle ++ back),
        TokenAll (·.IsRigid (unbrace pre item)) token := by
      rw [List.forall_mem_append, List.forall_mem_append]
      exact ⟨hRigidFirst, hRigidMiddle, hRigidBack⟩
    have hBoth := hStart.upcoming_eq size hRigid
    rw [List.map_append, List.map_append, hMovedFirst, hMovedMiddle, hMovedBack, hSize] at hBoth
    rw [readEvents_eq_upcoming, h.bare, hBoth,
      Reader.upcoming_append_code hFirst size (middle ++ back),
      Reader.upcoming_append_code hInner size back]
  have hAll : ∀ event ∈ Reader.emittedOver {} first (middle ++ back) ++
      (Reader.emittedOver {} middle back ++ Reader.upcoming size {} back),
      event.All (·.IsRigid (unbrace pre item)) := by
    have hNone := Reader.All.start (·.IsRigid (unbrace pre item))
    have hBack : Contiguous 0 (SplitsUpTo.bridge opened 0 ++ rest) post.utf8ByteSize :=
      (contiguous_bridge opened 0).append h.back
    rw [List.forall_mem_append, List.forall_mem_append]
    exact ⟨(hNone 0).emittedOver hRigidFirst h.front _,
      (hNone _).emittedOver hRigidMiddle (shift_contiguous h.middle _) _,
      (hNone _).upcoming hRigidBack (shift_contiguous hBack _) (Nat.le_refl _)
        (Word.isRigid_absent _ _)⟩
  have hRun := Walk.run_moved (.start region) (unbrace_monotone pre item) hAll
  rw [Walk.start_moved region (unbrace_of_le (Nat.zero_le _) item)] at hRun
  rw [walkThrough, hEvents, hRun, ← hSize, Walk.finish_moved (unbrace_monotone pre item)]
  rfl

end AreParts

end Parts

section Reading

variable {tokens : List Token} {token : Token} {reader : Reader} {walk : Walk}

theorem Reader.mode_read_blank (hMode : reader.mode = .code) (hBlank : token.isBlank = true)
    (rest : List Token) : (reader.read token rest).mode = .code :=
  Mode.eq_code_of_resumes (reader.read_of_passOver rest (congrArg Mode.resumes? hMode)
    (Token.passOver_blanks (by simpa using hBlank))).1

/-- In code every blank makes one filler and leaves the reader in code. -/
theorem Reader.emittedOver_blanks (hMode : reader.mode = .code)
    (hBlanks : ∀ token ∈ tokens, token.isBlank = true) (rest : List Token) :
    reader.emittedOver tokens rest = tokens.map .filler ∧
    (reader.readOver tokens rest).mode = .code := by
  induction tokens generalizing reader with
  | nil => exact ⟨rfl, hMode⟩
  | cons token tokens ih =>
      rw [List.forall_mem_cons] at hBlanks
      obtain ⟨hEvents, hAfter⟩ := ih (mode_read_blank hMode hBlanks.1 (tokens ++ rest)) hBlanks.2
      rw [emittedOver, emitted_blank hMode hBlanks.1, hEvents]
      exact ⟨rfl, hAfter⟩

/-- Behind blanks a word is read in view of what follows. -/
theorem Reader.emittedOver_word (hMode : reader.mode = .code)
    (hBlanks : ∀ token ∈ tokens, token.isBlank = true) (hBlank : token.isBlank = false)
    (hPlain : isPlainText token.text = true) (rest : List Token) :
    reader.emittedOver (tokens ++ [token]) rest =
        tokens.map .filler ++ [.word (.ofToken token) (lookAhead rest)] ∧
      (reader.readOver (tokens ++ [token]) rest).mode = .code := by
  obtain ⟨hEvents, hCode⟩ := emittedOver_blanks hMode hBlanks ([token] ++ rest)
  obtain ⟨hEmitted, hAfter⟩ := emitted_plain hCode hPlain rest
  rw [isReader.emittedOver_append, hEvents, isReader.readOver_append]
  refine ⟨?_, hAfter⟩
  rw [emittedOver, emittedOver, List.append_nil, List.nil_append, hEmitted, hBlank,
    if_neg Bool.false_ne_true]

/-- Between items blanks are nothing. -/
theorem Walk.run_fillersInModule (h : walk.place = .moduleBody) (tokens : List Token) :
    walk.run (tokens.map .filler) = walk := by
  induction tokens with
  | nil => rfl
  | cons token tokens ih =>
      have hStep : walk.step (.filler token) = walk := by
        rw [step, h]
        exact congrArg (fun place => ({ walk with place } : Walk)) h.symm
      rw [List.map_cons, run, List.foldl_cons, hStep]
      exact ih

end Reading

/-- The text is one item of a module's body, with white space in front of it. -/
structure IsLoneItem (item : String) : Prop where
  begins : item.toList.head?.any Delimiter.isWhite = true
  ends : item.toList.getLast?.all (! Delimiter.isGap ·) = true
  code : (Reader.readAll {} (tokens none item).proper).mode = .code
  first : (lookAhead (tokens none item).proper).any
    (fun first => first.symbol != .keyword .begin && first.symbol != .colon) = true
  reads : Walk.beforeItem.readsItem (Reader.readAll {} (tokens none item).proper).events.toList =
    true

/-- What an item looks for behind its last word. -/
def soughtByItem (item : String) : List Symbol :=
  Walk.beforeItem.sought (Reader.readAll {} (tokens none item).proper).events.toList []

namespace IsLoneItem

variable {item : String} {inner : List Token} (h : IsLoneItem item)
  (hProper : (tokens none item).proper = .placed 0 [] :: inner)

include h hProper

/-- The empty word in front of the white space is nothing. -/
theorem events_eq :
    (Reader.readAll {} (tokens none item).proper).events.toList =
        .filler (.placed 0 []) :: Reader.emittedOver {} inner [] ∧
      (Reader.readOver {} inner []).mode = .code := by
  have hFresh : Reader.mode {} = .code := rfl
  have hEmpty : (Token.placed 0 []).isBlank = true := Token.isBlank_placed 0 []
  have hRead := Reader.mode_read_blank hFresh hEmpty (inner ++ [])
  have hAll : (Reader.readAll {} (tokens none item).proper).events.toList =
      Reader.emittedOver {} (tokens none item).proper [] := by
    rw [Reader.isReader.readAll_eq_readOver, Reader.isReader.emittedOver_eq]
    rfl
  have hMode := h.code
  rw [hProper, Reader.isReader.readAll_eq_readOver, Reader.readOver,
    Reader.mode_readOver_code hRead hFresh] at hMode
  refine ⟨?_, hMode⟩
  rw [hAll, hProper, Reader.emittedOver, Reader.emitted_blank hFresh hEmpty,
    Reader.emittedOver_code hRead hFresh]
  rfl

/-- The item is read wherever it stands. -/
theorem reads_shift (hMiddle : Contiguous 0 inner item.utf8ByteSize)
    (hSized : ∀ token ∈ inner, token.isSentinel = false →
      token.span.stop = token.span.start + token.text.utf8ByteSize) (offset : Nat) :
    let events := Reader.emittedOver {} (shift offset inner) []
    Walk.beforeItem.readsItem events = true ∧ Walk.beforeItem.sought events [] = soughtByItem item ∧
      (Reader.readOver {} (shift offset inner) []).mode = .code := by
  intro events
  obtain ⟨hEvents, hCode⟩ := h.events_eq hProper
  have hRigid : ∀ token ∈ inner, TokenAll (·.IsRigid (offset + ·)) token :=
    isRigid_of_sized hSized fun token _ _ count _ => (Nat.add_assoc _ _ _).symm
  have hStart : Reader.Matches (offset + ·) {} {} := ⟨rfl, rfl, by simp⟩
  have hMoved : events = (Reader.emittedOver {} inner []).map (·.moved (offset + ·)) :=
    hStart.emittedOver_eq hRigid (Reader.Sees.nil _ _)
  have hMode := (hStart.readOver hRigid (Reader.Sees.nil _ _)).mode
  have hAll : ∀ event ∈ Reader.emittedOver {} inner [], event.All (·.IsRigid (offset + ·)) :=
    (Reader.All.start _ 0).emittedOver hRigid hMiddle []
  have hBefore : Walk.beforeItem.All (·.IsRigid (offset + ·)) (fun _ => True) := ⟨trivial, .empty⟩
  obtain ⟨hReads, hSought⟩ :=
    Walk.readsItem_moved hBefore (fun _ _ hLe => Nat.add_le_add_left hLe _) hAll
  have hSame : Walk.beforeItem.moved (offset + ·) = Walk.beforeItem := by
    simp [Walk.beforeItem, Walk.moved, Place.moved, Findings.moved, Words.moved, Declarations.moved,
      ClockedSignals.moved]
  have hFiller : Walk.beforeItem.step (.filler (.placed 0 [])) = Walk.beforeItem :=
    Walk.step_empty rfl
  have hItem := h.reads
  rw [hEvents, Walk.readsItem, hFiller, Bool.and_eq_true] at hItem
  rw [hSame] at hReads hSought
  refine ⟨?_, ?_, ?_⟩
  · rw [hMoved, hReads]
    exact hItem.2
  · rw [hMoved, hSought, soughtByItem, hEvents, Walk.sought, hFiller]
    rfl
  · rw [hCode] at hMode
    exact hMode

/-- Its first word is seen in front of it. -/
theorem isNext_shift (offset : Nat) (rest : List Token) (symbol : Symbol) :
    Walk.isNext (lookAhead (shift offset inner ++ rest)) symbol =
      Walk.isNext (lookAhead (tokens none item).proper) symbol := by
  have hProperAhead : lookAhead (tokens none item).proper = lookAhead inner := by
    rw [hProper, lookAhead_blank (Token.isBlank_placed 0 [])]
  have hNext : Token.nextSignificant comments none (shift offset inner ++ rest) =
      Token.nextSignificant comments none (shift offset inner) := by
    refine Token.nextSignificant_append_of_not_passOver ?_ rest
    rw [shift, Token.passOver_moved]
    cases hPass : Token.passOver comments none inner with
    | none => rfl
    | some after =>
        -- A text that is passed over has no first word.
        have hFirst := h.first
        have hNone := Token.nextSignificant_append_of_passOver hPass []
        have hNil : Token.nextSignificant comments after [] = none := by cases after <;> rfl
        rw [List.append_nil, hNil] at hNone
        rw [hProperAhead, lookAhead, hNone] at hFirst
        cases hFirst
  rw [hProperAhead, lookAhead, hNext]
  exact (congrArg (Walk.isNext · symbol) (lookAhead_shift offset inner)).trans
    (isNext_moved _ symbol)

end IsLoneItem

/-- The text ends with the word in front of a branch, and is read as such. -/
structure OpensBranch (region : Region) (text word : String) : Prop where
  last : (tokens none text).proper.getLast?.map (·.text) = some word
  code : (Reader.readAll {} (tokens none text).proper.dropLast).mode = .code
  opens : (walkBefore region text).opensBranch word = true

/-- Behind an item there is white space, and then no word that the item or an `end` takes to
itself. -/
structure MayFollow (item post : String) : Prop where
  begins : post.toList.head?.any Delimiter.isWhite = true
  apart : ∀ symbol ∈ .colon :: soughtByItem item,
    Walk.isNext (lookAhead (tokens none post).list) symbol = false

/-- A branch opens behind a condition, behind a choice or behind `else`. -/
theorem Walk.opensBranch_word {walk : Walk} {word : String} (h : walk.opensBranch word = true) :
    word = ")" ∨ word = ":" ∨ word = "else" := by
  rw [opensBranch, Bool.and_eq_true] at h
  obtain ⟨-, hOpens⟩ := h
  split at hOpens <;> simp_all

/-- No word looks for an `end`. -/
theorem Walk.end_notMem_seeks (walk : Walk) (here : Lexeme) : .keyword .end ∉ walk.seeks here := by
  unfold seeks seeksItem Block.seeks
  repeat' split
  all_goals simp

/-- No reader of the walk looks for an `end`, so that one that stands ahead is not seen. -/
theorem Walk.end_notMem_sought {walk : Walk} {events : List Event} {symbols : List Symbol}
    (h : .keyword .end ∉ symbols) : .keyword .end ∉ walk.sought events symbols := by
  induction events generalizing walk symbols with
  | nil => exact h
  | cons event events ih =>
      apply ih
      cases event with
      | comment span => exact h
      | filler token =>
          rw [seeksBehind]
          split
          · exact h
          · simp
      | word here next => exact walk.end_notMem_seeks here
      | _ => simp [seeksBehind]

section Branch

variable {region : Region} {pre item post word : String}

/-- The parts of a text with a branch. -/
theorem OpensBranch.exists_parts (hPre : OpensBranch region pre word) (hItem : IsLoneItem item)
    (hPost : MayFollow item post) :
    ∃ lead last opened inner rest opened',
      AreParts pre item post (lead ++ [last] ++
        SplitsUpTo.bridge opened pre.utf8ByteSize) inner rest opened' ∧
        SplitsUpTo delimiters 0 pre.toList (lead ++ [last]) opened ∧ last.text = word ∧
        (Reader.readOver {} lead []).mode = .code ∧
        (tokens none item).proper = .placed 0 [] :: inner ∧
        lookAhead rest = lookAhead (tokens none post).list := by
  obtain ⟨first, opened, hFirst⟩ := SplitsUpTo.total delimiters 0 pre.toList
  obtain ⟨second, opened', hSecond⟩ := SplitsUpTo.total delimiters 0 item.toList
  obtain ⟨third, opened'', hThird⟩ := SplitsUpTo.total delimiters 0 post.toList
  have hWord := hPre.last
  have hCode := hPre.code
  rw [proper_tokens hFirst] at hWord hCode
  obtain rfl | ⟨lead, last, rfl⟩ := List.eq_nil_or_concat' first
  · cases hWord
  rw [List.getLast?_concat, Option.map_some, Option.some_inj] at hWord
  rw [List.dropLast_concat, Reader.isReader.readAll_eq_readOver] at hCode
  have hLast : ∀ c ∈ pre.toList.getLast?, Delimiter.isGap c = false := by
    rcases Walk.opensBranch_word hPre.opens with rfl | rfl | rfl
    all_goals
      rw [getLast?_of_proper (proper_tokens hFirst) (by rw [hWord]; decide), hWord]
      exact forall_mem_of_all (by decide)
  have hBegins := Option.any_eq_true _ _ |>.1 hItem.begins
  have hFollows := Option.any_eq_true _ _ |>.1 hPost.begins
  have hEnds : ∀ c ∈ item.toList.getLast?, Delimiter.isGap c = false := forall_mem_of_all hItem.ends
  have hParts := AreParts.of_splits hFirst hSecond hThird hLast hBegins hEnds hFollows
  have hProper : (tokens none item).proper = .placed 0 [] :: second.tail :=
    (proper_tokens hSecond).trans (cons_of_white hSecond hBegins).1
  obtain ⟨c, hHead, hWhite⟩ := hFollows
  obtain ⟨chars, hPost⟩ := List.head?_eq_some_iff.1 hHead
  have hAhead :=
    (rest_of_endsWord (.inr (hPost ▸ Delimiter.takeFirst?_white delimiters_areBroken hWhite chars))
      hThird).2.1
  exact ⟨lead, last, opened, _, _, opened', hParts, hFirst, hWord, hCode, hProper, hAhead⟩

variable {lead inner rest : List Token} {last : Token} {opened opened' : Bool}

/-- Up to the branch both texts are read alike, but for the word that is ahead. -/
theorem run_first (region : Region)
    (hSplits : SplitsUpTo delimiters 0 pre.toList (lead ++ [last]) opened)
    (hCode : (Reader.readOver {} lead []).mode = .code) (hPlain : isPlainText last.text = true)
    (hBlank : last.isBlank = false) (behind : List Token) :
    let first := lead ++ [last] ++ SplitsUpTo.bridge opened pre.utf8ByteSize
    (Walk.start region).run (Reader.emittedOver {} first behind) =
        (walkBefore region pre).step (.word (.ofToken last) (lookAhead behind)) ∧
      (Reader.readOver {} first []).mode = .code := by
  intro first
  set bridge := SplitsUpTo.bridge opened pre.utf8ByteSize with hBridge
  have hBlanks : ∀ token ∈ bridge, token.isBlank = true := isBlank_of_mem_bridge opened _
  have hMode := fun rest => (run_before hSplits hCode hPlain hBlank region (bridge ++ rest)).2
  have hFillers := fun rest => Reader.emittedOver_blanks (hMode rest) hBlanks rest
  have hAhead : lookAhead (bridge ++ behind) = lookAhead behind := by
    cases opened
    · exact lookAhead_blank (Token.isBlank_placed _ _) behind
    · rfl
  have hNothing : ∀ walk : Walk, walk.run (bridge.map .filler) = walk := by
    intro walk
    cases opened
    · exact Walk.step_empty rfl
    · rfl
  constructor
  · rw [Reader.isReader.emittedOver_append, Walk.run_append, (hFillers behind).1, hNothing,
      (run_before hSplits hCode hPlain hBlank region _).1, hAhead]
  · rw [Reader.isReader.readOver_append]
    exact (hFillers []).2

/-- The tokens in front of a word of the block and the word itself. -/
structure IsBlockWord (word : String) (tokens : List Token) (token : Token) : Prop where
  blanks : ∀ token ∈ tokens, token.isBlank = true
  text : token.text = word
  plain : isPlainText word = true
  solid : word.toList.all Text.isAsciiBlank = false

/-- The tokens in front of a word of the block, at an offset. In front of them an empty word may
stand. -/
def blockBlanks (offset : Nat) (opened : Bool) : List Token :=
  shift offset (SplitsUpTo.bridge opened 0 ++ [.placed 0 [' ']])

/-- The word of the block there. -/
def blockWord (offset : Nat) (word : String) : Token :=
  (Token.placed 1 word.toList).moved (offset + ·)

theorem shift_blockTokens (offset : Nat) (opened : Bool) (word : String) :
    shift offset (SplitsUpTo.bridge opened 0 ++ blockTokens word) =
      blockBlanks offset opened ++ [blockWord offset word] := by
  cases opened <;> rfl

/-- A plain word between spaces makes a token of its own, with blanks and empty tokens in front of
it. -/
theorem isBlockWord_blockWord (word : String) (offset : Nat) (opened : Bool)
    (hPlain : isPlainText word = true) (hSolid : word.toList.all Text.isAsciiBlank = false) :
    IsBlockWord word (blockBlanks offset opened) (blockWord offset word) where
  blanks token hMem := by
    obtain ⟨placed, hPlaced, rfl⟩ := List.mem_map.1 hMem
    rw [Token.isBlank_moved]
    rcases List.mem_append.1 hPlaced with hBridge | hSpace
    · exact isBlank_of_mem_bridge opened 0 placed hBridge
    · obtain rfl := List.mem_singleton.1 hSpace
      rfl
  text := String.ofList_toList
  plain := hPlain
  solid := hSolid

namespace IsBlockWord

variable {walk : Walk} {blanks : List Token} {token : Token}

theorem isBlank (h : IsBlockWord word blanks token) : token.isBlank = false := by
  rw [Token.isBlank, h.text]
  exact h.solid

/-- What is seen ahead of a block word and blanks is that word. -/
theorem lookAhead (h : IsBlockWord word blanks token) (behind : List Token) :
    Verilog.lookAhead (blanks ++ [token] ++ behind) = some (.ofToken token) := by
  rw [List.append_assoc, Verilog.lookAhead, Token.nextSignificant_append_of_passOver
    (Token.passOver_blanks h.blanks)]
  exact lookAhead_plain h.isBlank (h.text ▸ h.plain) behind

/-- It is read as one word behind blanks, in code. -/
theorem emittedOver (h : IsBlockWord word blanks token) (behind : List Token) :
    Reader.emittedOver {} (blanks ++ [token]) behind =
        blanks.map .filler ++ [.word (.ofToken token) (Verilog.lookAhead behind)] ∧
      (Reader.readOver {} (blanks ++ [token]) behind).mode = .code :=
  Reader.emittedOver_word rfl h.blanks h.isBlank (h.text ▸ h.plain) behind

/-- Between items the walk takes the word only. -/
theorem run (h : IsBlockWord word blanks token) (hPlace : walk.place = .moduleBody)
    (behind : List Token) :
    walk.run (Reader.emittedOver {} (blanks ++ [token]) behind) =
      walk.step (.word (.ofToken token) (Verilog.lookAhead behind)) := by
  rw [(h.emittedOver behind).1, Walk.run_append, Walk.run_fillersInModule hPlace]
  rfl

end IsBlockWord

/-- Behind the block the walk is where it is behind the item without the block. -/
theorem alike_braces {walk : Walk} {here : Lexeme} {next next' : Option Lexeme}
    {opening closing : Token} {blanks blanks' behind behind' : List Token}
    (hWalk : walk.opensBranch word = true) (hHere : here.symbol = Symbol.ofText word)
    (hBare : Walk.isNext next (.keyword .begin) = false)
    (hBegin : Walk.isNext next' (.keyword .begin) = true)
    (hChain : word = "else" → Walk.isNext next (.keyword .if) = false)
    (hOpening : IsBlockWord "begin" blanks opening) (hClosing : IsBlockWord "end" blanks' closing)
    (hReads : Walk.beforeItem.readsItem (Reader.emittedOver {} inner []) = true)
    (hCode : (Reader.readOver {} inner []).mode = .code)
    (hColon : Walk.isNext (lookAhead (inner ++ (blanks' ++ [closing] ++ behind))) .colon = false)
    (hBehind : ∀ symbol ∈ .colon :: Walk.beforeItem.sought (Reader.emittedOver {} inner []) [],
      Walk.isNext (lookAhead behind) symbol = false ∧
      Walk.isNext (lookAhead behind') symbol = false) :
    Walk.Alike True Eq
      ((walk.step (.word here next)).run (Reader.emittedOver {} inner behind'))
      ((((walk.step (.word here next')).run
        (Reader.emittedOver {} (blanks ++ [opening]) (inner ++
          (blanks' ++ [closing] ++ behind)))).run
        (Reader.emittedOver {} inner (blanks' ++ [closing] ++ behind))).run
        (Reader.emittedOver {} (blanks' ++ [closing]) behind)) := by
  have hAt := Walk.step_opener hWalk hHere hBare hBegin hChain
  set bare := walk.step (.word here next)
  set braced := walk.step (.word here next')
  have hPlace : braced.place = .moduleBody := hAt.place.2
  have hBeginWord : (Lexeme.ofToken opening).symbol = .keyword .begin :=
    Lexeme.symbol_ofToken hOpening.text
  have hEndWord : (Lexeme.ofToken closing).symbol = .keyword .end :=
    Lexeme.symbol_ofToken hClosing.text
  obtain ⟨notes, hOpened⟩ := Walk.step_begin hPlace hAt.label hBeginWord hColon
  rw [hOpening.run hPlace, hOpened]
  obtain ⟨hInside, hIdle, hAlike, hSought⟩ := (hAt.renoted notes).run hReads
  have hItem : bare.run (Reader.emittedOver {} inner behind') =
      bare.run (Reader.emittedOver {} inner []) := by
    refine Walk.run_sought [] hCode fun symbol hMem => ?_
    rw [(hSought []).1] at hMem
    exact ((hBehind symbol (List.mem_cons_of_mem _ hMem)).2).symm
  have hItem' : ({ braced.openBlock with notes } : Walk).run
      (Reader.emittedOver {} inner (blanks' ++ [closing] ++ behind)) =
        ({ braced.openBlock with notes } : Walk).run (Reader.emittedOver {} inner []) := by
    refine Walk.run_sought [] hCode fun symbol hMem => ?_
    have hEnd : Walk.isNext (some (.ofToken closing)) (.keyword .end) = true :=
      decide_eq_true hEndWord
    rw [hClosing.lookAhead]
    refine (Walk.isNext_of_ne hEnd fun hEnd => ?_).symm
    rw [← hEnd] at hMem
    exact Walk.end_notMem_sought List.not_mem_nil hMem
  rw [hItem, hItem', hClosing.run hInside]
  obtain ⟨note, hClosed⟩ :=
    Walk.step_end hInside hIdle hEndWord (hBehind .colon List.mem_cons_self).1
  rw [hClosed]
  exact hAlike note

/-- Walks that are alike in front of the rest of a text find the same. -/
theorem Walk.Alike.found_finish {walk other : Walk} (h : Walk.Alike True Eq walk other)
    (events : List Event) (size : Nat) :
    ((other.run events).finish size).found = ((walk.run events).finish size).found := by
  have hAll : ∀ item ∈ walk.flushes events, (fun _ : Item => True) item := fun _ _ => trivial
  exact ((h.run Walk.isKept_eq hAll).finish Walk.isKept_eq size fun _ _ => trivial).found.symm

/-- The empty word that a bridge may be is read as nothing. -/
theorem Walk.run_bridge (walk : Walk) (opened : Bool) (offset size : Nat) (rest : List Token) :
    walk.run (Reader.upcoming size {} (SplitsUpTo.bridge opened offset ++ rest)) =
      walk.run (Reader.upcoming size {} rest) := by
  have hFresh : Reader.mode {} = .code := rfl
  have hBlanks := isBlank_of_mem_bridge opened offset
  have hRead := fun rest => Reader.emittedOver_blanks hFresh hBlanks rest
  rw [Reader.upcoming_append_code (hRead []).2, Walk.run_append, (hRead rest).1]
  cases opened
  · exact congrArg (Walk.run · _) (Walk.step_empty rfl)
  · rfl

/-- The word in front of a branch is a plain one. -/
theorem OpensBranch.isPlain (h : OpensBranch region pre word) (hLast : last.text = word) :
    isPlainText last.text = true ∧ last.isBlank = false := by
  rw [Token.isBlank, hLast]
  rcases Walk.opensBranch_word h.opens with rfl | rfl | rfl <;> decide

/-- An item that stands alone begins neither with `begin` nor with a colon. -/
theorem IsLoneItem.isNext_proper (hItem : IsLoneItem item) :
    Walk.isNext (lookAhead (tokens none item).proper) (.keyword .begin) = false ∧
      Walk.isNext (lookAhead (tokens none item).proper) .colon = false := by
  obtain ⟨ahead, hAhead, hBegins⟩ := (Option.any_eq_true _ _).1 hItem.first
  rw [Option.mem_def.1 hAhead]
  simpa [Walk.isNext] using hBegins

/-- What the item looks for is not seen behind it, with or without the empty word in between. -/
theorem MayFollow.apart_shift (hPost : MayFollow item post)
    (hAhead : lookAhead rest = lookAhead (tokens none post).list) (opened' : Bool)
    (offset : Nat) :
    ∀ symbol ∈ .colon :: soughtByItem item,
      Walk.isNext (lookAhead (shift offset rest)) symbol = false ∧
        Walk.isNext (lookAhead (SplitsUpTo.bridge opened' offset ++ shift offset rest)) symbol =
          false := by
  intro symbol hMem
  have hRest : Walk.isNext (lookAhead (shift offset rest)) symbol = false := by
    rw [lookAhead_shift, isNext_moved, hAhead]
    exact hPost.apart symbol hMem
  refine ⟨hRest, ?_⟩
  cases opened'
  · exact (congrArg (Walk.isNext · symbol) (lookAhead_blank (Token.isBlank_placed _ _) _)).trans
      hRest
  · exact hRest

/-- The text with the block is read up to the branch, then the `begin`, the item, the `end` and the
rest. -/
theorem AreParts.run_braced (region : Region)
    (hParts : AreParts pre item post first inner rest opened')
    (hFirst : (Reader.readOver {} first []).mode = .code)
    (hInner : (Reader.readOver {} (shift (pre ++ " begin").utf8ByteSize inner) []).mode = .code) :
    let size := (pre ++ " begin" ++ item ++ " end").utf8ByteSize + post.utf8ByteSize
    let middle := shift (pre ++ " begin").utf8ByteSize inner
    let rest' := shift (pre ++ " begin" ++ item ++ " end").utf8ByteSize rest
    let opening := blockBlanks pre.utf8ByteSize true ++ [blockWord pre.utf8ByteSize "begin"]
    let closing := blockBlanks (pre ++ " begin" ++ item).utf8ByteSize opened' ++
      [blockWord (pre ++ " begin" ++ item).utf8ByteSize "end"]
    (Walk.start region).run (readEvents (pre ++ " begin" ++ item ++ " end" ++ post).utf8ByteSize
        (tokens none (pre ++ " begin" ++ item ++ " end" ++ post)).list) =
      (((((Walk.start region).run
        (Reader.emittedOver {} first (opening ++ (middle ++ (closing ++ rest'))))).run
        (Reader.emittedOver {} opening (middle ++ (closing ++ rest')))).run
        (Reader.emittedOver {} middle (closing ++ rest'))).run
        (Reader.emittedOver {} closing rest')).run (Reader.upcoming size {} rest') := by
  intro size middle rest' opening closing
  have hOpening :=
    isBlockWord_blockWord "begin" pre.utf8ByteSize true (by decide) (by decide)
  have hClosing :=
    isBlockWord_blockWord "end" (pre ++ " begin" ++ item).utf8ByteSize opened' (by decide)
      (by decide)
  have hBraced : (tokens none (pre ++ " begin" ++ item ++ " end" ++ post)).list =
      first ++ (opening ++ (middle ++ (closing ++ rest'))) := by
    rw [hParts.braced, shift_blockTokens]
    rfl
  have hSize : (pre ++ " begin" ++ item ++ " end" ++ post).utf8ByteSize = size :=
    String.utf8ByteSize_append
  rw [readEvents_eq_upcoming, hBraced, hSize, Reader.upcoming_append_code hFirst,
    Walk.run_append, Reader.upcoming_append_code (hOpening.emittedOver []).2, Walk.run_append,
    Reader.upcoming_append_code hInner, Walk.run_append,
    Reader.upcoming_append_code (hClosing.emittedOver []).2, Walk.run_append]

/-- With and without the block the text is read up to the branch, through the item and on from there
alike. -/
theorem OpensBranch.alike (hPre : OpensBranch region pre word) (hItem : IsLoneItem item)
    (hPost : MayFollow item post)
    (hChain : word = "else" →
      Walk.isNext (lookAhead (tokens none item).proper) (.keyword .if) = false)
    (hParts : AreParts pre item post (lead ++ [last] ++
      SplitsUpTo.bridge opened pre.utf8ByteSize) inner rest opened')
    (hSplits : SplitsUpTo delimiters 0 pre.toList (lead ++ [last]) opened)
    (hLast : last.text = word) (hCode : (Reader.readOver {} lead []).mode = .code)
    (hProper : (tokens none item).proper = .placed 0 [] :: inner)
    (hAhead : lookAhead rest = lookAhead (tokens none post).list) :
    let size := (pre ++ " begin" ++ item ++ " end").utf8ByteSize + post.utf8ByteSize
    let first := lead ++ [last] ++ SplitsUpTo.bridge opened pre.utf8ByteSize
    let middle := shift (pre ++ " begin").utf8ByteSize inner
    let rest' := shift (pre ++ " begin" ++ item ++ " end").utf8ByteSize rest
    let back := SplitsUpTo.bridge opened' (pre ++ " begin" ++ item ++ " end").utf8ByteSize ++ rest'
    ∃ walk other : Walk, Walk.Alike True Eq walk other ∧
      (Walk.start region).run (Reader.emittedOver {} first (middle ++ back) ++
        (Reader.emittedOver {} middle back ++ Reader.upcoming size {} back)) =
          walk.run (Reader.upcoming size {} rest') ∧
      (Walk.start region).run (readEvents (pre ++ " begin" ++ item ++ " end" ++ post).utf8ByteSize
        (tokens none (pre ++ " begin" ++ item ++ " end" ++ post)).list) =
          other.run (Reader.upcoming size {} rest') := by
  intro size first middle rest' back
  obtain ⟨hPlain, hBlank⟩ := hPre.isPlain hLast
  obtain ⟨hReads, hSought, hInner⟩ :=
    hItem.reads_shift hProper hParts.middle hParts.sized_item (pre ++ " begin").utf8ByteSize
  have hFirst := run_first region hSplits hCode hPlain hBlank
  have hNext := fun behind => hItem.isNext_shift hProper (pre ++ " begin").utf8ByteSize behind
  have hRest := hPost.apart_shift hAhead opened' (pre ++ " begin" ++ item ++ " end").utf8ByteSize
  have hOpening := isBlockWord_blockWord "begin" pre.utf8ByteSize true (by decide) (by decide)
  have hClosing :=
    isBlockWord_blockWord "end" (pre ++ " begin" ++ item).utf8ByteSize opened' (by decide)
      (by decide)
  have hBegin : ∀ behind, Walk.isNext (lookAhead (blockBlanks pre.utf8ByteSize true ++
      [blockWord pre.utf8ByteSize "begin"] ++ behind)) (.keyword .begin) = true := fun behind => by
    rw [hOpening.lookAhead]
    exact decide_eq_true (Lexeme.symbol_ofToken hOpening.text)
  have hAlike :=
    alike_braces hPre.opens (Lexeme.symbol_ofToken hLast)
      ((hNext back _).trans hItem.isNext_proper.1)
      (hBegin (middle ++ (blockBlanks (pre ++ " begin" ++ item).utf8ByteSize opened' ++
        [blockWord (pre ++ " begin" ++ item).utf8ByteSize "end"] ++ rest')))
      (fun hElse => (hNext back _).trans (hChain hElse)) hOpening hClosing hReads hInner
      ((hNext _ _).trans hItem.isNext_proper.2) (by rw [hSought]; exact hRest)
  refine ⟨_, _, hAlike, ?_, ?_⟩
  · rw [Walk.run_append, (hFirst _).1, Walk.run_append, Walk.run_bridge]
  · rw [hParts.run_braced region (hFirst []).2 hInner, (hFirst _).1]

/-- Braces around a single item of a generate construct change the places of what is found only. -/
theorem scan_braces (hPre : OpensBranch region pre word) (hItem : IsLoneItem item)
    (hPost : MayFollow item post)
    (hChain : word = "else" →
      Walk.isNext (lookAhead (tokens none item).proper) (.keyword .if) = false) :
    (scan region none (pre ++ " begin" ++ item ++ " end" ++ post)).table.toFindings.unplaced =
      (scan region none (pre ++ item ++ post)).table.toFindings.unplaced := by
  obtain ⟨lead, last, opened, inner, rest, opened', hParts, hSplits, hLast, hCode,
    hProper, hAhead⟩ :=
    hPre.exists_parts hItem hPost
  obtain ⟨walk, other, hAlike, hBare, hBraced⟩ :=
    hPre.alike hItem hPost hChain hParts hSplits hLast hCode hProper hAhead
  have hSize : (pre ++ " begin" ++ item ++ " end" ++ post).utf8ByteSize =
      (pre ++ " begin" ++ item ++ " end").utf8ByteSize + post.utf8ByteSize :=
      String.utf8ByteSize_append
  obtain ⟨hPlain, hBlank⟩ := hPre.isPlain hLast
  have hFirst := (run_first region hSplits hCode hPlain hBlank []).2
  have hInner :=
    (hItem.reads_shift hProper hParts.middle hParts.sized_item (pre ++ " begin").utf8ByteSize).2.2
  rw [toFindings_scan, toFindings_scan, hParts.walkThrough_bare region hFirst hInner, walkThrough,
    walkThrough, hBraced, shift_append, shift_bridge, hBare, hSize, hAlike.found_finish]
  exact (Findings.unplaced_moved _ _).symm

/-- The item of a loop, whose text keeps its table in a block. -/
theorem scan_braces_loop :
    let pre := "if (A) begin b u (c); end else"
    let item := " for (;;) always @(posedge clk) if (r) q <= d; else q <= e;"
    let post := " wire w;"
    (OpensBranch .moduleBody pre "else" ∧ IsLoneItem item ∧ MayFollow item post ∧
      Walk.isNext (lookAhead (tokens none item).proper) (.keyword .if) = false) ∧
      (scan .moduleBody none (pre ++ " begin" ++ item ++ " end" ++
        post)).table.toFindings.unplaced =
        (scan .moduleBody none (pre ++ item ++ post)).table.toFindings.unplaced := by
  intro pre item post
  have hPre : OpensBranch .moduleBody pre "else" := by
    constructor
    case opens => rw [walkBefore, tokens_computed]; decide +kernel
    all_goals rw [tokens_computed]; decide +kernel
  have hItem : IsLoneItem item := by
    constructor
    case begins | ends => decide +kernel
    all_goals rw [tokens_computed]; decide +kernel
  have hPost : MayFollow item post := by
    constructor
    case begins => decide +kernel
    rw [soughtByItem, tokens_computed, tokens_computed]; decide +kernel
  have hChain : Walk.isNext (lookAhead (tokens none item).proper) (.keyword .if) = false := by
    rw [tokens_computed]; decide +kernel
  exact ⟨⟨hPre, hItem, hPost, hChain⟩, scan_braces hPre hItem hPost fun _ => hChain⟩

/-- Without braces an `else` behind an always block belongs to the block, and not to the `if` around
it. -/
theorem scan_braces_else :
    (scan .moduleBody none ("if (A)" ++ " begin" ++ " always @(posedge k) q <= d;" ++ " end" ++
        " else always @(posedge k) r <= e;")).table.toFindings.unplaced ≠
      (scan .moduleBody none ("if (A)" ++ " always @(posedge k) q <= d;" ++
        " else always @(posedge k) r <= e;")).table.toFindings.unplaced := by
  rw [scan_computed, scan_computed]
  decide +kernel

end Branch

end HdlIndex.Verilog

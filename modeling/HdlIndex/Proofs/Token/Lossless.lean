import HdlIndex.Proofs.Text.Cover
import HdlIndex.Proofs.Token.Matches
import HdlIndex.Token.Split

/-! Splitting loses nothing and is canonical. The loop of `splitFrom` is related to the tokens it
adds, one constructor for each way a round can end, and all facts are inductions on that relation.
Offsets are tied to the text by what stands before them, so that no step counts bytes of its own. -/
namespace HdlIndex

open String (utf8Len)

/-- What a cut is made of. No delimiter matches at a character of the word, wherever the matching
ends, and the first one that matches behind the word takes the whole delimiter. -/
theorem cutFrom?_eq_some {delimiters : List Delimiter} {before chars : List Char} {cut : Cut}
    (h : cutFrom? delimiters before chars = some cut) :
    ∃ word, cut.word = before.reverse ++ word ∧
      chars = word ++ (cut.delimiter ++ cut.rest) ∧
      (∀ passed more, word = passed ++ more → more ≠ [] →
        Delimiter.takeFirst? delimiters (more ++ (cut.delimiter ++ cut.rest)) = none) ∧
      Delimiter.takeFirst? delimiters (cut.delimiter ++ cut.rest) =
        some cut.delimiter.length := by
  induction chars generalizing before with
  | nil => simp [cutFrom?] at h
  | cons c chars ih =>
      rw [cutFrom?] at h
      split at h
      · next count hFound =>
        obtain ⟨_, delimiter, _, -, -, hTake⟩ := Delimiter.takeFirst?_eq_some hFound
        obtain ⟨piece, rest, hChars, rfl, -⟩ := Delimiter.matches_of_take? hTake
        cases h
        rw [hChars] at hFound ⊢
        refine ⟨[], by simp, by simp, fun passed more hWord hMore => ?_, by simpa using hFound⟩
        exact absurd (List.append_eq_nil_iff.1 hWord.symm).2 hMore
      · next hNone =>
        obtain ⟨word, hWord, hChars, hClear, hFound⟩ := ih h
        refine ⟨c :: word, by simp [hWord], by simp [hChars], ?_, hFound⟩
        intro passed more hParts hMore
        cases passed with
        | nil =>
            obtain rfl : more = c :: word := hParts.symm
            simpa [hChars] using hNone
        | cons d passed =>
            simp only [List.cons_append, List.cons.injEq] at hParts
            exact hClear passed more hParts.2 hMore

/-- What a cut gives: its three parts are the text, no delimiter matches inside of the word, and the
first one that matches behind it is taken. -/
theorem cut?_eq_some {delimiters : List Delimiter} {chars : List Char} {cut : Cut}
    (h : cut? delimiters chars = some cut) :
    chars = cut.word ++ (cut.delimiter ++ cut.rest) ∧
      (∀ passed more, cut.word = passed ++ more → more ≠ [] →
        Delimiter.takeFirst? delimiters (more ++ (cut.delimiter ++ cut.rest)) = none) ∧
      Delimiter.takeFirst? delimiters (cut.delimiter ++ cut.rest) =
        some cut.delimiter.length := by
  obtain ⟨word, hWord, hRest⟩ := cutFrom?_eq_some h
  rw [List.reverse_nil, List.nil_append] at hWord
  rwa [hWord]

/-- A text that is not cut has no place where a delimiter matches. -/
theorem cutFrom?_eq_none {delimiters : List Delimiter} {before chars : List Char}
    (h : cutFrom? delimiters before chars = none) :
    ∀ passed more, chars = passed ++ more → more ≠ [] →
      Delimiter.takeFirst? delimiters more = none := by
  induction chars generalizing before with
  | nil =>
      intro passed more hParts hMore
      exact absurd (List.append_eq_nil_iff.1 hParts.symm).2 hMore
  | cons c chars ih =>
      intro passed more hParts hMore
      rw [cutFrom?] at h
      split at h
      · cases h
      · next hNone =>
        cases passed with
        | nil =>
            rw [List.nil_append] at hParts
            rwa [← hParts]
        | cons d passed =>
            simp only [List.cons_append, List.cons.injEq] at hParts
            exact ih h passed more hParts.2 hMore

/-- The token of some characters that begins at a byte offset. -/
def Token.placed (offset : Nat) (chars : List Char) : Token :=
  ⟨String.ofList chars, ⟨offset, offset + utf8Len chars⟩⟩

theorem Token.placed_covers {text : String} {before chars : List Char} (after : List Char)
    (hText : text.toList = before ++ (chars ++ after)) :
    (placed (utf8Len before) chars).span.Covers text (placed (utf8Len before) chars).text :=
  ⟨before, after, by simp [hText, placed], by simp [placed, String.utf8ByteSize_ofList]⟩

/-- The tokens that splitting adds from byte `offset` on, and where it ends: at the end of the
text, in front of a word beyond the limit, behind a cut, or with a word that nothing ends. -/
inductive SplitsInto (delimiters : List Delimiter) (limit : Option Nat) (closed : Bool) :
    Nat → List Char → List Token → Nat → Prop where
  | done (offset : Nat) : SplitsInto delimiters limit closed offset [] [] offset
  | stopped {offset : Nat} {chars : List Char} (hChars : chars ≠ [])
      (hLimit : limit.any (· < offset) = true) :
      SplitsInto delimiters limit closed offset chars [] offset
  | cut {offset scanned : Nat} {chars : List Char} {cut : Cut} {tokens : List Token}
      (hLimit : limit.any (· < offset) = false) (hCut : cut? delimiters chars = some cut)
      (rest : SplitsInto delimiters limit closed (offset + utf8Len cut.word + utf8Len cut.delimiter)
        cut.rest tokens scanned) :
      SplitsInto delimiters limit closed offset chars
        (.placed offset cut.word :: .placed (offset + utf8Len cut.word) cut.delimiter :: tokens)
        scanned
  | last {offset : Nat} {chars : List Char} (hChars : chars ≠ [])
      (hLimit : limit.any (· < offset) = false) (hCut : cut? delimiters chars = none) :
      SplitsInto delimiters limit closed offset chars
        (.placed offset chars :: if closed then [] else [.placed (offset + utf8Len chars) []])
        (offset + utf8Len chars)

/-- The recursion of the splitter gives a split in the sense of the specification, behind whatever
was split before. -/
theorem splitFrom_splitsInto (delimiters : List Delimiter) (limit : Option Nat) (closed : Bool)
    (offset : Nat) (chars : List Char) (done : Array Token) :
    ∃ tokens,
      (splitFrom delimiters limit closed offset chars done).1.toList = done.toList ++ tokens ∧
      SplitsInto delimiters limit closed offset chars tokens
        (splitFrom delimiters limit closed offset chars done).2 := by
  fun_induction splitFrom delimiters limit closed offset chars done with
  | case1 offset done => exact ⟨[], by simp, .done offset⟩
  | case2 offset done c chars hLimit => exact ⟨[], by simp, .stopped (by simp) hLimit⟩
  | case3 offset done c chars hLimit word delimiter rest hCut text mark middle next ih =>
      obtain ⟨tokens, hTokens, hSplits⟩ := ih
      refine ⟨_, ?_, .cut (by simpa using hLimit) hCut
        (by simpa [middle, next, text, mark, String.utf8ByteSize_ofList] using hSplits)⟩
      rw [hTokens]
      simp [middle, next, text, mark, Token.placed, String.utf8ByteSize_ofList]
  | case4 offset done c chars hLimit hCut text next all =>
      have hNext : next = offset + utf8Len (c :: chars) := by
        simp only [next, text, String.utf8ByteSize_ofList]
      rw [hNext]
      refine ⟨_, ?_, .last (List.cons_ne_nil c chars) (by simpa using hLimit) hCut⟩
      cases closed <;> simp [all, text, hNext, Token.placed, Span.empty]

/-- The tokens follow each other without a gap from one byte offset to another. -/
def Contiguous : Nat → List Token → Nat → Prop
  | offset, [], stop => offset = stop
  | offset, token :: rest, stop =>
    token.span.start = offset ∧ offset ≤ token.span.stop ∧ Contiguous token.span.stop rest stop

/-- A word and the token behind it: a delimiter, or what stands for one at the end of the text. -/
structure WordPair where
  word : Token
  ending : Token

/-- The two tokens of a pair in order. -/
def WordPair.tokens (pair : WordPair) : List Token := [pair.word, pair.ending]

/-- The pair is cut where the text says. An ending that covers bytes is the match of the first
delimiter of the list that matches there, and one that covers none stands at the end of the text. -/
structure WordPair.IsCanonical (pair : WordPair) (delimiters : List Delimiter) (text : String) :
    Prop where
  word_clear : ∀ delimiter ∈ delimiters, ∀ offset piece, pair.word.span.start ≤ offset →
    offset < pair.word.span.stop → ¬ delimiter.MatchesAt text offset piece
  ending_first : pair.ending.span.isEmpty = false →
    ∃ earlier delimiter later, delimiters = earlier ++ delimiter :: later ∧
      delimiter.MatchesAt text pair.ending.span.start pair.ending.text ∧
      ∀ other ∈ earlier, ∀ piece, ¬ other.MatchesAt text pair.ending.span.start piece
  ending_last : pair.ending.span.isEmpty = true →
    pair.ending.span.start = text.utf8ByteSize

/-- Where no rest of a word begins with a delimiter, none matches inside of the word. -/
theorem not_matchesAt_of_clear {delimiters : List Delimiter} {text : String}
    {before word : List Char} (after : List Char) (hText : text.toList = before ++ (word ++ after))
    (hClear : ∀ passed more, word = passed ++ more → more ≠ [] →
      Delimiter.takeFirst? delimiters (more ++ after) = none) :
    ∀ delimiter ∈ delimiters, ∀ offset piece, utf8Len before ≤ offset →
      offset < utf8Len before + utf8Len word → ¬ delimiter.MatchesAt text offset piece := by
  rintro delimiter hMem _ piece hFrom hTo ⟨upTo, rest, hParts, rfl, hMatch⟩
  rw [List.append_assoc] at hParts
  have hBefore : before <+: text.toList := ⟨_, hText.symm⟩
  obtain ⟨passed, rfl⟩ := prefix_of_utf8Len_le hBefore ⟨_, hParts.symm⟩ hFrom
  have hRest : word ++ after = passed ++ (piece.toList ++ rest) := by
    rw [hText, List.append_assoc] at hParts
    exact List.append_cancel_left hParts
  rw [String.utf8Len_append] at hTo
  have hPassed : passed <+: word ++ after := ⟨_, hRest.symm⟩
  obtain ⟨more, rfl⟩ := prefix_of_utf8Len_le hPassed ⟨after, rfl⟩ (by omega)
  have hMore : more ≠ [] := by
    rintro rfl
    simp at hTo
  rw [List.append_assoc] at hRest
  have hNone := hClear passed more rfl hMore
  exact Delimiter.takeFirst?_eq_none_iff.1 hNone delimiter hMem _ _
    (List.append_cancel_left hRest) hMatch

/-- What is found behind a beginning of the text is the first match at its size. -/
theorem first_matchesAt {delimiters : List Delimiter} {text : String}
    {before delimiter rest : List Char} (hText : text.toList = before ++ (delimiter ++ rest))
    (hFound : Delimiter.takeFirst? delimiters (delimiter ++ rest) = some delimiter.length) :
    ∃ earlier first later, delimiters = earlier ++ first :: later ∧
      first.MatchesAt text (utf8Len before) (String.ofList delimiter) ∧
      ∀ other ∈ earlier, ∀ piece, ¬ other.MatchesAt text (utf8Len before) piece := by
  obtain ⟨earlier, first, later, hList, hEarlier, hTake⟩ := Delimiter.takeFirst?_eq_some hFound
  refine ⟨earlier, first, later, hList, ?_, ?_⟩
  · obtain ⟨piece, after, hParts, hLength, hMatch⟩ := Delimiter.matches_of_take? hTake
    obtain ⟨rfl, rfl⟩ := List.append_inj hParts hLength.symm
    exact ⟨before, rest, by simp [hText], rfl, by simpa using hMatch⟩
  · rintro other hMem piece ⟨upTo, after, hParts, hSize, hMatch⟩
    rw [List.append_assoc] at hParts
    have hBefore : before <+: text.toList := ⟨_, hText.symm⟩
    have hUpTo : upTo <+: text.toList := ⟨_, hParts.symm⟩
    have hPrefix := prefix_of_utf8Len_le hBefore hUpTo (by omega)
    have hBack := prefix_of_utf8Len_le hUpTo hBefore (by omega)
    obtain rfl : before = upTo := hPrefix.eq_of_length_le hBack.length_le
    rw [hText] at hParts
    have hNone := hEarlier other hMem
    rw [List.append_cancel_left hParts, hMatch.take?] at hNone
    cases hNone

namespace SplitsInto

variable {delimiters : List Delimiter} {limit : Option Nat} {closed : Bool}
  {offset scanned : Nat} {chars : List Char} {tokens : List Token} {text : String}

/-- The tokens of a split stand one behind the other, up to where it stops. -/
theorem contiguous (h : SplitsInto delimiters limit closed offset chars tokens scanned) :
    Contiguous offset tokens scanned := by
  induction h with
  | done offset => rfl
  | stopped => rfl
  | cut hLimit hCut rest ih => exact ⟨rfl, Nat.le_add_right _ _, rfl, Nat.le_add_right _ _, ih⟩
  | last => cases closed <;> simp [Contiguous, Token.placed]

/-- Every token is what the text has at the token's place. -/
theorem covers (h : SplitsInto delimiters limit closed offset chars tokens scanned)
    (before : List Char) (hText : text.toList = before ++ chars)
      (hOffset : utf8Len before = offset) :
    ∀ token ∈ tokens, token.span.Covers text token.text := by
  induction h generalizing before with
  | done => simp
  | stopped => simp
  | @cut offset scanned chars cut tokens hLimit hCut rest ih =>
      obtain ⟨hParts, -, -⟩ := cut?_eq_some hCut
      subst hOffset
      rw [hParts] at hText
      intro token hMem
      rcases List.mem_cons.1 hMem with rfl | hMem
      · exact Token.placed_covers _ hText
      have hNext : text.toList = before ++ cut.word ++ (cut.delimiter ++ cut.rest) := by
        simp [hText]
      rcases List.mem_cons.1 hMem with rfl | hMem
      · rw [← String.utf8Len_append]
        exact Token.placed_covers _ hNext
      · exact ih (before ++ cut.word ++ cut.delimiter) (by simp [hNext])
          (by simp [Nat.add_assoc]) token hMem
  | @last offset chars hChars hLimit hCut =>
      subst hOffset
      intro token hMem
      rcases List.mem_cons.1 hMem with rfl | hMem
      · exact Token.placed_covers [] (by simp [hText])
      · split at hMem
        · cases hMem
        · obtain rfl := List.mem_singleton.1 hMem
          rw [← String.utf8Len_append]
          exact Token.placed_covers [] (by simp [hText])

/-- The texts of the tokens are what the text begins with, and without a limit all of it. -/
theorem joins (h : SplitsInto delimiters limit closed offset chars tokens scanned) :
    ∃ rest, chars = tokens.flatMap (·.text.toList) ++ rest ∧
      scanned = offset + utf8Len (tokens.flatMap (·.text.toList)) ∧ (limit = none → rest = []) := by
  induction h with
  | done => exact ⟨[], by simp, by simp, fun _ => rfl⟩
  | @stopped offset chars hChars hLimit =>
      refine ⟨chars, by simp, by simp, ?_⟩
      rintro rfl
      cases hLimit
  | cut hLimit hCut rest ih =>
      obtain ⟨hParts, -, -⟩ := cut?_eq_some hCut
      obtain ⟨more, hMore, hScanned, hNone⟩ := ih
      refine ⟨more, ?_, ?_, hNone⟩
      · simp only [List.flatMap_cons, Token.placed, String.toList_ofList, List.append_assoc,
          ← hMore]
        exact hParts
      · simp [hScanned, Token.placed, Nat.add_assoc]
  | last => refine ⟨[], ?_, ?_, fun _ => rfl⟩ <;> cases closed <;> simp [Token.placed]

/-- The tokens come in canonical pairs. In a closed list the sentinel either ends the last word or
stands alone behind the last pair. -/
theorem pairs (h : SplitsInto delimiters limit closed offset chars tokens scanned)
    (before : List Char) (hText : text.toList = before ++ chars)
      (hOffset : utf8Len before = offset) :
    ∃ (pairs : List WordPair) (closing : List Token),
      tokens ++ (if closed then [.sentinel scanned] else []) =
        pairs.flatMap WordPair.tokens ++ closing ∧
      (closing = [] ∨ closed = true ∧ closing = [.sentinel scanned]) ∧
      ∀ pair ∈ pairs, pair.IsCanonical delimiters text := by
  induction h generalizing before with
  | done offset => exact ⟨[], if closed then [.sentinel offset] else [], by simp, by
      cases closed <;> simp, by simp⟩
  | @stopped offset chars hChars hLimit =>
      exact ⟨[], if closed then [.sentinel offset] else [], by simp, by
        cases closed <;> simp, by simp⟩
  | @cut offset scanned chars cut tokens hLimit hCut rest ih =>
      obtain ⟨hParts, hClear, hFound⟩ := cut?_eq_some hCut
      subst hOffset
      rw [hParts] at hText
      obtain ⟨pairs, closing, hTokens, hClosing, hPairs⟩ :=
        ih (before ++ cut.word ++ cut.delimiter) (by simp [hText]) (by simp [Nat.add_assoc])
      refine ⟨⟨.placed (utf8Len before) cut.word,
        .placed (utf8Len before + utf8Len cut.word) cut.delimiter⟩ :: pairs, closing, ?_, hClosing,
        ?_⟩
      · simp only [List.cons_append, hTokens, List.flatMap_cons, WordPair.tokens, List.nil_append]
      intro pair hMem
      rcases List.mem_cons.1 hMem with rfl | hMem
      · refine ⟨not_matchesAt_of_clear _ hText hClear, fun _ => ?_, fun hEmpty => ?_⟩
        · have hBehind : text.toList = before ++ cut.word ++ (cut.delimiter ++ cut.rest) := by
            simp [hText]
          have hFirst := first_matchesAt hBehind hFound
          rwa [String.utf8Len_append] at hFirst
        · have hPositive := Delimiter.takeFirst?_pos hFound
          simp only [Token.placed, Span.isEmpty, beq_iff_eq, Nat.left_eq_add,
            String.utf8Len_eq_zero] at hEmpty
          simp [hEmpty] at hPositive
      · exact hPairs pair hMem
  | @last offset chars hChars hLimit hCut =>
      subst hOffset
      have hNone := cutFrom?_eq_none hCut
      have hClear : ∀ delimiter ∈ delimiters, ∀ offset piece, utf8Len before ≤ offset →
          offset < utf8Len before + utf8Len chars → ¬ delimiter.MatchesAt text offset piece :=
        not_matchesAt_of_clear [] (by simp [hText]) (by simpa using hNone)
      have hSize : utf8Len before + utf8Len chars = text.utf8ByteSize := by
        rw [← String.utf8Len_append, ← hText, ← String.utf8ByteSize_ofList, String.ofList_toList]
      refine ⟨[⟨.placed (utf8Len before) chars,
        if closed then .sentinel (utf8Len before + utf8Len chars)
        else .placed (utf8Len before + utf8Len chars) []⟩], [], ?_, .inl rfl, ?_⟩
      · cases closed <;> rfl
      · intro pair hMem
        obtain rfl := List.mem_singleton.1 hMem
        refine ⟨hClear, fun hEnding => ?_, fun _ => ?_⟩
        · cases closed <;>
            simp [Token.sentinel, Token.placed, Span.empty, Span.isEmpty] at hEnding
        · cases closed <;> simpa [Token.sentinel, Token.placed, Span.empty] using hSize

end SplitsInto

/-- The sentinel's text has bytes, so nothing that covers a text is taken for the sentinel. -/
theorem isSentinel_of_covers {token : Token} {text : String}
    (h : token.span.Covers text token.text) : token.isSentinel = false := by
  obtain ⟨before, after, -, hSpan⟩ := h
  by_contra hSentinel
  simp only [Bool.not_eq_false, Token.isSentinel, Bool.and_eq_true, beq_iff_eq, Span.isEmpty]
    at hSentinel
  rw [hSpan, hSentinel.1] at hSentinel
  have hSize : Token.sentinelText.utf8ByteSize = 11 := by decide
  simp [hSize] at hSentinel

@[simp]
theorem Token.isSentinel_sentinel (offset : Nat) : (Token.sentinel offset).isSentinel = true := by
  simp [Token.isSentinel, Token.sentinel, Span.empty, Span.isEmpty]

/-- So the tokens of a text are a split of it, with the sentinel behind it where one is asked
for. -/
theorem tokenize_splitsInto (delimiters : List Delimiter) (limit : Option Nat) (closed : Bool)
    (text : String) :
    ∃ tokens, (tokenize delimiters limit closed text).list = tokens ++
        (if closed then [.sentinel (tokenize delimiters limit closed text).scanned] else []) ∧
      SplitsInto delimiters limit closed 0 text.toList tokens
        (tokenize delimiters limit closed text).scanned := by
  obtain ⟨tokens, hTokens, hSplits⟩ :=
    splitFrom_splitsInto delimiters limit closed 0 text.toList #[]
  refine ⟨tokens, ?_, hSplits⟩
  cases closed <;> simpa [tokenize] using hTokens

/-- The tokens that stand for text: all but the sentinel. -/
def Tokens.proper (tokens : Tokens) : List Token := tokens.list.filter (! ·.isSentinel)

/-- The tokens are a split of the text that leaves out nothing of what was read, and they are cut
at the delimiters that the list of them gives. -/
structure Tokens.IsLossless (tokens : Tokens) (delimiters : List Delimiter) (limit : Option Nat)
    (closed : Bool) (text : String) : Prop where
  contiguous : Contiguous 0 tokens.proper tokens.scanned
  sliced : ∀ token ∈ tokens.proper, token.span.Within text ∧ token.span.slice text = token.text
  scanned_within : Span.Within ⟨0, tokens.scanned⟩ text
  joined : String.join (tokens.proper.map (·.text)) = Span.slice ⟨0, tokens.scanned⟩ text
  complete : limit = none → tokens.scanned = text.utf8ByteSize
  paired : ∃ (pairs : List WordPair) (closing : List Token),
    tokens.list = pairs.flatMap WordPair.tokens ++ closing ∧
    (closing = [] ∨ closed = true ∧ closing = [.sentinel tokens.scanned]) ∧
    ∀ pair ∈ pairs, pair.IsCanonical delimiters text
  sentinel_last : tokens.list =
    tokens.proper ++ (if closed then [.sentinel tokens.scanned] else [])
  sentinel_once : tokens.list.filter Token.isSentinel =
    if closed then [.sentinel tokens.scanned] else []

/-- Splitting is lossless and canonical for every list of delimiters, also for one that is empty or
has empty literals, and under every limit. -/
theorem tokenize_isLossless (delimiters : List Delimiter) (limit : Option Nat) (closed : Bool)
    (text : String) :
    (tokenize delimiters limit closed text).IsLossless delimiters limit closed text := by
  obtain ⟨tokens, hList, hSplits⟩ := tokenize_splitsInto delimiters limit closed text
  have hCovers := hSplits.covers [] rfl rfl
  have hProper : (tokenize delimiters limit closed text).proper = tokens := by
    rw [Tokens.proper, hList, List.filter_append]
    have hKept : tokens.filter (! ·.isSentinel) = tokens :=
      List.filter_eq_self.2 fun token hMem => by simp [isSentinel_of_covers (hCovers token hMem)]
    cases closed <;> simp [hKept]
  have hDropped : tokens.filter Token.isSentinel = [] :=
    List.filter_eq_nil_iff.2 fun token hMem => by simp [isSentinel_of_covers (hCovers token hMem)]
  obtain ⟨rest, hText, hScanned, hComplete⟩ := hSplits.joins
  have hJoin : String.join (tokens.map (·.text)) =
      String.ofList (tokens.flatMap (·.text.toList)) := by
    apply String.toList_injective
    simp [List.flatMap_map]
  have hRead : Span.Covers ⟨0, (tokenize delimiters limit closed text).scanned⟩ text
      (String.join (tokens.map (·.text))) :=
    ⟨[], rest, by simp [hJoin, hText], by simp [hJoin, hScanned, String.utf8ByteSize_ofList]⟩
  refine ⟨hProper ▸ hSplits.contiguous, ?_, hRead.within, ?_, ?_, ?_, ?_, ?_⟩
  · rw [hProper]
    exact fun token hMem => ⟨(hCovers token hMem).within, (hCovers token hMem).slice_eq⟩
  · rw [hProper, hRead.slice_eq]
  · intro hLimit
    rw [hScanned, Nat.zero_add, ← String.utf8ByteSize_ofList,
      show tokens.flatMap (·.text.toList) = text.toList by simp [hText, hComplete hLimit],
      String.ofList_toList]
  · rw [hList]
    exact hSplits.pairs [] rfl rfl
  · rw [hProper, hList]
  · rw [hList, List.filter_append, hDropped]
    cases closed <;> simp

end HdlIndex

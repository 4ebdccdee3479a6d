import HdlIndex.Proofs.Text.Slices
import HdlIndex.Proofs.Token.Seams
import HdlIndex.Proofs.Token.Words
import Mathlib.Data.List.Infix

/-! Texts that are read up to a limit. Reading stops behind a delimiter, and the part in front of
that place is split as it is inside the whole text: what matches none of a text's rests matches none
of their beginnings, and a match stays the first one wherever the text behind it ends. -/
namespace HdlIndex

open String (utf8Len)

namespace Delimiter

variable {delimiter : Delimiter} {delimiters : List Delimiter}
  {piece front chars rest rest' : List Char}

/-- What matches no text matches none of its beginnings. -/
theorem take?_eq_none_of_prefix (h : delimiter.take? chars = none) (hFront : front <+: chars) :
    delimiter.take? front = none := by
  rw [Option.eq_none_iff_forall_not_mem] at h ⊢
  intro count hCount
  obtain ⟨piece, rest, rfl, -, hMatch⟩ := matches_of_take? hCount
  cases hMatch with
  | @literal text rest hText =>
      have hWhole : (literal piece).Matches piece (chars.drop piece.length) := .literal hText
      have hChars : piece ++ chars.drop piece.length = chars := by
        obtain ⟨behind, rfl⟩ := hFront
        simp
      have hTake := hWhole.take?
      rw [hChars] at hTake
      exact h _ hTake
  | blank hRun hGaps hRest =>
      obtain ⟨behind, rfl⟩ := hFront
      obtain ⟨c, run, rfl⟩ := List.exists_cons_of_ne_nil hRun
      have hLead := hGaps c (by simp)
      refine h ((c :: run ++ rest ++ behind).takeWhile isGap).length ?_
      simp [take?, List.takeWhile_cons_of_pos hLead]

theorem takeFirst?_eq_none_of_prefix (h : takeFirst? delimiters chars = none)
    (hFront : front <+: chars) : takeFirst? delimiters front = none := by
  rw [takeFirst?, List.findSome?_eq_none_iff] at h ⊢
  exact fun delimiter hMem => take?_eq_none_of_prefix (h delimiter hMem) hFront

/-- A piece that is matched is matched in front of every beginning of what follows it. -/
theorem Matches.of_prefix (h : delimiter.Matches piece rest) (hRest : rest' <+: rest) :
    delimiter.Matches piece rest' := by
  cases h with
  | literal hText => exact .literal hText
  | blank hRun hGaps hEnd =>
      refine .blank hRun hGaps fun c hHead => hEnd c ?_
      obtain ⟨behind, rfl⟩ := hRest
      rw [List.head?_append, Option.mem_def.1 hHead]
      rfl

/-- So the first match stays the first one. -/
theorem takeFirst?_of_prefix (h : takeFirst? delimiters (piece ++ rest) = some piece.length)
    (hRest : rest' <+: rest) : takeFirst? delimiters (piece ++ rest') = some piece.length := by
  obtain ⟨earlier, delimiter, later, rfl, hEarlier, hTake⟩ := takeFirst?_eq_some h
  have hFront : piece ++ rest' <+: piece ++ rest := (List.prefix_append_right_inj piece).2 hRest
  obtain ⟨found, behind, hParts, hLength, hMatch⟩ := matches_of_take? hTake
  obtain ⟨rfl, rfl⟩ := List.append_inj hParts hLength.symm
  rw [takeFirst?, List.findSome?_eq_some_iff]
  exact ⟨earlier, delimiter, later, rfl, (hMatch.of_prefix hRest).take?,
    fun other hMem => take?_eq_none_of_prefix (hEarlier other hMem) hFront⟩

end Delimiter

variable {delimiters : List Delimiter} {chars behind : List Char} {tokens others : List Token}
  {offset scanned stop limit : Nat} {closed : Bool}

/-- A cut is the cut of every beginning of the text that contains it. -/
theorem cutFrom?_of_append {before rest : List Char} {cut : Cut}
    (h : cutFrom? delimiters before (chars ++ behind) = some cut)
    (hRest : cut.rest = rest ++ behind) :
    cutFrom? delimiters before chars = some { cut with rest } := by
  induction chars generalizing before with
  | nil =>
      have hShorter := length_rest_of_cutFrom? h
      rw [hRest, List.nil_append, List.length_append] at hShorter
      omega
  | cons c chars ih =>
      rw [List.cons_append, cutFrom?, ← List.cons_append] at h
      rw [cutFrom?]
      cases hTake : Delimiter.takeFirst? delimiters (c :: chars ++ behind) with
      | none =>
          rw [hTake] at h
          rw [Delimiter.takeFirst?_eq_none_of_prefix hTake (List.prefix_append ..)]
          exact ih h
      | some count =>
          rw [hTake] at h
          obtain rfl := Option.some.inj h
          obtain ⟨_, delimiter, _, -, -, hFound⟩ := Delimiter.takeFirst?_eq_some hTake
          obtain ⟨piece, more, hParts, rfl, -⟩ := Delimiter.matches_of_take? hFound
          dsimp only at hRest ⊢
          rw [hParts, List.drop_left] at hRest
          obtain rfl := hRest
          have hFront : c :: chars = piece ++ rest := by
            rw [← List.append_assoc] at hParts
            exact List.append_cancel_right hParts
          rw [hParts] at hTake ⊢
          rw [hFront, Delimiter.takeFirst?_of_prefix hTake (List.prefix_append ..)]
          simp

namespace SplitsInto

/-- What was read is split as it is alone, also where reading stopped behind a delimiter. -/
theorem reads {limit : Option Nat}
    (h : SplitsInto delimiters limit closed offset chars tokens scanned) :
    ∃ read rest, chars = read ++ rest ∧ scanned = offset + utf8Len read ∧
      SplitsInto delimiters none closed offset read tokens scanned := by
  induction h with
  | done offset => exact ⟨[], [], rfl, rfl, .done offset⟩
  | @stopped offset chars => exact ⟨[], chars, rfl, rfl, .done offset⟩
  | @cut offset scanned chars cut tokens hLimit hCut _ ih =>
      obtain ⟨hParts, -, -⟩ := cut?_eq_some hCut
      obtain ⟨read, more, hRest, rfl, hRead⟩ := ih
      rw [hRest, ← List.append_assoc, ← List.append_assoc] at hParts
      have hFront : cut? delimiters (cut.word ++ cut.delimiter ++ read) =
          some { cut with rest := read } := by
        rw [hParts] at hCut
        exact cutFrom?_of_append hCut hRest
      have hUnlimited : (none : Option Nat).any (· < offset) = false := rfl
      have hWhole := SplitsInto.cut hUnlimited hFront hRead
      refine ⟨_, more, hParts, ?_, hWhole⟩
      rw [String.utf8Len_append, String.utf8Len_append]
      omega
  | @last offset chars hChars hLimit hCut => exact ⟨chars, [], by simp, rfl, .last hChars rfl hCut⟩

/-- Reading that does not reach the end stops beyond the limit, and the tokens are the pairs that
begin within it. The others begin where reading stopped, or behind that place. -/
theorem pairs_within (h : SplitsInto delimiters (some limit) closed offset chars tokens scanned)
    (h' : SplitsInto delimiters none closed offset chars others stop)
    (hStopped : scanned < offset + utf8Len chars) :
    ∃ (pairs : List WordPair) (more : List Token), tokens = pairs.flatMap WordPair.tokens ∧
      others = tokens ++ more ∧ limit < scanned ∧ (∀ pair ∈ pairs, pair.word.span.start ≤ limit) ∧
      ∀ token ∈ more, scanned ≤ token.span.start := by
  induction h generalizing others with
  | done => simp at hStopped
  | @stopped offset chars hChars hLimit =>
      exact ⟨[], others, rfl, rfl, by simpa using hLimit, by simp,
        fun token hMem => (h'.contiguous.le_of_mem hMem).1⟩
  | @cut offset scanned chars cut tokens hLimit hCut rest ih =>
      cases h' with
      | done => cases hCut
      | stopped _ hNone => cases hNone
      | last _ _ hUncut => cases hCut.symm.trans hUncut
      | cut _ hCut' rest' =>
          obtain rfl := Option.some.inj (hCut.symm.trans hCut')
          obtain ⟨hParts, -, -⟩ := cut?_eq_some hCut
          have hSize : utf8Len chars =
              utf8Len cut.word + (utf8Len cut.delimiter + utf8Len cut.rest) := by
            rw [hParts, String.utf8Len_append, String.utf8Len_append]
          obtain ⟨pairs, more, rfl, rfl, hBeyond, hWithin, hMore⟩ := ih rest' (by omega)
          refine ⟨⟨.placed offset cut.word, .placed (offset + utf8Len cut.word) cut.delimiter⟩ ::
            pairs, more, rfl, rfl, hBeyond, ?_, hMore⟩
          rw [List.forall_mem_cons]
          refine ⟨?_, hWithin⟩
          show offset ≤ limit
          simpa using hLimit
  | last => simp at hStopped

end SplitsInto

/-- The tokens two by two. A sentinel that stands alone behind the last pair is left out. -/
def pairUp : List Token → List WordPair
  | word :: ending :: rest => ⟨word, ending⟩ :: pairUp rest
  | _ => []

/-- Pairs of tokens are paired again as they were, whatever stands behind them. -/
theorem pairUp_append (pairs : List WordPair) (rest : List Token) :
    pairUp (pairs.flatMap WordPair.tokens ++ rest) = pairs ++ pairUp rest := by
  induction pairs with
  | nil => rfl
  | cons pair pairs ih =>
      rw [List.flatMap_cons, List.append_assoc, List.cons_append, ← ih]
      rfl

/-- Pairing tokens up makes up no words. -/
theorem word_mem_of_mem_pairUp {pair : WordPair} (h : pair ∈ pairUp tokens) :
    pair.word ∈ tokens := by
  fun_induction pairUp tokens with
  | case1 word ending rest ih =>
      rcases List.mem_cons.1 h with rfl | hMem
      · simp
      · simp [ih hMem]
  | case2 => cases h

/-- The part of a text that its tokens were taken from. -/
def Tokens.readPart (tokens : Tokens) (text : String) : String :=
  Span.slice ⟨0, tokens.scanned⟩ text

/-- What was read of a text is split into the same tokens when it is the whole text. -/
theorem tokenize_readPart (delimiters : List Delimiter) (limit : Option Nat) (closed : Bool)
    (text : String) :
    tokenize delimiters none closed ((tokenize delimiters limit closed text).readPart text) =
      tokenize delimiters limit closed text := by
  obtain ⟨tokens, hList, hSplits⟩ := tokenize_splitsInto delimiters limit closed text
  generalize tokenize delimiters limit closed text = limited at hList hSplits
  obtain ⟨read, rest, hText, hScanned, hRead⟩ := hSplits.reads
  rw [Nat.zero_add] at hScanned
  have hPart : limited.readPart text = String.ofList read :=
    Span.Covers.slice_eq ⟨[], rest, by simpa using hText, by
      simp [hScanned, String.utf8ByteSize_ofList]⟩
  rw [hPart]
  obtain ⟨others, hOthers, hAlone⟩ :=
    tokenize_splitsInto delimiters none closed (String.ofList read)
  rw [String.toList_ofList] at hAlone
  obtain ⟨rfl, hEnd⟩ := hAlone.unique hRead
  have hSame : (tokenize delimiters none closed (String.ofList read)).list = limited.list := by
    rw [hOthers, hList, hEnd]
  calc tokenize delimiters none closed (String.ofList read)
      = ⟨limited.list, limited.scanned⟩ := by rw [← hSame, ← hEnd]
    _ = limited := rfl

/-- What was read is a beginning of the text, as long as reading came. -/
theorem Tokens.readPart_append {tokens : Tokens} {text : String}
    (h : Span.Within ⟨0, tokens.scanned⟩ text) :
    ∃ rest, text = tokens.readPart text ++ rest ∧
      (tokens.readPart text).utf8ByteSize = tokens.scanned := by
  obtain ⟨before, after, hText, hSpan⟩ := h.covers_slice
  obtain ⟨hBefore, hStop⟩ := Span.mk.inj hSpan
  obtain rfl := String.utf8Len_eq_zero.1 hBefore.symm
  refine ⟨String.ofList after, ?_, by simpa [readPart] using hStop.symm⟩
  apply String.toList_injective
  simpa [readPart] using hText

/-- Under a limit exactly the pairs are read that begin in front of it, and reading stops beyond
it. -/
theorem tokenize_pairs_within {text : String}
    (h : (tokenize delimiters (some limit) closed text).scanned < text.utf8ByteSize) :
    (tokenize delimiters (some limit) closed text).proper =
        ((pairUp (tokenize delimiters none closed text).proper).filter
          (·.word.span.start ≤ limit)).flatMap WordPair.tokens ∧
      limit < (tokenize delimiters (some limit) closed text).scanned := by
  obtain ⟨tokens, hList, hSplits⟩ := tokenize_splitsInto delimiters (some limit) closed text
  obtain ⟨all, hAll, hWhole⟩ := tokenize_splitsInto delimiters none closed text
  have hProper : ∀ {limit tokens}, (tokenize delimiters limit closed text).list = tokens ++
      (if closed then [.sentinel (tokenize delimiters limit closed text).scanned] else []) →
      (tokenize delimiters limit closed text).proper = tokens := fun hList =>
    List.append_cancel_right
      ((tokenize_isLossless delimiters _ closed text).sentinel_last.symm.trans hList)
  have hStopped : (tokenize delimiters (some limit) closed text).scanned <
      0 + utf8Len text.toList := by
    rwa [Nat.zero_add, String.utf8Len_toList]
  obtain ⟨pairs, more, rfl, rfl, hBeyond, hWithin, hMore⟩ := hSplits.pairs_within hWhole hStopped
  refine ⟨?_, hBeyond⟩
  rw [hProper hList, hProper hAll, pairUp_append, List.filter_append,
    List.filter_eq_self.2 (by simpa using hWithin), List.filter_eq_nil_iff.2, List.append_nil]
  intro pair hMem
  have hStart : (tokenize delimiters (some limit) closed text).scanned ≤ pair.word.span.start :=
    hMore _ (word_mem_of_mem_pairUp hMem)
  simpa using hBeyond.trans_le hStart

/-- Two lists that agree but for their last members, where these are cut short in different ways. -/
inductive AgreeUpToEnd {α : Type} (R : α → α → Prop) : (cut : Bool) → List α → List α → Prop where
  | whole (list : List α) : AgreeUpToEnd R false list list
  | cut (front : List α) {last last' : α} (hLast : R last last') :
      AgreeUpToEnd R true (front ++ [last]) (front ++ [last'])

/-- All members but a last one that is cut short. -/
def uncut {α : Type} (cut : Bool) (list : List α) : List α := if cut then list.dropLast else list

namespace AgreeUpToEnd

variable {α β : Type} {R : α → α → Prop} {cut : Bool} {list list' : List α}

/-- Two lists that agree in front and end with one open entry agree up to their end. -/
theorem of_option {first second : β → α} (front : List α) (opened : Option β)
    (h : ∀ entry, R (first entry) (second entry)) :
    AgreeUpToEnd R opened.isSome (front ++ (opened.map first).toList)
      (front ++ (opened.map second).toList) := by
  cases opened with
  | none => exact .whole _
  | some entry => exact .cut front (h entry)

theorem uncut_eq (h : AgreeUpToEnd R cut list list') : uncut cut list = uncut cut list' := by
  cases h with
  | whole => rfl
  | cut front => simp [uncut]

/-- What is the same for both last members is the same for the lists. -/
theorem map_eq {f : α → β} (h : AgreeUpToEnd R cut list list')
    (hR : ∀ last last', R last last' → f last = f last') : list.map f = list'.map f := by
  cases h with
  | whole => rfl
  | cut front hLast =>
      rw [List.map_append, List.map_append, List.map_cons, hR _ _ hLast, List.map_cons]

theorem exists_last (h : AgreeUpToEnd R true list list') :
    ∃ last ∈ list.getLast?, ∃ last' ∈ list'.getLast?, R last last' := by
  cases h with
  | cut front hLast => exact ⟨_, by simp, _, by simp, hLast⟩

end AgreeUpToEnd

theorem mem_of_mem_uncut {α : Type} {cut : Bool} {list : List α} {member : α}
    (h : member ∈ uncut cut list) : member ∈ list := by
  cases cut with
  | false => exact h
  | true => exact List.mem_of_mem_dropLast h

section Clamped

variable {text : String} {word : Word} {token : Token} {span : Span}

/-- To move the places behind a text to its end leaves a range of the text where it is. -/
theorem Span.moved_clamp (h : span.Within text) : span.moved (min · text.utf8ByteSize) = span := by
  have hOrder := h.ordered
  have hStop := h.stop_le
  have hStart : min span.start text.utf8ByteSize = span.start := min_eq_left (hOrder.trans hStop)
  have hEnd : min span.stop text.utf8ByteSize = span.stop := min_eq_left hStop
  rw [Span.moved, hStart, hEnd]

/-- Nor does it move the tokens of the text. -/
theorem Token.map_moved_clamp {tokens : List Token} (h : ∀ token ∈ tokens, token.span.Within text) :
    tokens.map (·.moved (min · text.utf8ByteSize)) = tokens := by
  refine (List.map_congr_left (g := id) fun token hMem => ?_).trans (List.map_id _)
  rw [Token.moved, Span.moved_clamp (h token hMem)]
  rfl

/-- A word inside of the part that was read is moved as a whole by cutting offsets off at the end of
that part, because it is not moved at all. -/
theorem Word.StandsIn.isRigid_clamp (h : word.StandsIn text) :
    word.IsRigid (min · text.utf8ByteSize) := by
  have hStop := h.within.stop_le
  obtain ⟨before, after, -, hSpan⟩ := h
  rw [hSpan] at hStop
  refine ⟨by rw [hSpan], fun count hCount => ?_⟩
  rw [hSpan]
  dsimp only at hStop ⊢
  omega

theorem monotone_clamp (size : Nat) : Monotone (min · size) := fun _ _ hLe => min_le_min_right _ hLe

end Clamped

end HdlIndex

import HdlIndex.Proofs.Token.Bracketed
import HdlIndex.Proofs.Token.Seams
import HdlIndex.Proofs.Token.Spaced

/-! Texts that are put together from parts which are lexed already. No delimiter lies across a
joint, and a word in front of it ends there. So the parts of the whole are those that it is put
together from. A word at the end of a text is ended by a delimiter behind it, whatever that
delimiter is, as long as the characters of delimiters are delimiters themselves. -/
namespace HdlIndex

variable {delimiters : List Delimiter} {chars others : List Char} {parts parts' : List (List Char)}
  {c : Char} {words front back : List String} {word mark : String}

/-- The text of the words is lexed into them. -/
def IsLexed (delimiters : List Delimiter) (words : List String) : Prop :=
  Lexes delimiters (String.join words).toList (words.map String.toList)

/-- Each word is found where it stands. -/
def isLexed (delimiters : List Delimiter) : List String → Bool
  | [] => true
  | word :: words =>
    let rest := (String.join words).toList
    (! word.isEmpty && word.toList.all (fun c => ! delimiters.any (·.leads c)) &&
        (rest.isEmpty || (Delimiter.takeFirst? delimiters rest).isSome) ||
      Delimiter.takeFirst? delimiters (word.toList ++ rest) == some word.toList.length) &&
    isLexed delimiters words

theorem Delimiter.plain_of_all
    (h : word.toList.all (fun c => ! delimiters.any (·.leads c)) = true) :
    ∀ c ∈ word.toList, Plain delimiters c := by
  intro c hMem
  have hLeads := List.all_eq_true.1 h c hMem
  simp only [Bool.not_eq_true', List.any_eq_false, Bool.not_eq_true] at hLeads
  exact plain_of_leads hLeads

/-- The check computes, so that a fixed list of words is shown to be lexed by evaluation. -/
theorem IsLexed.of_isLexed (h : isLexed delimiters words = true) : IsLexed delimiters words := by
  induction words with
  | nil => exact .nil
  | cons word words ih =>
      simp only [isLexed, Bool.and_eq_true, Bool.or_eq_true, Bool.not_eq_true', beq_iff_eq,
        List.isEmpty_iff, Option.isSome_iff_ne_none] at h
      obtain ⟨hWord, hWords⟩ := h
      rw [IsLexed, String.join_cons, String.toList_append, List.map_cons]
      rcases hWord with ⟨⟨hNonempty, hPlain⟩, hEnds⟩ | hFound
      · exact .word (by simpa [String.isEmpty_eq_false_iff] using hNonempty)
          (Delimiter.plain_of_all hPlain) hEnds (ih hWords)
      · exact .delimiter hFound (ih hWords)

/-- What begins with a delimiter may stand behind a text if no delimiter lies across. -/
theorem Lexes.append (h : Lexes delimiters chars parts) (h' : Lexes delimiters others parts')
    (hJoint : Joint delimiters chars others)
    (hOthers : Delimiter.takeFirst? delimiters others ≠ none) :
    Lexes delimiters (chars ++ others) (parts ++ parts') := by
  induction h with
  | nil => exact h'
  | @word word rest parts hNonempty hPlain hEnds hRest ih =>
      rw [List.append_assoc, List.cons_append]
      refine .word hNonempty hPlain (.inr ?_) (ih hJoint.of_append)
      cases rest with
      | nil => exact hOthers
      | cons c rest =>
          rw [hJoint.of_append.takeFirst? (List.cons_ne_nil c rest)]
          exact hEnds.resolve_left (List.cons_ne_nil c rest)
  | @delimiter delimiter rest parts hFound hRest ih =>
      rw [List.append_assoc, List.cons_append]
      refine .delimiter ?_ (ih hJoint.of_append)
      have hNonempty : delimiter ++ rest ≠ [] := by
        intro hNil
        obtain ⟨rfl, rfl⟩ := List.append_eq_nil_iff.1 hNil
        simpa using Delimiter.takeFirst?_pos hFound
      rw [← List.append_assoc, hJoint.takeFirst? hNonempty, hFound]

namespace IsLexed

theorem nil : IsLexed delimiters [] := Lexes.nil

/-- Pieces that are split as they stand may be joined if nothing merges where they meet. -/
theorem append (h : IsLexed delimiters front) (h' : IsLexed delimiters back)
    (hJoint : Joint delimiters (String.join front).toList (String.join back).toList)
    (hBack : Delimiter.takeFirst? delimiters (String.join back).toList ≠ none) :
    IsLexed delimiters (front ++ back) := by
  rw [IsLexed, String.join_append, String.toList_append, List.map_append]
  exact Lexes.append h h' hJoint hBack

/-- A mark may stand everywhere. -/
theorem mark_cons (hMark : Delimiter.IsMark delimiters c) (hText : mark.toList = [c])
    (h : IsLexed delimiters words) : IsLexed delimiters (mark :: words) := by
  rw [IsLexed, String.join_cons, String.toList_append, List.map_cons, hText]
  exact .delimiter (hMark.takeFirst? _) h

/-- A mark is a delimiter of one character, and no other delimiter begins or goes on at it. So it
can be put between any two lexed lists. -/
theorem append_mark (hMark : Delimiter.IsMark delimiters c) (hText : mark.toList = [c])
    (hBlank : .blank ∈ delimiters) (h : IsLexed delimiters front) (h' : IsLexed delimiters back) :
    IsLexed delimiters (front ++ mark :: back) := by
  have hText' : (String.join (mark :: back)).toList = c :: (String.join back).toList := by
    rw [String.join_cons, String.toList_append, hText, List.singleton_append]
  refine h.append (h'.mark_cons hMark hText) ?_ ?_
  · rw [hText']
    rintro before - d hHead
    obtain rfl := Option.some.inj hHead
    exact hMark.parts_right hBlank before
  · rw [hText', hMark.takeFirst?]
    exact Option.some_ne_none 1

/-- A joined text does not begin with a gap if its first word does not. -/
theorem isGap_of_head (h : ∀ word ∈ words.head?, IsSolid word) :
    ∀ c ∈ (String.join words).toList.head?, Delimiter.isGap c = false := by
  intro c hc
  cases words with
  | nil => simp at hc
  | cons word words =>
      obtain ⟨hNonempty, hChars⟩ := h word rfl
      rw [String.join_cons, String.toList_append,
        List.head?_append_of_ne_nil _ (by simpa using hNonempty)] at hc
      exact Delimiter.isGap_eq_false (hChars c (List.mem_of_head? hc))

/-- It does not end with a gap if its last word does not. -/
theorem isGap_of_last (h : ∀ word ∈ words.getLast?, IsSolid word) :
    ∀ c ∈ (String.join words).toList.getLast?, Delimiter.isGap c = false := by
  intro c hc
  obtain rfl | ⟨front, last, rfl⟩ := List.eq_nil_or_concat' words
  · simp at hc
  · obtain ⟨hNonempty, hChars⟩ := h last (by simp)
    rw [String.join_append, String.toList_append, String.join_cons, String.join_nil,
      String.append_empty, List.getLast?_append_of_ne_nil _ (by simpa using hNonempty)] at hc
    exact Delimiter.isGap_eq_false (hChars c (List.mem_of_getLast? hc))

/-- A space may stand in front of everything but blanks. -/
theorem space_cons (hBroken : Delimiter.AreBroken delimiters) (h : IsLexed delimiters words)
    (hHead : ∀ word ∈ words.head?, IsSolid word) : IsLexed delimiters (" " :: words) := by
  have hSpace : " ".toList = [' '] := rfl
  rw [IsLexed, String.join_cons, String.toList_append, List.map_cons, hSpace]
  refine .delimiter ?_ h
  rw [List.singleton_append, Delimiter.takeFirst?_gap hBroken rfl, List.takeWhile_cons_of_pos rfl]
  have hNone : (String.join words).toList.takeWhile Delimiter.isGap = [] := by
    cases hText : (String.join words).toList with
    | nil => rfl
    | cons c rest =>
        have hGap := isGap_of_head hHead c (by rw [hText]; rfl)
        exact List.takeWhile_cons_of_neg (by simp [hGap])
  rw [hNone]

/-- A space may stand between words. -/
theorem append_space (hBroken : Delimiter.AreBroken delimiters) (h : IsLexed delimiters front)
    (hLast : ∀ word ∈ front.getLast?, IsSolid word) (h' : IsLexed delimiters back)
    (hHead : ∀ word ∈ back.head?, IsSolid word) : IsLexed delimiters (front ++ " " :: back) := by
  have hText : (String.join (" " :: back)).toList = ' ' :: (String.join back).toList := by
    rw [String.join_cons, String.toList_append]
    rfl
  refine h.append (h'.space_cons hBroken hHead) ?_ ?_
  · refine Seam.joint (fun c hc d hd => ?_) hBroken
    rw [hText] at hd
    obtain rfl := Option.some.inj hd
    exact ⟨.inr rfl, by simp [isGap_of_last hLast c hc]⟩
  · rw [hText, Delimiter.takeFirst?_gap hBroken rfl]
    exact Option.some_ne_none _

/-- A space is such a joint: it parts what stands around it. -/
theorem cons_space (hBroken : Delimiter.AreBroken delimiters) (hWord : IsSolid word)
    (h : IsLexed delimiters [word]) (h' : IsLexed delimiters back)
    (hHead : ∀ first ∈ back.head?, IsSolid first) : IsLexed delimiters (word :: " " :: back) := by
  have hAll : IsLexed delimiters ([word] ++ " " :: back) :=
    append_space hBroken h (by simpa using hWord) h' hHead
  exact hAll

/-- Words with spaces between them. -/
theorem intersperse (hBroken : Delimiter.AreBroken delimiters)
    (h : ∀ word ∈ words, IsSolid word ∧ IsLexed delimiters [word]) :
    IsLexed delimiters (words.intersperse " ") := by
  induction words with
  | nil => exact nil
  | cons word words ih =>
      rw [List.forall_mem_cons] at h
      cases words with
      | nil => exact h.1.2
      | cons next words =>
          refine cons_space hBroken h.1.1 h.1.2 (ih h.2) ?_
          intro first hFirst
          obtain rfl : next = first := by
            cases words <;> exact Option.some.inj hFirst
          exact (h.2 next List.mem_cons_self).1

/-- Texts with a mark and a space between them. -/
theorem intercalate {lists : List (List String)} (hMark : Delimiter.IsMark delimiters c)
    (hText : mark.toList = [c]) (hBroken : Delimiter.AreBroken delimiters)
    (h : ∀ words ∈ lists, IsLexed delimiters words ∧ ∃ first ∈ words.head?, IsSolid first) :
    IsLexed delimiters (List.intercalate [mark, " "] lists) := by
  induction lists with
  | nil => exact nil
  | cons words lists ih =>
      rw [List.forall_mem_cons] at h
      cases lists with
      | nil => simpa using h.1.1
      | cons next lists =>
          rw [List.intercalate_cons_cons, List.append_assoc]
          refine h.1.1.append_mark hMark hText hBroken.blank ((ih h.2).space_cons hBroken ?_)
          intro first hFirst
          obtain ⟨other, hOther, hSolid⟩ := (h.2 next List.mem_cons_self).2
          have hHead : (List.intercalate [mark, " "] (next :: lists)).head? = some other := by
            obtain ⟨rest, rfl⟩ := List.head?_eq_some_iff.1 hOther
            cases lists <;> simp
          obtain rfl := Option.some.inj (hHead.symm.trans hFirst)
          exact hSolid

end IsLexed

/-- Each word with the space in front of it. -/
def led (words : List String) : List String := words.flatMap fun word => [" ", word]

@[simp]
theorem led_nil : led [] = [] := rfl

@[simp]
theorem led_cons (word : String) (words : List String) :
    led (word :: words) = " " :: word :: led words :=
  rfl

/-- What goes over words and is not changed by a space does not see the spaces in front of them. -/
theorem foldlM_led {State : Type} {step : State → String → Option State} {words : List String}
    {state next : State} (hSpace : ∀ state, step state " " = some state)
    (h : words.foldlM step state = some next) : (led words).foldlM step state = some next := by
  induction words generalizing state with
  | nil => exact h
  | cons word words ih =>
      rw [List.foldlM_cons] at h
      obtain ⟨middle, hWord, hWords⟩ := Option.bind_eq_some_iff.1 h
      rw [led_cons, List.foldlM_cons, hSpace, Option.bind_eq_bind, Option.bind_some,
        List.foldlM_cons, hWord]
      exact ih hWords

@[simp]
theorem led_append (words others : List String) : led (words ++ others) = led words ++ led others :=
  List.flatMap_append

/-- Words with spaces between them. -/
theorem intersperse_cons (word : String) (words : List String) :
    (word :: words).intersperse " " = word :: led words := by
  induction words generalizing word with
  | nil => rfl
  | cons next words ih => rw [List.intersperse_cons_cons, ih, led_cons]

/-- One more space behind the words. -/
theorem led_concat (words : List String) : led words ++ [" "] = " " :: spaced words := by
  induction words with
  | nil => rfl
  | cons word words ih => rw [led_cons, List.cons_append, List.cons_append, ih, spaced_cons]

namespace Capture

/-- The text collected from words in front of which spaces stand. -/
theorem text_pushAll_led {tokens : List Token} (hWords : ∀ word ∈ words, IsSolid word)
    (hTokens : tokens.map (·.text) = led words) :
    (Capture.fresh.pushAll tokens).text = " ".intercalate words := by
  obtain ⟨space, hSpace⟩ : ∃ token : Token, token.text = " " := ⟨.space, rfl⟩
  have hBlank := Token.isBlank_of_space hSpace
  have hAll : (tokens ++ [space]).map (·.text) = " " :: spaced words := by
    rw [List.map_append, hTokens, List.map_singleton, hSpace, led_concat]
  obtain ⟨first, rest, hRest, hFirst, hSpaced⟩ := List.map_eq_cons_iff.1 hAll
  have hEnd : (Capture.fresh.pushAll (tokens ++ [space])).text =
      (Capture.fresh.pushAll tokens).text := by
    rw [pushAll, List.foldl_append, List.foldl_cons, List.foldl_nil,
      text_push_blank hBlank, pushAll]
  rw [← hEnd, hRest, pushAll, List.foldl_cons, push_fresh (Token.isBlank_of_space hFirst)]
  exact text_pushAll_spaced hWords hSpaced

/-- The text collected from words between which spaces stand. -/
theorem text_pushAll_intersperse {tokens : List Token} (hWords : ∀ word ∈ words, IsSolid word)
    (hTokens : tokens.map (·.text) = words.intersperse " ") :
    (Capture.fresh.pushAll tokens).text = " ".intercalate words := by
  cases words with
  | nil =>
      obtain rfl : tokens = [] := by simpa using hTokens
      rfl
  | cons word words =>
      have hLed : (Token.space :: tokens).map (·.text) = led (word :: words) := by
        rw [List.map_cons, hTokens, intersperse_cons]
        rfl
      rw [← text_pushAll_led hWords hLed, pushAll, pushAll, List.foldl_cons,
        push_fresh (Token.isBlank_of_space rfl)]

end Capture

section Splitting


open String (utf8Len)

variable {tokens tokens' : List Token} {offset : Nat} {opened : Bool}

/-- The tokens of a text are pieces of it. -/
theorem SplitsUpTo.placed_of_mem (h : SplitsUpTo delimiters offset chars tokens opened) :
    ∀ token ∈ tokens, ∃ start part, token = .placed start part ∧ ∀ c ∈ part, c ∈ chars := by
  induction h with
  | done => simp
  | @cut offset chars cut tokens opened hCut rest ih =>
      obtain ⟨hParts, -, -⟩ := cut?_eq_some hCut
      rw [List.forall_mem_cons, List.forall_mem_cons, hParts]
      refine ⟨⟨_, _, rfl, by simp +contextual⟩, ⟨_, _, rfl, by simp +contextual⟩,
        fun token hMem => ?_⟩
      obtain ⟨start, part, hToken, hPart⟩ := ih token hMem
      exact ⟨start, part, hToken, fun c hChar => by simp [hPart c hChar]⟩
  | last => simpa using ⟨_, _, rfl, fun _ => id⟩

/-- The part of a text that a token covers has its size, so that no such token is a sentinel. -/
theorem Token.isSentinel_placed (start : Nat) (part : List Char) :
    (Token.placed start part).isSentinel = false := by
  rw [← Bool.not_eq_true]
  intro hSentinel
  simp only [isSentinel, Bool.and_eq_true, beq_iff_eq, Span.isEmpty, placed] at hSentinel
  obtain ⟨hText, hSpan⟩ := hSentinel
  have hNone : utf8Len part = 0 := by omega
  rw [String.utf8Len_eq_zero] at hNone
  rw [hNone] at hText
  exact absurd hText (by decide)

/-- Characters of delimiters are delimiters themselves. -/
def Delimiter.areApart (delimiters : List Delimiter) : Bool :=
  delimiters.all fun
    | .literal text => text.all fun c => (takeFirst? delimiters [c]).isSome
    | .blank => true

/-- The text ends a word in front of it: it is empty, or it begins with a delimiter. -/
def EndsWord (delimiters : List Delimiter) (chars : List Char) : Prop :=
  chars = [] ∨ Delimiter.takeFirst? delimiters chars ≠ none

/-- No delimiter lies across the end of a word. -/
theorem Joint.of_opened (hApart : Delimiter.areApart delimiters = true)
    (hBroken : Delimiter.AreBroken delimiters)
      (h : SplitsUpTo delimiters offset chars tokens true) :
    Joint delimiters chars others := by
  obtain ⟨last, hLast, hNone⟩ := h.getLast_of_opened rfl
  intro c hc d _
  obtain rfl : last = c := Option.some.inj ((Option.mem_def.1 hLast).symm.trans hc)
  refine ⟨fun text hMem hChar _ => ?_, fun hGaps => ?_⟩
  · have hFound := List.all_eq_true.1 (List.all_eq_true.1 hApart _ hMem) last hChar
    rw [hNone] at hFound
    cases hFound
  · exact Delimiter.takeFirst?_white hBroken (Delimiter.isWhite_of_isGap hGaps.1) [] hNone

namespace SplitsUpTo

/-- What ends the last word of a text is split behind it as it is alone. -/
theorem append_word (h : SplitsUpTo delimiters offset chars tokens true)
    (hApart : Delimiter.areApart delimiters = true) (hBroken : Delimiter.AreBroken delimiters)
    (hOthers : EndsWord delimiters others)
    (h' : SplitsUpTo delimiters (offset + utf8Len chars) others tokens' opened) :
    ∃ opened', SplitsUpTo delimiters offset (chars ++ others) (tokens ++ tokens'.tail) opened' := by
  rcases hOthers with rfl | hFound
  · obtain ⟨rfl, -⟩ := h'.unique (.done _)
    exact ⟨true, by simpa using h⟩
  · exact ⟨opened, h.append_joint (.of_opened hApart hBroken h) (fun _ => hFound) h'⟩

/-- In front of a delimiter stands an empty word. -/
theorem cons_of_endsWord (h : SplitsUpTo delimiters offset chars tokens opened)
    (hChars : EndsWord delimiters chars) : tokens = [] ∧ chars = [] ∨
      tokens = .placed offset [] :: tokens.tail := by
  cases h with
  | done => exact .inl ⟨rfl, rfl⟩
  | @cut _ _ cut rest _ hCut hRest =>
      right
      have hWord : cut.word = [] := by
        rcases hChars with rfl | hFound
        · cases hCut
        · obtain ⟨count, hCount⟩ := Option.ne_none_iff_exists'.1 hFound
          cases chars with
          | nil => cases hCut
          | cons c chars =>
              rw [cut?, cutFrom?, hCount] at hCut
              obtain rfl := Option.some.inj hCut
              rfl
      rw [hWord, List.tail_cons]
  | last hNonempty hCut =>
      exfalso
      obtain ⟨count, hCount⟩ := Option.ne_none_iff_exists'.1 (hChars.resolve_left hNonempty)
      obtain ⟨c, chars, rfl⟩ := List.exists_cons_of_ne_nil hNonempty
      rw [cut?, cutFrom?, hCount] at hCut
      cases hCut

/-- What begins with white space is split behind a text as it is alone. The word in front of it
takes the white space. -/
theorem append_white (h : SplitsUpTo delimiters offset chars tokens opened)
    (hBroken : Delimiter.AreBroken delimiters)
    (hChars : ∀ c ∈ chars.getLast?, Delimiter.isGap c = false)
    (hOthers : ∃ d ∈ others.head?, Delimiter.isWhite d = true) {opened' : Bool}
    (h' : SplitsUpTo delimiters (offset + utf8Len chars) others tokens' opened') :
    SplitsUpTo delimiters offset (chars ++ others)
      (tokens ++ (bridge opened (offset + utf8Len chars) ++ tokens'.tail)) opened' := by
  obtain ⟨d, hHead, hWhite⟩ := hOthers
  obtain ⟨rest, rfl⟩ := List.head?_eq_some_iff.1 hHead
  have hSeam : Seam chars (d :: rest) := .of_white hChars (by simpa using hWhite)
  have hCons :=
    (h'.cons_of_endsWord (.inr (Delimiter.takeFirst?_white hBroken hWhite rest))).resolve_left
      fun hNil => List.cons_ne_nil d rest hNil.2
  have hBoth := h.append hBroken hSeam (by simp) h'
  rw [hCons] at hBoth ⊢
  cases opened <;> simpa [bridge] using hBoth

/-- A text whose last token is no delimiter ends within a word. -/
theorem opened_of_last {lead : List Token} {last : Token}
    (h : SplitsUpTo delimiters offset chars (lead ++ [last]) opened)
    (hLast : Delimiter.takeFirst? delimiters last.text.toList = none) : opened = true := by
  generalize hTokens : lead ++ [last] = tokens at h
  induction h generalizing lead with
  | done => simp at hTokens
  | @cut offset chars cut tokens opened hCut rest ih =>
      obtain ⟨-, -, hDelimiter⟩ := cut?_eq_some hCut
      obtain rfl | ⟨front, other, rfl⟩ := List.eq_nil_or_concat' tokens
      · generalize hMore : cut.rest = more at rest hDelimiter
        cases rest
        have hSame : last = .placed (offset + utf8Len cut.word) cut.delimiter := by
          have hAppend : lead ++ [last] = [Token.placed offset cut.word] ++
              [.placed (offset + utf8Len cut.word) cut.delimiter] := hTokens
          exact List.singleton_inj.1 (List.append_inj' hAppend rfl).2
        rw [hSame, Token.placed, String.toList_ofList, ← List.append_nil cut.delimiter,
          hDelimiter] at hLast
        cases hLast
      · have hSame : lead = Token.placed offset cut.word ::
            .placed (offset + utf8Len cut.word) cut.delimiter :: front ∧ last = other := by
          have hAppend : lead ++ [last] = (Token.placed offset cut.word ::
              .placed (offset + utf8Len cut.word) cut.delimiter :: front) ++
                [other] := by simpa using hTokens
          exact List.append_inj' hAppend rfl |>.imp id List.singleton_inj.1
        exact ih (congrArg (front ++ [·]) hSame.2)
  | last => rfl

end SplitsUpTo

end Splitting

end HdlIndex

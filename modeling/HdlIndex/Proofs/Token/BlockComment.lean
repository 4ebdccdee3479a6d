import HdlIndex.Proofs.Token.Seams

/-! Where a block comment ends. Its closer is looked for among the tokens of the comment, and a
delimiter that begins in front of the closer can take the closer's star. So what ends a comment is
not always the first closer that its text has. -/
namespace HdlIndex

open String (utf8Len)

/-- A star or a slash that the delimiters take together with the character behind it. -/
def Delimiter.isTied (delimiters : List Delimiter) (c d : Char) : Bool :=
  (c == '*' || c == '/') && delimiters.contains (.literal [c, d])

/-- The number of characters of a block comment behind its opener, the closer included. Characters
that are taken together are passed over together. -/
def commentLength? (delimiters : List Delimiter) : List Char → Option Nat
  | c :: d :: chars =>
    if c = '*' ∧ d = '/' then some 2
    else if Delimiter.isTied delimiters c d then (commentLength? delimiters chars).map (· + 2)
    else (commentLength? delimiters (d :: chars)).map (· + 1)
  | _ => none

/-- A literal that begins with a star or a slash has two characters at most, and any other one has
neither stars nor slashes. -/
def Delimiter.isStarred : Delimiter → Bool
  | .literal (c :: text) =>
    if c = '*' ∨ c = '/' then text.length ≤ 1 else text.all fun d => ! (d == '*' || d == '/')
  | _ => true

/-- How delimiters take the stars and slashes of a comment: as the closer, together with the
character behind them, or alone. -/
structure Delimiter.ReadsStars (delimiters : List Delimiter) : Prop where
  closer (rest : List Char) : takeFirst? delimiters ('*' :: '/' :: rest) = some 2
  tied {c d : Char} (h : isTied delimiters c d = true) (rest : List Char) :
    takeFirst? delimiters (c :: d :: rest) = some 2
  star : .literal ['*'] ∈ delimiters
  slash : .literal ['/'] ∈ delimiters
  starred : ∀ delimiter ∈ delimiters, delimiter.isStarred = true

section Delimiters

variable {delimiters : List Delimiter} {chars : List Char} {tokens before behind : List Token}
  {offset : Nat} {opened : Bool} {token : Token} {c : Char}

theorem Token.eq_of_text_placed {text : String} (h : (Token.placed offset chars).text = text) :
    chars = text.toList := by
  rw [← h, placed, String.toList_ofList]

/-- What a text is cut at is one of the delimiters. -/
theorem cut_matches {cut : Cut} (h : cut? delimiters chars = some cut) :
    ∃ delimiter ∈ delimiters, delimiter.Matches cut.delimiter cut.rest := by
  obtain ⟨-, -, hFound⟩ := cut?_eq_some h
  obtain ⟨earlier, delimiter, later, hList, -, hTake⟩ := Delimiter.takeFirst?_eq_some hFound
  obtain ⟨piece, rest, hParts, hLength, hMatch⟩ := Delimiter.matches_of_take? hTake
  obtain ⟨rfl, rfl⟩ := List.append_inj hParts hLength.symm
  exact ⟨delimiter, by simp [hList], hMatch⟩

/-- Words do without the characters that delimiters begin at. -/
theorem not_mem_word {cut : Cut}
    (hBegins : ∀ rest, Delimiter.takeFirst? delimiters (c :: rest) ≠ none)
    (hCut : cut? delimiters chars = some cut) : c ∉ cut.word := by
  intro hMem
  obtain ⟨-, hClear, -⟩ := cut?_eq_some hCut
  obtain ⟨passed, more, hWord⟩ := List.append_of_mem hMem
  exact hBegins _ (hClear passed (c :: more) hWord (by simp))

/-- So does a word at the end of a text. -/
theorem not_mem_last (hBegins : ∀ rest, Delimiter.takeFirst? delimiters (c :: rest) ≠ none)
    (hCut : cut? delimiters chars = none) : c ∉ chars := by
  intro hMem
  obtain ⟨passed, more, rfl⟩ := List.append_of_mem hMem
  exact hBegins more (cutFrom?_eq_none hCut passed (c :: more) rfl (by simp))

/-- The tokens behind a delimiter are those of the text behind it. It is no word, as it has a
character that delimiters begin at. -/
theorem SplitsUpTo.behind_delimiter (h : SplitsUpTo delimiters offset chars tokens opened)
    (hBegins : ∃ c ∈ token.text.toList, ∀ rest, Delimiter.takeFirst? delimiters (c :: rest) ≠ none)
    (hTokens : tokens = before ++ token :: behind) :
    ∃ lead rest, chars = lead ++ (token.text.toList ++ rest) ∧
      token.span.start = offset + utf8Len lead ∧
      SplitsUpTo delimiters
        (offset + utf8Len lead + utf8Len token.text.toList) rest behind opened := by
  obtain ⟨c, hChar, hBegins⟩ := hBegins
  have hBlack : ∀ {word : List Char}, c ∉ word → ∀ offset, Token.placed offset word ≠ token := by
    rintro word hWord offset rfl
    exact hWord (by rwa [Token.placed, String.toList_ofList] at hChar)
  induction h generalizing before with
  | done offset => simp at hTokens
  | @cut offset chars cut tokens opened hCut rest ih =>
      obtain ⟨hParts, -, -⟩ := cut?_eq_some hCut
      rcases before with _ | ⟨word, _ | ⟨delimiter, before⟩⟩
      · obtain ⟨hWord, -⟩ := List.cons.inj hTokens
        exact absurd hWord (hBlack (not_mem_word hBegins hCut) offset)
      · obtain ⟨-, hRest⟩ := List.cons.inj hTokens
        obtain ⟨rfl, rfl⟩ := List.cons.inj hRest
        refine ⟨cut.word, cut.rest, ?_, rfl, ?_⟩
        · rw [Token.placed, String.toList_ofList]
          exact hParts
        · rw [Token.placed, String.toList_ofList]
          exact rest
      · obtain ⟨-, hRest⟩ := List.cons.inj hTokens
        obtain ⟨-, hRest⟩ := List.cons.inj hRest
        obtain ⟨lead, others, hOthers, hStart, hBehind⟩ := ih hRest
        have hOffset : offset + utf8Len (cut.word ++ (cut.delimiter ++ lead)) =
            offset + utf8Len cut.word + utf8Len cut.delimiter + utf8Len lead := by
          rw [String.utf8Len_append, String.utf8Len_append]
          omega
        refine ⟨cut.word ++ (cut.delimiter ++ lead), others, ?_, ?_, ?_⟩
        · rw [hParts, hOthers, List.append_assoc, List.append_assoc]
        · rw [hOffset, hStart]
        · rw [hOffset]
          exact hBehind
  | @last offset chars hChars hCut =>
      rcases before with _ | ⟨word, before⟩
      · obtain ⟨hSame, -⟩ := List.cons.inj hTokens
        exact absurd hSame (hBlack (not_mem_last hBegins hCut) offset)
      · simp at hTokens

/-- Where a token at a place of a text is a delimiter, the text behind it has the tokens behind it.
What closes the list of the tokens is no such delimiter. -/
theorem SplitsUpTo.behind_piece {pre piece rest : List Char} {index : Nat} {tail : List Token}
    (h : SplitsUpTo delimiters 0 (pre ++ (piece ++ rest)) tokens opened)
    (hBegins : ∃ c ∈ piece, ∀ rest, Delimiter.takeFirst? delimiters (c :: rest) ≠ none)
    (hTail : ∀ token ∈ tail, token.text ≠ String.ofList piece)
    (hToken : (tokens ++ tail)[index]? = some token) (hText : token.text = String.ofList piece)
    (hStart : token.span.start = utf8Len pre) :
    ∃ before behind, before.length = index ∧ tokens ++ tail = before ++ token :: (behind ++ tail) ∧
      SplitsUpTo delimiters (utf8Len pre + utf8Len piece) rest behind opened := by
  have hIndex : index < tokens.length := by
    by_contra hBehind
    rw [List.getElem?_append_right (Nat.le_of_not_lt hBehind)] at hToken
    exact hTail token (List.mem_of_getElem? hToken) hText
  rw [List.getElem?_append_left hIndex, List.getElem?_eq_getElem hIndex] at hToken
  have hTokens : tokens = tokens.take index ++ token :: tokens.drop (index + 1) := by
    rw [← Option.some.inj hToken, ← List.drop_eq_getElem_cons hIndex, List.take_append_drop]
  have hPiece : token.text.toList = piece := by rw [hText, String.toList_ofList]
  rw [← hPiece] at hBegins
  obtain ⟨lead, others, hChars, hLead, hBehind⟩ := h.behind_delimiter hBegins hTokens
  rw [Nat.zero_add] at hLead hBehind
  have hLength : utf8Len lead = utf8Len pre := hLead.symm.trans hStart
  obtain rfl : lead = pre := by
    have hFirst : lead <+: pre ++ (piece ++ rest) := ⟨_, hChars.symm⟩
    obtain ⟨more, rfl⟩ := prefix_of_utf8Len_le hFirst (List.prefix_append _ _) hLength.le
    rw [String.utf8Len_append] at hLength
    have hMore : more = [] := String.utf8Len_eq_zero.1 (by omega)
    rw [hMore, List.append_nil]
  rw [hPiece] at hChars hBehind
  obtain rfl : rest = others := by simpa using hChars
  refine ⟨_, tokens.drop (index + 1), List.length_take_of_le hIndex.le, ?_, hBehind⟩
  conv_lhs => rw [hTokens, List.append_assoc, List.cons_append]

end Delimiters

section Length

variable {delimiters : List Delimiter} {c d : Char} {chars piece : List Char} {count : Nat}

theorem Delimiter.isTied_eq_false (h : ¬ (c = '*' ∨ c = '/')) (d : Char) :
    isTied delimiters c d = false := by
  rw [not_or] at h
  simp [isTied, h]

/-- A character that neither begins the closer nor is tied to the next one is one more character of
the comment. -/
theorem commentLength?_cons (h : ∀ d ∈ chars.head?, ¬ (c = '*' ∧ d = '/') ∧
    Delimiter.isTied delimiters c d = false) :
    commentLength? delimiters (c :: chars) = (commentLength? delimiters chars).map (· + 1) := by
  cases chars with
  | nil => rfl
  | cons d chars =>
      obtain ⟨hCloser, hTied⟩ := h d rfl
      rw [commentLength?, if_neg hCloser, hTied, if_neg Bool.false_ne_true]

/-- Other characters than stars and slashes are passed over one by one. -/
theorem commentLength?_append (h : ∀ c ∈ piece, ¬ (c = '*' ∨ c = '/')) (chars : List Char) :
    commentLength? delimiters (piece ++ chars) =
      (commentLength? delimiters chars).map (· + piece.length) := by
  induction piece with
  | nil => simp
  | cons c piece ih =>
      rw [List.forall_mem_cons] at h
      have hHere : ∀ d ∈ (piece ++ chars).head?, ¬ (c = '*' ∧ d = '/') ∧
          Delimiter.isTied delimiters c d = false :=
        fun d _ => ⟨fun hCloser => h.1 (.inl hCloser.1), Delimiter.isTied_eq_false h.1 d⟩
      rw [List.cons_append, commentLength?_cons hHere, ih h.2, Option.map_map, List.length_cons]
      rfl

/-- Characters are passed over alike where they are stars, slashes and ties alike. -/
theorem commentLength?_map {f : Char → Char}
    (hCloser : ∀ c d, f c = '*' ∧ f d = '/' ↔ c = '*' ∧ d = '/')
    (hTied : ∀ c d, Delimiter.isTied delimiters (f c) (f d) = Delimiter.isTied delimiters c d)
    (chars : List Char) :
    commentLength? delimiters (chars.map f) = commentLength? delimiters chars := by
  fun_induction commentLength? delimiters chars with
  | case1 c d chars hHere =>
      rw [List.map_cons, List.map_cons, commentLength?, if_pos ((hCloser c d).2 hHere)]
  | case2 c d chars hHere hPair ih =>
      rw [List.map_cons, List.map_cons, commentLength?,
        if_neg fun h => hHere ((hCloser c d).1 h), hTied, if_pos hPair, ih]
  | case3 c d chars hHere hPair ih =>
      rw [List.map_cons, List.map_cons, commentLength?,
        if_neg fun h => hHere ((hCloser c d).1 h), hTied, if_neg hPair, ← List.map_cons, ih]
  | case4 chars hShort =>
      rcases chars with _ | ⟨c, _ | ⟨d, chars⟩⟩
      · rfl
      · rfl
      · exact (hShort c d chars rfl).elim

namespace Delimiter.ReadsStars

variable (h : ReadsStars delimiters)

include h

/-- A delimiter that starts with a star or a slash has two characters at most. -/
theorem short (hChar : c = '*' ∨ c = '/') (hMem : .literal (c :: chars) ∈ delimiters) :
    chars.length ≤ 1 := by
  have hStarred := h.starred _ hMem
  rw [isStarred, if_pos hChar] at hStarred
  simpa using hStarred

/-- Any other delimiter has neither of them. -/
theorem plain (hChar : ¬ (c = '*' ∨ c = '/')) (hMem : .literal (c :: chars) ∈ delimiters) :
    ∀ d ∈ chars, ¬ (d = '*' ∨ d = '/') := by
  have hStarred := h.starred _ hMem
  rw [isStarred, if_neg hChar] at hStarred
  simpa using hStarred

/-- A star or a slash that is not tied to the character behind it is a delimiter. -/
theorem alone (hChar : c = '*' ∨ c = '/')
    (hApart : ∀ d ∈ chars.head?, isTied delimiters c d = false) :
    takeFirst? delimiters (c :: chars) = some 1 := by
  have hMem : .literal [c] ∈ delimiters := by
    rcases hChar with rfl | rfl
    · exact h.star
    · exact h.slash
  refine takeFirst?_of_forall hMem
    (by simp [take?, List.isPrefixOf]) fun other hOther taken hTaken => ?_
  obtain ⟨piece, rest, hParts, rfl, hMatch⟩ := matches_of_take? hTaken
  cases hMatch with
  | blank hRun hGap =>
      obtain ⟨d, piece, rfl⟩ := List.exists_cons_of_ne_nil hRun
      obtain ⟨rfl, -⟩ := List.cons.inj hParts
      have hGap := hGap c (by simp)
      rcases hChar with rfl | rfl <;> cases hGap
  | literal hText =>
      obtain ⟨d, text, rfl⟩ := List.exists_cons_of_ne_nil hText
      obtain ⟨rfl, rfl⟩ := List.cons.inj hParts
      have hShort := h.short hChar hOther
      rcases text with _ | ⟨d, _ | ⟨e, text⟩⟩
      · rfl
      · have hTied := hApart d (by simp)
        simp [isTied, hOther] at hTied
        exact absurd hChar (not_or.2 hTied)
      · simp at hShort

/-- A delimiter begins at every star and every slash. -/
theorem takeFirst?_ne_none (hChar : c = '*' ∨ c = '/') (chars : List Char) :
    takeFirst? delimiters (c :: chars) ≠ none := by
  by_cases hTied : ∃ d ∈ chars.head?, isTied delimiters c d = true
  · obtain ⟨d, hHead, hTied⟩ := hTied
    obtain ⟨chars, rfl⟩ : ∃ rest, chars = d :: rest := ⟨_, (List.cons_head?_tail hHead).symm⟩
    rw [h.tied hTied]
    simp
  · rw [h.alone hChar (by simpa using hTied)]
    simp

/-- A delimiter that is not the closer is passed over. -/
theorem commentLength?_drop (hFound : takeFirst? delimiters chars = some count)
    (hOther : chars.take count ≠ ['*', '/']) :
    commentLength? delimiters chars =
      (commentLength? delimiters (chars.drop count)).map (· + count) := by
  obtain ⟨_, delimiter, _, hList, -, hTake⟩ := takeFirst?_eq_some hFound
  have hMem : delimiter ∈ delimiters := by rw [hList]; simp
  obtain ⟨piece, rest, rfl, rfl, hMatch⟩ := matches_of_take? hTake
  rw [List.take_left] at hOther
  rw [List.drop_left]
  obtain ⟨c, piece, rfl⟩ := List.exists_cons_of_ne_nil hMatch.ne_nil
  by_cases hChar : c = '*' ∨ c = '/'
  · by_cases hTied : ∃ d ∈ (piece ++ rest).head?, isTied delimiters c d = true
    · obtain ⟨d, hHead, hTied⟩ := hTied
      obtain ⟨others, hOthers⟩ : ∃ others, piece ++ rest = d :: others :=
        ⟨_, (List.cons_head?_tail hHead).symm⟩
      rw [List.cons_append, hOthers, h.tied hTied] at hFound
      obtain ⟨e, rfl⟩ : ∃ e, piece = [e] := List.length_eq_one_iff.1 (by simpa using hFound.symm)
      obtain ⟨rfl, rfl⟩ := List.cons.inj hOthers
      have hCloser : ¬ (c = '*' ∧ e = '/') := by
        rintro ⟨rfl, rfl⟩
        exact hOther rfl
      show commentLength? delimiters (c :: e :: rest) = _
      rw [commentLength?, if_neg hCloser, if_pos hTied]
      rfl
    · have hApart : ∀ d ∈ (piece ++ rest).head?, isTied delimiters c d = false := by
        simpa using hTied
      have hAlone := h.alone hChar hApart
      rw [List.cons_append, hAlone] at hFound
      obtain rfl : piece = [] := List.length_eq_zero_iff.1 (by simpa using hFound.symm)
      refine commentLength?_cons fun d hHead => ⟨?_, hApart d hHead⟩
      rintro ⟨rfl, rfl⟩
      obtain ⟨others, rfl⟩ : ∃ others, rest = '/' :: others :=
        ⟨_, (List.cons_head?_tail hHead).symm⟩
      cases (h.closer others).symm.trans hAlone
  · refine commentLength?_append ?_ rest
    cases hMatch with
    | blank hRun hGap =>
        rintro d hMem (rfl | rfl)
        all_goals cases hGap _ hMem
    | literal hText => 
        rw [List.forall_mem_cons]
        exact ⟨hChar, h.plain hChar hMem⟩

/-- A word is passed over, as it has neither stars nor slashes. -/
theorem black_word {cut : Cut} (hCut : cut? delimiters chars = some cut) :
    ∀ c ∈ cut.word, ¬ (c = '*' ∨ c = '/') :=
  fun _ hMem hChar => not_mem_word (h.takeFirst?_ne_none hChar) hCut hMem

/-- So is a word at the end of a text. -/
theorem black_last (hCut : cut? delimiters chars = none) : ∀ c ∈ chars, ¬ (c = '*' ∨ c = '/') :=
  fun _ hMem hChar => not_mem_last (h.takeFirst?_ne_none hChar) hCut hMem

end Delimiter.ReadsStars

/-- The first closer ends a comment, unless its star is tied to the character in front of it. -/
theorem commentLength?_of_first {rest : List Char} : ∀ {inner : List Char},
    ¬ ['*', '/'] <:+: inner → (∀ c ∈ inner.getLast?, Delimiter.isTied delimiters c '*' = false) →
    commentLength? delimiters (inner ++ '*' :: '/' :: rest) = some (inner.length + 2)
  | [], _, _ => rfl
  | [c], _, hFree => by
      have hTied : Delimiter.isTied delimiters c '*' = false := hFree c rfl
      show commentLength? delimiters (c :: '*' :: '/' :: rest) = some 3
      rw [commentLength?, if_neg (by simp), hTied]
      rfl
  | c :: d :: inner, hFirst, hFree => by
      have hTail : ¬ ['*', '/'] <:+: d :: inner := fun h => hFirst (List.infix_cons h)
      have hCloser : ¬ (c = '*' ∧ d = '/') := by
        rintro ⟨rfl, rfl⟩
        exact hFirst ⟨[], inner, rfl⟩
      rw [List.getLast?_cons_cons] at hFree
      show commentLength? delimiters (c :: d :: (inner ++ '*' :: '/' :: rest)) = _
      rw [commentLength?, if_neg hCloser]
      split
      · have hInner : ∀ e ∈ inner.getLast?, Delimiter.isTied delimiters e '*' = false := by
          intro e hMem
          refine hFree e ?_
          rw [List.getLast?_cons, Option.mem_def.1 hMem]
          rfl
        rw [commentLength?_of_first (fun h => hTail (List.infix_cons h)) hInner]
        rfl
      · have hRest : commentLength? delimiters (d :: (inner ++ '*' :: '/' :: rest)) =
            some (inner.length + 3) := commentLength?_of_first hTail hFree
        rw [hRest]
        rfl

/-- Without a closer there is no end. -/
theorem commentLength?_eq_none (h : ¬ ['*', '/'] <:+: chars) :
    commentLength? delimiters chars = none := by
  fun_induction commentLength? delimiters chars with
  | case1 c d chars hHere =>
      obtain ⟨rfl, rfl⟩ := hHere
      exact absurd ⟨[], chars, rfl⟩ h
  | case2 c d chars hHere hPair ih =>
      rw [ih fun hTail => h (List.infix_cons (List.infix_cons hTail))]
      rfl
  | case3 c d chars hHere hPair ih =>
      rw [ih fun hTail => h (List.infix_cons hTail)]
      rfl
  | case4 chars hShort => rfl

end Length

section Tokens

variable {delimiters : List Delimiter} {chars : List Char} {tokens before behind : List Token}
  {offset : Nat} {opened : Bool} {opener : Token}

/-- The first closer among the tokens behind the opener of a comment ends at the byte offset, and if
the comment has no end there is none. -/
def EndsComment (tokens : List Token) : Option Nat → Prop
  | some stop => ∃ inner closer behind, tokens = inner ++ closer :: behind ∧
      (∀ token ∈ inner, token.text ≠ "*/") ∧ closer.text = "*/" ∧ closer.span.stop = stop
  | none => ∀ token ∈ tokens, token.text ≠ "*/"

/-- A token that does not close the comment may stand in front. -/
theorem EndsComment.cons {token : Token} {stop : Option Nat} (h : EndsComment tokens stop)
    (hToken : token.text ≠ "*/") : EndsComment (token :: tokens) stop := by
  cases stop with
  | none => exact List.forall_mem_cons.2 ⟨hToken, h⟩
  | some stop =>
      obtain ⟨inner, closer, behind, rfl, hInner, hCloser⟩ := h
      exact ⟨token :: inner, closer, behind, rfl, List.forall_mem_cons.2 ⟨hToken, hInner⟩, hCloser⟩

/-- And others may stand behind. -/
theorem EndsComment.append {tail : List Token} {stop : Option Nat} (h : EndsComment tokens stop)
    (hTail : ∀ token ∈ tail, token.text ≠ "*/") : EndsComment (tokens ++ tail) stop := by
  cases stop with
  | none => exact List.forall_mem_append.2 ⟨h, hTail⟩
  | some stop =>
      obtain ⟨inner, closer, behind, rfl, hCloser⟩ := h
      exact ⟨inner, closer, behind ++ tail, by rw [List.append_assoc, List.cons_append], hCloser⟩

/-- The tokens of a comment: the first of them that is a closer ends it. -/
theorem SplitsUpTo.closer (hStars : Delimiter.ReadsStars delimiters)
    (h : SplitsUpTo delimiters offset chars tokens opened) :
    EndsComment tokens ((commentLength? delimiters chars).map fun count =>
      offset + utf8Len (chars.take count)) := by
  have hBlack : ∀ {word : List Char}, (∀ c ∈ word, ¬ (c = '*' ∨ c = '/')) →
      ∀ offset, (Token.placed offset word).text ≠ "*/" := by
    intro word hWord offset hText
    exact hWord '*' (by simp [Token.eq_of_text_placed hText]) (.inl rfl)
  induction h with
  | done offset => simp [commentLength?, EndsComment]
  | @cut offset chars cut tokens opened hCut rest ih =>
      obtain ⟨hParts, -, hFound⟩ := cut?_eq_some hCut
      have hWord := hStars.black_word hCut
      have hLength : commentLength? delimiters chars =
          (commentLength? delimiters (cut.delimiter ++ cut.rest)).map (· + cut.word.length) := by
        rw [hParts, commentLength?_append hWord]
      by_cases hCloser : cut.delimiter = ['*', '/']
      · have hHere : commentLength? delimiters (cut.delimiter ++ cut.rest) = some 2 := by
          rw [hCloser]
          rfl
        have hTake : chars.take (2 + cut.word.length) = cut.word ++ cut.delimiter := by
          rw [hParts, hCloser, ← List.append_assoc, Nat.add_comm]
          exact List.take_left' (by simp)
        rw [hLength, hHere]
        refine ⟨[.placed offset cut.word], _, tokens,
          rfl, by simpa using hBlack hWord offset, ?_, ?_⟩
        · rw [hCloser]
          rfl
        · show offset + utf8Len cut.word + utf8Len cut.delimiter =
            offset + utf8Len (chars.take (2 + cut.word.length))
          rw [hTake, String.utf8Len_append]
          omega
      · -- The closer is the one of the rest, behind what the word and the delimiter take.
        have hText (offset : Nat) : (Token.placed offset cut.delimiter).text ≠ "*/" :=
          fun hText => hCloser (Token.eq_of_text_placed hText)
        have hTake (count : Nat) : chars.take (count + cut.delimiter.length + cut.word.length) =
            cut.word ++ (cut.delimiter ++ cut.rest.take count) := by
          rw [hParts, Nat.add_comm _ cut.word.length, List.take_length_add_append,
            Nat.add_comm count, List.take_length_add_append]
        have hRest : (commentLength? delimiters chars).map
              (fun count => offset + utf8Len (chars.take count)) =
            (commentLength? delimiters cut.rest).map fun count =>
              offset + utf8Len cut.word + utf8Len cut.delimiter +
                utf8Len (cut.rest.take count) := by
          rw [hLength, hStars.commentLength?_drop hFound (by rwa [List.take_left]), List.drop_left,
            Option.map_map, Option.map_map]
          refine Option.map_congr fun count _ => ?_
          simp only [Function.comp_apply, hTake, String.utf8Len_append]
          omega
        rw [hRest]
        exact (ih.cons (hText _)).cons (hBlack hWord _)
  | @last offset chars hChars hCut =>
      have hWord := hStars.black_last hCut
      have hLength : commentLength? delimiters chars = none := by
        rw [← List.append_nil chars, commentLength?_append hWord]
        rfl
      rw [hLength]
      exact List.forall_mem_singleton.2 (hBlack hWord offset)

/-- The opener of a comment in a text has the tokens of the comment behind it. What closes the list
of the tokens neither opens nor closes a comment. -/
theorem SplitsUpTo.blockComment {pre rest : List Char} {index : Nat} {tail : List Token}
    (hStars : Delimiter.ReadsStars delimiters)
    (h : SplitsUpTo delimiters 0 (pre ++ '/' :: '*' :: rest) tokens opened)
    (hTail : ∀ token ∈ tail, token.text ≠ "/*" ∧ token.text ≠ "*/")
    (hToken : (tokens ++ tail)[index]? = some opener) (hOpener : opener.text = "/*")
    (hStart : opener.span.start = utf8Len pre) :
    ∃ before behind, before.length = index ∧ tokens ++ tail = before ++ opener :: behind ∧
      EndsComment behind ((commentLength? delimiters rest).map fun count =>
        utf8Len pre + 2 + utf8Len (rest.take count)) := by
  have hBegins : ∃ c ∈ ['/', '*'], ∀ rest, Delimiter.takeFirst? delimiters (c :: rest) ≠ none :=
    ⟨'*', by simp, hStars.takeFirst?_ne_none (.inl rfl)⟩
  have h : SplitsUpTo delimiters 0 (pre ++ (['/', '*'] ++ rest)) tokens opened := h
  obtain ⟨before, behind, hLength, hTokens, hBehind⟩ :=
    h.behind_piece hBegins (fun token hMem => (hTail token hMem).1) hToken hOpener hStart
  exact ⟨before, behind ++ tail, hLength, hTokens,
    (hBehind.closer hStars).append fun token hMem => (hTail token hMem).2⟩

end Tokens

end HdlIndex

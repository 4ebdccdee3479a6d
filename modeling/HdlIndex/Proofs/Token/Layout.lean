import HdlIndex.Proofs.Token.Seams

/-! Layout: white space with comments in it. Looking ahead passes over it, wherever it stands, and
it stays layout when blanks are added at its ends. -/
namespace HdlIndex

open String (utf8Len)

/-- Whether the character at an end of a text has a property is decided by looking at it. -/
theorem forall_mem_of_all {p : Char → Bool} {end? : Option Char} (h : end?.all (! p ·) = true) :
    ∀ c ∈ end?, p c = false := by
  simpa [Option.all_eq_true] using h

/-- Passes over blanks and comments. The result is the closer of the comment that is open behind the
tokens, unless some token is a word. -/
def Token.passOver (comments : List (String × String)) :
    (closer : Option String) → List Token → Option (Option String)
  | closer, [] => some closer
  | some closer, token :: rest =>
    passOver comments (if token.text = closer then none else some closer) rest
  | none, token :: rest =>
    if token.isBlank then passOver comments none rest
    else match comments.find? (·.1 = token.text) with
      | some (_, closer) => passOver comments (some closer) rest
      | none => none

/-- The openers and the closers of comments are no runs of blanks. -/
def AreSolid (comments : List (String × String)) : Prop :=
  ∀ pair ∈ comments, (∃ c ∈ pair.1.toList, Delimiter.isGap c = false) ∧
    ∃ c ∈ pair.2.toList, Delimiter.isGap c = false

/-- White space, apart from the vertical tab, with comments in it: it begins and ends with white
space outside of the comments, and contains no word. -/
structure IsLayout (delimiters : List Delimiter) (comments : List (String × String))
    (chars : List Char) : Prop where
  begins : ∃ c rest, chars = c :: rest ∧ Text.isAsciiBlank c = true
  ends : ∃ front c, chars = front ++ [c] ∧ Text.isAsciiBlank c = true
  passes : ∃ tokens, SplitsUpTo delimiters 0 chars tokens false ∧
    Token.passOver comments none tokens = some none

variable {delimiters : List Delimiter} {comments : List (String × String)}
  {tokens rest : List Token} {closer : Option String} {chars gaps : List Char} {offset : Nat}

namespace Token

/-- Passing over two lists is passing over the one and then, inside of whatever comment that leaves
open, over the other. -/
theorem passOver_append :
    passOver comments closer (tokens ++ rest) =
      (passOver comments closer tokens).bind (passOver comments · rest) := by
  fun_induction passOver comments closer tokens with
  | case1 closer => rfl
  | case2 closer token tokens ih =>
      rw [List.cons_append, passOver]
      exact ih
  | case3 token tokens hBlank ih =>
      rw [List.cons_append, passOver, if_pos hBlank]
      exact ih
  | case4 token tokens hBlank _ closer hFind ih =>
      rw [List.cons_append, passOver, if_neg hBlank, hFind]
      exact ih
  | case5 token tokens hBlank hFind =>
      rw [List.cons_append, passOver, if_neg hBlank, hFind]
      rfl

theorem isBlank_moved (move : Nat → Nat) (token : Token) :
    (token.moved move).isBlank = token.isBlank := rfl

theorem isBlank_placed (offset : Nat) (chars : List Char) :
    (placed offset chars).isBlank = chars.all Text.isAsciiBlank := by
  rw [isBlank, placed, String.toList_ofList]

theorem passOver_placed_nil :
    passOver comments none (.placed offset [] :: rest) = passOver comments none rest := by
  have hBlank : (placed offset []).isBlank = true := isBlank_placed offset []
  rw [passOver, if_pos hBlank]

/-- Blank tokens are passed over outside of comments. -/
theorem passOver_blanks (h : ∀ token ∈ tokens, token.isBlank = true) :
    passOver comments none tokens = some none := by
  induction tokens with
  | nil => rfl
  | cons token tokens ih =>
      rw [List.forall_mem_cons] at h
      rw [passOver, if_pos h.1]
      exact ih h.2

/-- A token of gaps is none of the texts that have another character, such as the closers of
comments. -/
theorem text_placed_ne {text : String} (hText : ∃ c ∈ text.toList, Delimiter.isGap c = false)
    (hGaps : ∀ c ∈ gaps, Delimiter.isGap c = true) (offset : Nat) :
    text ≠ (placed offset gaps).text := by
  rintro rfl
  obtain ⟨c, hMem, hGap⟩ := hText
  rw [placed, String.toList_ofList] at hMem
  rw [hGaps c hMem] at hGap
  cases hGap

/-- A run of blanks that is passed over outside of comments is a blank token. -/
theorem passOver_gap {after : Option String} (hComments : AreSolid comments)
    (hGaps : ∀ c ∈ gaps, Delimiter.isGap c = true)
    (h : passOver comments none (.placed offset gaps :: rest) = some after) :
    gaps.all Text.isAsciiBlank = true ∧ passOver comments none rest = some after := by
  have hFind : comments.find? (·.1 = (placed offset gaps).text) = none := by
    rw [List.find?_eq_none]
    intro pair hMem
    simpa using text_placed_ne (hComments pair hMem).1 hGaps offset
  rw [passOver, hFind] at h
  split at h
  · next hBlank => exact ⟨isBlank_placed offset gaps ▸ hBlank, h⟩
  · cases h

/-- The comments that are open behind tokens have their closers. -/
theorem mem_of_passOver {after : String}
    (h : passOver comments closer tokens = some (some after)) :
    closer = some after ∨ ∃ pair ∈ comments, pair.2 = after := by
  fun_induction passOver comments closer tokens with
  | case1 closer => exact .inl (Option.some.inj h)
  | case2 closer token tokens ih =>
      refine (ih h).imp_left fun hCloser => ?_
      split at hCloser
      · cases hCloser
      · exact hCloser
  | case3 token tokens hBlank ih => exact ih h
  | case4 token tokens hBlank opener closer hFind ih =>
      refine .inr ((ih h).elim (fun hCloser => ?_) id)
      exact ⟨(opener, closer), List.mem_of_find?_eq_some hFind, Option.some.inj hCloser⟩
  | case5 token tokens hBlank hFind => cases h

/-- Only outside of comments a run of blanks at the end leads to where no comment is open. -/
theorem passOver_append_gap (hComments : AreSolid comments)
    (hGaps : ∀ c ∈ gaps, Delimiter.isGap c = true)
    (h : passOver comments none (tokens ++ [.placed offset gaps]) = some none) :
    gaps.all Text.isAsciiBlank = true ∧ passOver comments none tokens = some none := by
  rw [passOver_append] at h
  cases hPassed : passOver comments none tokens with
  | none =>
      rw [hPassed] at h
      cases h
  | some after =>
      rw [hPassed, Option.bind_some] at h
      cases after with
      | none => exact ⟨(passOver_gap hComments hGaps h).1, rfl⟩
      | some closer =>
          obtain hNone | ⟨pair, hMem, rfl⟩ := mem_of_passOver hPassed
          · cases hNone
          · rw [passOver, if_neg (text_placed_ne (hComments pair hMem).2 hGaps offset).symm] at h
            cases h

/-- Looking ahead goes on behind what it passes over. -/
theorem nextSignificant_append_of_passOver {after : Option String}
    (h : passOver comments closer tokens = some after) (rest : List Token) :
    nextSignificant comments closer (tokens ++ rest) = nextSignificant comments after rest := by
  fun_induction passOver comments closer tokens with
  | case1 closer => rw [Option.some.inj h, List.nil_append]
  | case2 closer token tokens ih =>
      rw [List.cons_append, nextSignificant]
      exact ih h
  | case3 token tokens hBlank ih =>
      rw [List.cons_append, nextSignificant, if_pos hBlank]
      exact ih h
  | case4 token tokens hBlank _ closer hFind ih =>
      rw [List.cons_append, nextSignificant, if_neg hBlank, hFind]
      exact ih h
  | case5 token tokens hBlank hFind => cases h

/-- What is seen ahead does not depend on what stands behind it. -/
theorem nextSignificant_append_of_not_passOver (h : passOver comments closer tokens = none)
    (rest : List Token) :
    nextSignificant comments closer (tokens ++ rest) =
      nextSignificant comments closer tokens := by
  fun_induction passOver comments closer tokens with
  | case1 closer => cases h
  | case2 closer token tokens ih =>
      rw [List.cons_append, nextSignificant, nextSignificant]
      exact ih h
  | case3 token tokens hBlank ih =>
      rw [List.cons_append, nextSignificant, nextSignificant, if_pos hBlank, if_pos hBlank]
      exact ih h
  | case4 token tokens hBlank _ closer hFind ih =>
      rw [List.cons_append, nextSignificant, nextSignificant, if_neg hBlank, if_neg hBlank, hFind]
      exact ih h
  | case5 token tokens hBlank hFind =>
      rw [List.cons_append, nextSignificant, nextSignificant, if_neg hBlank, if_neg hBlank, hFind]

/-- What is passed over is a matter of texts, so that it does not change with places. -/
theorem passOver_moved (move : Nat → Nat) :
    passOver comments closer (tokens.map (·.moved move)) = passOver comments closer tokens := by
  fun_induction passOver comments closer tokens with
  | case1 closer => rfl
  | case2 closer token tokens ih =>
      rw [List.map_cons, passOver]
      exact ih
  | case3 token tokens hBlank ih =>
      rw [List.map_cons, passOver, isBlank_moved, if_pos hBlank]
      exact ih
  | case4 token tokens hBlank _ closer hFind ih =>
      rw [List.map_cons, passOver, isBlank_moved, if_neg hBlank, moved, hFind]
      exact ih
  | case5 token tokens hBlank hFind =>
      rw [List.map_cons, passOver, isBlank_moved, if_neg hBlank, moved, hFind]

/-- The word that is seen ahead is moved with the tokens. -/
theorem nextSignificant_moved (move : Nat → Nat) :
    nextSignificant comments closer (tokens.map (·.moved move)) =
      (nextSignificant comments closer tokens).map (·.moved move) := by
  fun_induction nextSignificant comments closer tokens with
  | case1 => rfl
  | case2 closer token tokens ih =>
      rw [List.map_cons, nextSignificant]
      exact ih
  | case3 token tokens hBlank ih =>
      rw [List.map_cons, nextSignificant, isBlank_moved, if_pos hBlank]
      exact ih
  | case4 token tokens hBlank _ closer hFind ih =>
      rw [List.map_cons, nextSignificant, isBlank_moved, if_neg hBlank, moved, hFind]
      exact ih
  | case5 token tokens hBlank hFind =>
      rw [List.map_cons, nextSignificant, isBlank_moved, if_neg hBlank, moved, hFind]
      rfl

end Token

namespace Delimiter

theorem isWhite_of_isAsciiBlank {c : Char} (h : Text.isAsciiBlank c = true) : isWhite c = true := by
  simp only [Text.isAsciiBlank, Bool.or_eq_true, beq_iff_eq] at h
  rcases h with (((rfl | rfl) | rfl) | rfl) | rfl <;> rfl

/-- A text is a run of blanks and a text that begins with none. -/
theorem exists_leading_run (chars : List Char) : ∃ lead rest, chars = lead ++ rest ∧
    (∀ c ∈ lead, isGap c = true) ∧ ∀ c ∈ rest.head?, isGap c = false := by
  refine ⟨chars.takeWhile isGap, chars.dropWhile isGap, List.takeWhile_append_dropWhile.symm,
    fun c hMem => ?_, fun c hHead => ?_⟩
  · exact List.all_eq_true.1 List.all_takeWhile c hMem
  · have hNot := List.head?_dropWhile_not isGap chars
    rw [Option.mem_def.1 hHead] at hNot
    simpa using hNot

/-- A text is a text that ends with no blank and a run of blanks. -/
theorem exists_trailing_run (chars : List Char) : ∃ front last, chars = front ++ last ∧
    (∀ c ∈ front.getLast?, isGap c = false) ∧ ∀ c ∈ last, isGap c = true := by
  obtain ⟨lead, rest, hParts, hLead, hRest⟩ := exists_leading_run chars.reverse
  refine ⟨rest.reverse, lead.reverse, ?_, ?_, ?_⟩
  · rw [← List.reverse_append, ← hParts, List.reverse_reverse]
  · simpa using hRest
  · simpa using hLead

end Delimiter

namespace SplitsUpTo

variable {opened : Bool}

/-- A run of blanks in front of a text that begins with none adds an empty word and the run. -/
theorem cons_run (hDelimiters : Delimiter.AreBroken delimiters) (hRun : gaps ≠ [])
    (hGaps : ∀ c ∈ gaps, Delimiter.isGap c = true)
    (hChars : ∀ c ∈ chars.head?, Delimiter.isGap c = false)
    (h : SplitsUpTo delimiters (offset + utf8Len gaps) chars tokens opened) :
    SplitsUpTo delimiters offset (gaps ++ chars)
      (.placed offset [] :: .placed offset gaps :: tokens) opened := by
  refine (run hDelimiters hRun hGaps offset).append hDelimiters ?_ (by simp) h
  intro c hLast d hHead
  have hGap := hGaps c (List.mem_of_getLast? hLast)
  exact ⟨.inl (Delimiter.isWhite_of_isGap hGap), by simp [hChars d hHead]⟩

/-- A run of blanks behind a text that ends with none is the token behind its last word. -/
theorem append_run (hDelimiters : Delimiter.AreBroken delimiters) (hRun : gaps ≠ [])
    (hGaps : ∀ c ∈ gaps, Delimiter.isGap c = true)
    (hChars : ∀ c ∈ chars.getLast?, Delimiter.isGap c = false)
    (h : SplitsUpTo delimiters offset chars tokens opened) :
    SplitsUpTo delimiters offset (chars ++ gaps)
      (tokens ++ (if opened then [] else [.placed (offset + utf8Len chars) []]) ++
        [.placed (offset + utf8Len chars) gaps]) false := by
  have hSeam : Seam chars gaps := by
    intro c hLast d hHead
    have hGap := hGaps d (List.mem_of_mem_head? hHead)
    exact ⟨.inr (Delimiter.isWhite_of_isGap hGap), by simp [hChars c hLast]⟩
  have hBoth := h.append hDelimiters hSeam (fun _ => hRun) (run hDelimiters hRun hGaps _)
  cases opened <;> simpa using hBoth

/-- The tokens of a text at its beginning are those of the text anywhere, but for their places. -/
theorem shifted (h : SplitsUpTo delimiters 0 chars tokens opened) (offset : Nat) :
    SplitsUpTo delimiters offset chars (tokens.map (·.moved (offset + ·))) opened := by
  have hMoved : SplitsUpTo delimiters (offset + 0) chars
      (tokens.map (·.moved (offset + ·))) opened :=
    h.moved fun count _ => by simp
  exact hMoved

end SplitsUpTo

namespace IsLayout

/-- The tokens of a layout are passed over wherever it stands. -/
theorem splitsUpTo (h : IsLayout delimiters comments chars) (offset : Nat) :
    ∃ tokens, SplitsUpTo delimiters offset chars tokens false ∧
      Token.passOver comments none tokens = some none := by
  obtain ⟨tokens, hSplits, hPasses⟩ := h.passes
  exact ⟨_, hSplits.shifted offset, (Token.passOver_moved _).trans hPasses⟩

/-- Blanks in front of a layout belong to it. -/
theorem cons_run (h : IsLayout delimiters comments chars)
    (hDelimiters : Delimiter.AreBroken delimiters) (hComments : AreSolid comments)
    (hGaps : ∀ c ∈ gaps, Delimiter.isGap c = true) (hBlank : gaps.all Text.isAsciiBlank = true) :
    IsLayout delimiters comments (gaps ++ chars) := by
  by_cases hRun : gaps = []
  · rwa [hRun]
  refine ⟨?_, ?_, ?_⟩
  · obtain ⟨c, rest, rfl⟩ := List.exists_cons_of_ne_nil hRun
    exact ⟨c, rest ++ chars, rfl, List.all_eq_true.1 hBlank c (by simp)⟩
  · obtain ⟨front, c, rfl, hLast⟩ := h.ends
    exact ⟨gaps ++ front, c, by simp, hLast⟩
  -- The blanks join with those that the layout begins with.
  obtain ⟨lead, rest, rfl, hLead, hRest⟩ : ∃ lead rest, chars = lead ++ rest ∧
      (∀ c ∈ lead, Delimiter.isGap c = true) ∧ ∀ c ∈ rest.head?, Delimiter.isGap c = false :=
    Delimiter.exists_leading_run chars
  obtain ⟨tokens, opened, hTokens⟩ := SplitsUpTo.total delimiters 0 rest
  obtain ⟨tokens', hTokens', hPasses⟩ := h.passes
  have hParts : opened = false ∧ lead.all Text.isAsciiBlank = true ∧
      Token.passOver comments none tokens = some none := by
    by_cases hNil : lead = []
    · subst hNil
      obtain ⟨rfl, rfl⟩ := hTokens.unique hTokens'
      exact ⟨rfl, rfl, hPasses⟩
    · obtain ⟨rfl, rfl⟩ :=
        ((hTokens.shifted _).cons_run hDelimiters hNil hLead hRest).unique hTokens'
      rw [Token.passOver_placed_nil] at hPasses
      obtain ⟨hLeadBlank, hRestPasses⟩ := Token.passOver_gap hComments hLead hPasses
      exact ⟨rfl, hLeadBlank, Token.passOver_moved _ ▸ hRestPasses⟩
  obtain ⟨rfl, hLeadBlank, hRestPasses⟩ := hParts
  rw [← List.append_assoc]
  refine ⟨_, (hTokens.shifted _).cons_run hDelimiters (by simp [hRun]) ?_ hRest, ?_⟩
  · intro c hMem
    exact (List.mem_append.1 hMem).elim (hGaps c) (hLead c)
  · have hAll : (gaps ++ lead).all Text.isAsciiBlank = true := by
      rw [List.all_append, hBlank, hLeadBlank]
      rfl
    rw [Token.passOver_placed_nil, Token.passOver, if_pos ((Token.isBlank_placed _ _).trans hAll),
      Token.passOver_moved]
    exact hRestPasses

/-- Blanks behind a layout belong to it. -/
theorem append_run (h : IsLayout delimiters comments chars)
    (hDelimiters : Delimiter.AreBroken delimiters) (hComments : AreSolid comments)
    (hGaps : ∀ c ∈ gaps, Delimiter.isGap c = true) (hBlank : gaps.all Text.isAsciiBlank = true) :
    IsLayout delimiters comments (chars ++ gaps) := by
  by_cases hRun : gaps = []
  · rwa [hRun, List.append_nil]
  refine ⟨?_, ?_, ?_⟩
  · obtain ⟨c, rest, rfl, hFirst⟩ := h.begins
    exact ⟨c, rest ++ gaps, rfl, hFirst⟩
  · have hParts := List.dropLast_concat_getLast hRun
    refine ⟨chars ++ gaps.dropLast, gaps.getLast hRun, ?_, ?_⟩
    · rw [List.append_assoc, hParts]
    · exact List.all_eq_true.1 hBlank _ (List.getLast_mem hRun)
  -- The blanks join with those that the layout ends with.
  obtain ⟨front, last, rfl, hFront, hLast⟩ : ∃ front last, chars = front ++ last ∧
      (∀ c ∈ front.getLast?, Delimiter.isGap c = false) ∧ ∀ c ∈ last, Delimiter.isGap c = true :=
    Delimiter.exists_trailing_run chars
  obtain ⟨tokens, opened, hTokens⟩ := SplitsUpTo.total delimiters 0 front
  obtain ⟨tokens', hTokens', hPasses⟩ := h.passes
  have hParts : last.all Text.isAsciiBlank = true ∧ Token.passOver comments none
      (tokens ++ if opened then [] else [.placed (0 + utf8Len front) []]) = some none := by
    by_cases hNil : last = []
    · subst hNil
      rw [List.append_nil] at hTokens'
      obtain ⟨rfl, rfl⟩ := hTokens.unique hTokens'
      refine ⟨rfl, ?_⟩
      rw [Token.passOver_append, hPasses]
      exact Token.passOver_blanks (by simp [Token.isBlank_placed])
    · obtain ⟨rfl, -⟩ := (hTokens.append_run hDelimiters hNil hLast hFront).unique hTokens'
      exact Token.passOver_append_gap hComments hLast hPasses
  obtain ⟨hLastBlank, hFrontPasses⟩ := hParts
  have hAll : (last ++ gaps).all Text.isAsciiBlank = true := by
    rw [List.all_append, hBlank, hLastBlank]
    rfl
  rw [List.append_assoc]
  refine ⟨_, hTokens.append_run hDelimiters (by simp [hRun]) ?_ hFront, ?_⟩
  · intro c hMem
    exact (List.mem_append.1 hMem).elim (hLast c) (hGaps c)
  · rw [Token.passOver_append, hFrontPasses]
    exact Token.passOver_blanks (by simpa [Token.isBlank_placed] using hAll)

/-- A layout begins with white space behind the word that it ends. -/
theorem begins_white (h : IsLayout delimiters comments chars)
    (hDelimiters : Delimiter.AreBroken delimiters) (hComments : AreSolid comments) (offset : Nat) :
    ∃ white tokens, SplitsUpTo delimiters offset chars (.placed offset [] :: white ::
      tokens) false ∧ white.isBlank = true ∧ white.isEmpty = false ∧
      Token.passOver comments none tokens = some none := by
  obtain ⟨tokens, hTokens, hPasses⟩ := h.splitsUpTo offset
  obtain ⟨c, rest, rfl, hFirst⟩ := h.begins
  have hWhite : Delimiter.isWhite c = true := Delimiter.isWhite_of_isAsciiBlank hFirst
  obtain ⟨count, hCount⟩ :=
    Option.ne_none_iff_exists'.1 (Delimiter.takeFirst?_white hDelimiters hWhite rest)
  have hHere : cut? delimiters (c :: rest) =
      some ⟨[], (c :: rest).take count, (c :: rest).drop count⟩ := by
    rw [cut?, cutFrom?, hCount]
    rfl
  cases hTokens with
  | @cut _ _ cut tokens _ hCut more =>
      obtain rfl := Option.some.inj (hHere.symm.trans hCut)
      rw [Token.passOver_placed_nil] at hPasses
      by_cases hNewline : c = '\n'
      · subst hNewline
        obtain rfl : count = 1 :=
          Option.some.inj (hCount.symm.trans (Delimiter.takeFirst?_newline hDelimiters rest))
        have hBlank : (Token.placed (offset + utf8Len []) ['\n']).isBlank = true :=
          Token.isBlank_placed _ _
        have hMore : Token.passOver comments none tokens = some none :=
          (if_pos hBlank).symm.trans hPasses
        exact ⟨_, tokens, .cut hHere more, hBlank, rfl, hMore⟩
      · have hGap : Delimiter.isGap c = true := by
          simpa [Delimiter.isWhite, hNewline] using hWhite
        obtain rfl :=
          Option.some.inj (hCount.symm.trans (Delimiter.takeFirst?_gap hDelimiters hGap rest))
        have hGaps : ∀ d ∈ (c :: rest).take ((c :: rest).takeWhile Delimiter.isGap).length,
            Delimiter.isGap d = true := by
          rw [← List.prefix_iff_eq_take.1 (List.takeWhile_prefix Delimiter.isGap)]
          exact fun d hMem => List.all_eq_true.1 List.all_takeWhile d hMem
        obtain ⟨hBlank, hMore⟩ := Token.passOver_gap hComments hGaps hPasses
        refine ⟨_, tokens, .cut hHere more, (Token.isBlank_placed _ _).trans hBlank, ?_, hMore⟩
        rw [List.takeWhile_cons_of_pos hGap]
        simp [Token.isEmpty, Token.placed]

end IsLayout

/-- Tokens that separate the words around them: behind the end of a word, which is an empty one
where another delimiter stands in front, they begin with a blank, and they end with one. -/
structure AreSpace (comments : List (String × String)) (tokens : List Token) : Prop where
  passes : Token.passOver comments none tokens = some none
  begins : ∃ empty white rest, tokens = empty ++ white :: rest ∧
    (empty = [] ∨ ∃ offset, empty = [.placed offset []]) ∧
    white.isBlank = true ∧ white.isEmpty = false
  ends : ∃ lead last, tokens = lead ++ [last] ∧
    ∃ c ∈ last.text.toList.getLast?, Text.isAsciiBlank c = true

/-- The last character of a text whose last word is ended is that of its last token. -/
theorem SplitsUpTo.getLast?_eq (h : SplitsUpTo delimiters offset chars tokens false)
    (hChars : chars ≠ []) :
    ∃ lead last, tokens = lead ++ [last] ∧ last.text.toList.getLast? = chars.getLast? := by
  generalize hOpened : false = opened at h
  induction h with
  | done => exact absurd rfl hChars
  | @cut offset chars cut tokens opened hCut rest ih =>
      subst hOpened
      obtain ⟨hParts, -, hDelimiter⟩ := cut?_eq_some hCut
      cases hMore : cut.rest with
      | nil =>
          rw [hMore] at rest
          obtain ⟨rfl, -⟩ := rest.unique (.done _)
          have hSome : cut.delimiter ≠ [] := by
            rintro hNil
            rw [hNil] at hDelimiter
            cases Delimiter.takeFirst?_pos hDelimiter
          refine ⟨[_], _, rfl, ?_⟩
          rw [hParts, hMore, List.append_nil, List.getLast?_append_of_ne_nil _ hSome, Token.placed,
            String.toList_ofList]
      | cons c more =>
          obtain ⟨lead, last, rfl, hLast⟩ := ih (by simp [hMore]) rfl
          refine ⟨_ :: _ :: lead, last, rfl, ?_⟩
          rw [hLast, hParts, ← List.append_assoc,
            List.getLast?_append_of_ne_nil _ (by simp [hMore])]
  | last => cases hOpened

/-- The tokens of a layout between two texts. -/
theorem IsLayout.between {lead rest : List Char} {first second : List Token} {opened opened' : Bool}
    (h : IsLayout delimiters comments chars)
    (hDelimiters : Delimiter.AreBroken delimiters) (hComments : AreSolid comments)
    (hLead : ∀ c ∈ lead.getLast?, Delimiter.isGap c = false)
    (hRest : ∀ c ∈ rest.head?, Delimiter.isGap c = false)
    (hFirst : SplitsUpTo delimiters 0 lead first opened)
    (hSecond : SplitsUpTo delimiters (utf8Len (lead ++ chars)) rest second opened') :
    ∃ space, AreSpace comments space ∧
      SplitsUpTo delimiters 0 (lead ++ chars ++ rest) (first ++ space ++ second) opened' := by
  obtain ⟨white, tokens, hTokens, hBlank, hSome, hPasses⟩ :=
    h.begins_white hDelimiters hComments (0 + utf8Len lead)
  obtain ⟨c, more, rfl, hFirstBlank⟩ := h.begins
  obtain ⟨front, d, hFront, hLastBlank⟩ := h.ends
  have hEnds := hTokens.getLast?_eq (List.cons_ne_nil c more)
  have hFirstWhite := Delimiter.isWhite_of_isAsciiBlank hFirstBlank
  have hLastWhite := Delimiter.isWhite_of_isAsciiBlank hLastBlank
  have hSeam : Seam lead (c :: more) := by
    intro b hLast e hHead
    obtain rfl : c = e := Option.some.inj hHead
    exact ⟨.inr hFirstWhite, by simp [hLead b hLast]⟩
  have hSeam' : Seam (lead ++ c :: more) rest := by
    intro b hLast e hHead
    rw [hFront, ← List.append_assoc, List.getLast?_concat] at hLast
    obtain rfl : d = b := Option.some.inj hLast
    exact ⟨.inl hLastWhite, by simp [hRest e hHead]⟩
  have hBoth := hFirst.append hDelimiters hSeam (fun _ => List.cons_ne_nil c more) hTokens
  rw [← Nat.zero_add (utf8Len _)] at hSecond
  have hAll := hBoth.append hDelimiters hSeam' (by simp) hSecond
  have hEnd : ∀ space : List Token, (∃ lead last, space = lead ++ [last] ∧
      last.text.toList.getLast? = (c :: more).getLast?) → ∃ lead last, space = lead ++ [last] ∧
        ∃ c ∈ last.text.toList.getLast?, Text.isAsciiBlank c = true := by
    rintro space ⟨lead, last, rfl, hLast⟩
    refine ⟨lead, last, rfl, d, ?_, hLastBlank⟩
    rw [hLast, hFront, List.getLast?_concat]
    rfl
  cases opened with
  | false =>
      refine ⟨_, ⟨?_, ⟨[_], white, tokens, rfl, .inr ⟨_, rfl⟩, hBlank, hSome⟩, hEnd _ hEnds⟩, hAll⟩
      rw [List.singleton_append, Token.passOver_placed_nil, Token.passOver, if_pos hBlank]
      exact hPasses
  | true =>
      refine ⟨_, ⟨?_, ⟨[], white, tokens, rfl, .inl rfl, hBlank, hSome⟩, hEnd _ ?_⟩, hAll⟩
      · rw [List.nil_append, Token.passOver, if_pos hBlank]
        exact hPasses
      · obtain ⟨first, last, hParts, hLast⟩ := hEnds
        cases first with
        | nil => simp at hParts
        | cons empty first =>
            obtain ⟨-, hRest⟩ := List.cons.inj hParts
            exact ⟨first, last, hRest, hLast⟩

end HdlIndex

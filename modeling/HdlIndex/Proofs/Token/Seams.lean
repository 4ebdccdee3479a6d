import HdlIndex.Proofs.Symbols.Moved
import HdlIndex.Proofs.Token.Lexes
import Mathlib.Data.List.TakeWhile

/-! Texts that are put together. Where white space stands at the seam, and no run of blanks is cut
by it, each part is split as it is alone: only a word at the end of the first part takes the
delimiter that the second part begins with. -/
namespace HdlIndex

open String (utf8Len)

/-- A new-line or a blank within one line. -/
def Delimiter.isWhite (c : Char) : Bool := c == '\n' || isGap c

/-- White space separates words: new-lines and runs of blanks are delimiters, and white space is no
part of another one. -/
structure Delimiter.AreBroken (delimiters : List Delimiter) : Prop where
  newline : .literal ['\n'] ∈ delimiters
  blank : .blank ∈ delimiters
  alone : ∀ text, .literal text ∈ delimiters → ∀ c ∈ text, isWhite c = true → text = ['\n']

/-- White characters of the delimiter stand alone. -/
def Delimiter.isBroken : Delimiter → Bool
  | .literal text => text == ['\n'] || text.all (! isWhite ·)
  | .blank => true

/-- That delimiters are broken by layout is checked by evaluation over their list. -/
theorem Delimiter.AreBroken.of_all {delimiters : List Delimiter}
    (hNewline : .literal ['\n'] ∈ delimiters) (hBlank : .blank ∈ delimiters)
    (hBroken : delimiters.all isBroken = true) : AreBroken delimiters where
  newline := hNewline
  blank := hBlank
  alone text hMem c hChar hWhite := by
    have hText := List.all_eq_true.1 hBroken _ hMem
    simp only [isBroken, Bool.or_eq_true, beq_iff_eq] at hText
    refine hText.resolve_right fun hBlack => ?_
    have hNot := List.all_eq_true.1 hBlack c hChar
    rw [hWhite] at hNot
    cases hNot

/-- No delimiter has the two characters next to each other. -/
def Delimiter.Parts (delimiters : List Delimiter) (c d : Char) : Prop :=
  (∀ text, .literal text ∈ delimiters → c ∈ text → d ∈ text → text.length ≤ 1) ∧
    ¬ (isGap c = true ∧ isGap d = true)

/-- Two texts meet where no delimiter can lie across. -/
def Joint (delimiters : List Delimiter) (chars others : List Char) : Prop :=
  ∀ c ∈ chars.getLast?, ∀ d ∈ others.head?, Delimiter.Parts delimiters c d

/-- White space stands at the seam of two texts, and not two blanks of one run. -/
def Seam (chars others : List Char) : Prop :=
  ∀ c ∈ chars.getLast?, ∀ d ∈ others.head?,
    (Delimiter.isWhite c = true ∨ Delimiter.isWhite d = true) ∧
    ¬ (Delimiter.isGap c = true ∧ Delimiter.isGap d = true)

/-- The tokens of a text in front of its end. The flag tells that a word is under way there. -/
inductive SplitsUpTo (delimiters : List Delimiter) : Nat → List Char → List Token →
    Bool → Prop where
  | done (offset : Nat) : SplitsUpTo delimiters offset [] [] false
  | cut {offset : Nat} {chars : List Char} {cut : Cut} {tokens : List Token} {opened : Bool}
      (hCut : cut? delimiters chars = some cut)
      (rest : SplitsUpTo delimiters (offset + utf8Len cut.word + utf8Len cut.delimiter) cut.rest
        tokens opened) :
      SplitsUpTo delimiters offset chars
        (.placed offset cut.word :: .placed (offset + utf8Len cut.word) cut.delimiter :: tokens)
        opened
  | last {offset : Nat} {chars : List Char} (hChars : chars ≠ [])
      (hCut : cut? delimiters chars = none) :
      SplitsUpTo delimiters offset chars [.placed offset chars] true

variable {delimiters : List Delimiter} {chars others : List Char} {tokens : List Token}
  {offset : Nat} {opened closed : Bool}

theorem Delimiter.isWhite_of_isGap {c : Char} (h : isGap c = true) : isWhite c = true := by
  simp [isWhite, h]

theorem Delimiter.isGap_newline : isGap '\n' = false := rfl

/-- Whatever follows a new-line, white space stands where it begins. -/
theorem Seam.of_newline {chars : List Char} (hLine : chars.getLast? = some '\n')
    (others : List Char) :
    Seam chars others := by
  rintro c hLast d -
  rw [hLine] at hLast
  obtain rfl : '\n' = c := Option.some.inj hLast
  exact ⟨.inl rfl, by simp [Delimiter.isGap_newline]⟩

/-- White space may begin behind everything but blanks. -/
theorem Seam.of_white {chars others : List Char}
    (hChars : ∀ c ∈ chars.getLast?, Delimiter.isGap c = false)
    (hOthers : ∀ d ∈ others.head?, Delimiter.isWhite d = true) : Seam chars others := by
  intro c hc d hd
  exact ⟨.inr (hOthers d hd), by simp [hChars c hc]⟩

/-- White space parts words. -/
theorem Seam.joint (h : Seam chars others) (hDelimiters : Delimiter.AreBroken delimiters) :
    Joint delimiters chars others := by
  intro c hLast d hHead
  obtain ⟨hWhite, hApart⟩ := h c hLast d hHead
  refine ⟨fun text hMem hFirst hSecond => ?_, hApart⟩
  have hText : text = ['\n'] := hWhite.elim (hDelimiters.alone text hMem c hFirst)
    (hDelimiters.alone text hMem d hSecond)
  rw [hText]
  exact Nat.le_refl 1

namespace Joint

/-- A joint lies behind every rest of the first text. -/
theorem of_append {passed more : List Char} (h : Joint delimiters (passed ++ more) others) :
    Joint delimiters more others := by
  intro c hLast
  refine h c ?_
  rw [List.getLast?_append, Option.mem_def.1 hLast]
  rfl

theorem of_cons {c : Char} (h : Joint delimiters (c :: chars) others) :
    Joint delimiters chars others :=
  of_append (show Joint delimiters ([c] ++ chars) others from h)

/-- No delimiter lies across the joint. -/
theorem takeFirst? (h : Joint delimiters chars others) (hChars : chars ≠ []) :
    Delimiter.takeFirst? delimiters (chars ++ others) = Delimiter.takeFirst? delimiters chars := by
  cases others with
  | nil => rw [List.append_nil]
  | cons d others =>
      obtain ⟨front, c, rfl⟩ : ∃ front c, chars = front ++ [c] :=
        ⟨_, _, (List.dropLast_concat_getLast hChars).symm⟩
      obtain ⟨hLiteral, hApart⟩ := h c (by simp) d (by simp)
      have hTake : ∀ delimiter ∈ delimiters,
          delimiter.take? (front ++ [c] ++ d :: others) = delimiter.take? (front ++ [c]) := by
        intro delimiter hMem
        cases delimiter with
        | blank =>
            have hRun : (front ++ [c] ++ d :: others).takeWhile Delimiter.isGap =
                (front ++ [c]).takeWhile Delimiter.isGap := by
              rw [List.takeWhile_append]
              split
              · next hLength =>
                have hSelf := (List.takeWhile_prefix Delimiter.isGap).eq_of_length hLength
                have hGaps := List.takeWhile_eq_self_iff.1 hSelf
                have hNext : ¬ Delimiter.isGap d = true :=
                  fun hGap => hApart ⟨hGaps c (by simp), hGap⟩
                rw [hSelf, List.takeWhile_cons_of_neg hNext, List.append_nil]
              · rfl
            rw [Delimiter.take?, Delimiter.take?, hRun]
        | literal text =>
            cases text with
            | nil => rfl
            | cons first text =>
                have hPrefix : (first :: text).isPrefixOf (front ++ [c] ++ d :: others) =
                    (first :: text).isPrefixOf (front ++ [c]) := by
                  rw [Bool.eq_iff_iff, List.isPrefixOf_iff_prefix, List.isPrefixOf_iff_prefix]
                  refine ⟨fun hAll => ?_, fun hFront => hFront.trans (List.prefix_append ..)⟩
                  rcases List.prefix_or_prefix_of_prefix hAll
                    (List.prefix_append (front ++ [c]) (d :: others)) with hFront | ⟨tail, hTail⟩
                  · exact hFront
                  rw [← hTail, List.prefix_append_right_inj] at hAll
                  cases tail with
                  | nil => exact ⟨[], by simpa using hTail.symm⟩
                  | cons e tail =>
                      obtain ⟨rfl, -⟩ := List.cons_prefix_cons.1 hAll
                      have hShort := hLiteral _ hMem (by rw [← hTail]; simp) (by rw [← hTail]; simp)
                      rw [← hTail] at hShort
                      simp at hShort
                      omega
                rw [Delimiter.take?, Delimiter.take?, hPrefix]
      rw [Delimiter.takeFirst?, Delimiter.takeFirst?, ← List.head?_filterMap,
        List.filterMap_congr hTake, List.head?_filterMap]

/-- A cut in the first text is a cut of both together. -/
theorem cutFrom?_of_some (h : Joint delimiters chars others) {before : List Char} {cut : Cut}
    (hCut : cutFrom? delimiters before chars = some cut) :
    cutFrom? delimiters before (chars ++ others) =
      some { cut with rest := cut.rest ++ others } := by
  induction chars generalizing before with
  | nil => cases hCut
  | cons c chars ih =>
      have hFound := h.takeFirst? (List.cons_ne_nil c chars)
      rw [List.cons_append] at hFound ⊢
      rw [cutFrom?] at hCut ⊢
      rw [hFound]
      cases hTake : Delimiter.takeFirst? delimiters (c :: chars) with
      | none =>
          rw [hTake] at hCut
          exact ih h.of_cons hCut
      | some count =>
          rw [hTake] at hCut
          obtain rfl := Option.some.inj hCut
          have hCount : count ≤ (c :: chars).length := by
            obtain ⟨_, delimiter, _, -, -, hTaken⟩ := Delimiter.takeFirst?_eq_some hTake
            obtain ⟨piece, rest, hParts, rfl, -⟩ := Delimiter.matches_of_take? hTaken
            simp [hParts]
          dsimp only
          rw [← List.cons_append, List.take_append_of_le_length hCount,
            List.drop_append_of_le_length hCount]

/-- Where the first text has no cut, the first one of the second text is looked for. -/
theorem cutFrom?_of_none (h : Joint delimiters chars others) {before : List Char}
    (hCut : cutFrom? delimiters before chars = none) :
    cutFrom? delimiters before (chars ++ others) =
      cutFrom? delimiters (chars.reverse ++ before) others := by
  induction chars generalizing before with
  | nil => rfl
  | cons c chars ih =>
      have hFound := h.takeFirst? (List.cons_ne_nil c chars)
      rw [List.cons_append] at hFound ⊢
      rw [cutFrom?] at hCut ⊢
      rw [hFound]
      cases hTake : Delimiter.takeFirst? delimiters (c :: chars) with
      | some count =>
          rw [hTake] at hCut
          cases hCut
      | none =>
          rw [hTake] at hCut
          rw [List.reverse_cons, List.append_assoc]
          exact ih h.of_cons hCut

end Joint

namespace Delimiter

/-- A new-line is a delimiter of its own. -/
theorem takeFirst?_newline (h : AreBroken delimiters) (rest : List Char) :
    takeFirst? delimiters ('\n' :: rest) = some 1 := by
  refine takeFirst?_of_forall h.newline rfl fun delimiter hMem count hCount => ?_
  cases delimiter with
  | blank => simp [take?, isGap_newline] at hCount
  | literal text =>
      cases text with
      | nil => cases hCount
      | cons c text =>
          rw [take?] at hCount
          split at hCount
          · next hPrefix =>
            obtain ⟨rfl, -⟩ := List.cons_prefix_cons.1 (List.isPrefixOf_iff_prefix.1 hPrefix)
            have hText := h.alone _ hMem '\n' (by simp) rfl
            cases hText
            exact (Option.some.inj hCount).symm
          · cases hCount

/-- A run of blanks is a delimiter as a whole. -/
theorem takeFirst?_gap (h : AreBroken delimiters) {c : Char} (hGap : isGap c = true)
    (rest : List Char) :
    takeFirst? delimiters (c :: rest) = some ((c :: rest).takeWhile isGap).length := by
  have hBlank : blank.take? (c :: rest) = some ((c :: rest).takeWhile isGap).length := by
    rw [take?, List.takeWhile_cons_of_pos hGap]
    rfl
  refine takeFirst?_of_forall h.blank hBlank fun delimiter hMem count hCount => ?_
  cases delimiter with
  | blank => exact Option.some.inj (hCount.symm.trans hBlank)
  | literal text =>
      cases text with
      | nil => cases hCount
      | cons d text =>
          rw [take?] at hCount
          split at hCount
          · next hPrefix =>
            obtain ⟨rfl, -⟩ := List.cons_prefix_cons.1 (List.isPrefixOf_iff_prefix.1 hPrefix)
            cases h.alone _ hMem d (by simp) (isWhite_of_isGap hGap)
            cases hGap
          · cases hCount

/-- White space starts a delimiter of its own. -/
theorem takeFirst?_white (h : AreBroken delimiters) {c : Char} (hWhite : isWhite c = true)
    (rest : List Char) : takeFirst? delimiters (c :: rest) ≠ none := by
  simp only [isWhite, Bool.or_eq_true, beq_iff_eq] at hWhite
  rcases hWhite with rfl | hGap
  · simp [takeFirst?_newline h]
  · simp [takeFirst?_gap h hGap]

end Delimiter

namespace SplitsUpTo

/-- The parts of a text are split one after the other. A word under way ends where the second part
begins, which therefore begins with a delimiter. -/
theorem append_joint {tokens' : List Token} {opened' : Bool}
    (h : SplitsUpTo delimiters offset chars tokens opened) (hJoint : Joint delimiters chars others)
    (hOthers : opened = true → Delimiter.takeFirst? delimiters others ≠ none)
    (h' : SplitsUpTo delimiters (offset + utf8Len chars) others tokens' opened') :
    SplitsUpTo delimiters offset (chars ++ others)
      (tokens ++ if opened then tokens'.tail else tokens') opened' := by
  induction h with
  | done offset => simpa using h'
  | @cut offset chars cut tokens opened hCut rest ih =>
      obtain ⟨hParts, -, -⟩ := cut?_eq_some hCut
      have hRest : Joint delimiters cut.rest others := by
        rw [hParts, ← List.append_assoc] at hJoint
        exact hJoint.of_append
      have hOffset : offset + utf8Len chars =
          offset + utf8Len cut.word + utf8Len cut.delimiter + utf8Len cut.rest := by
        rw [hParts, String.utf8Len_append, String.utf8Len_append]
        omega
      rw [hOffset] at h'
      have hBoth : cut? delimiters (chars ++ others) =
          some { cut with rest := cut.rest ++ others } := hJoint.cutFrom?_of_some hCut
      have hAll := SplitsUpTo.cut hBoth (ih hRest hOthers h')
      exact hAll
  | @last offset chars hChars hCut =>
      obtain ⟨count, hCount⟩ := Option.ne_none_iff_exists'.1 (hOthers rfl)
      obtain ⟨d, others, rfl⟩ : ∃ d rest, others = d :: rest := by
        obtain ⟨_, delimiter, _, -, -, hTake⟩ := Delimiter.takeFirst?_eq_some hCount
        obtain ⟨piece, rest, rfl, -, hMatch⟩ := Delimiter.matches_of_take? hTake
        obtain ⟨d, piece, rfl⟩ := List.exists_cons_of_ne_nil hMatch.ne_nil
        exact ⟨d, piece ++ rest, rfl⟩
      have hHere : cut? delimiters (d :: others) =
          some ⟨[], (d :: others).take count, (d :: others).drop count⟩ := by
        rw [cut?, cutFrom?, hCount]
        rfl
      have hBoth : cut? delimiters (chars ++ d :: others) =
          some ⟨chars, (d :: others).take count, (d :: others).drop count⟩ := by
        rw [cut?, hJoint.cutFrom?_of_none hCut, cutFrom?, hCount]
        simp
      cases h' with
      | cut hCut' rest =>
          obtain rfl := Option.some.inj (hHere.symm.trans hCut')
          exact .cut hBoth rest
      | last _ hCut' => cases hHere.symm.trans hCut'

/-- A word under way does not end with a delimiter. -/
theorem getLast_of_opened (h : SplitsUpTo delimiters offset chars tokens opened)
    (hOpened : opened = true) :
    ∃ c ∈ chars.getLast?, Delimiter.takeFirst? delimiters [c] = none := by
  induction h with
  | done => cases hOpened
  | cut hCut rest ih =>
      obtain ⟨hParts, -, -⟩ := cut?_eq_some hCut
      obtain ⟨c, hLast, hNone⟩ := ih hOpened
      refine ⟨c, ?_, hNone⟩
      rw [hParts, ← List.append_assoc, List.getLast?_append, Option.mem_def.1 hLast]
      rfl
  | @last offset chars hChars hCut =>
      obtain ⟨front, c, rfl⟩ : ∃ front c, chars = front ++ [c] :=
        ⟨_, _, (List.dropLast_concat_getLast hChars).symm⟩
      exact ⟨c, by simp, cutFrom?_eq_none hCut front [c] rfl (by simp)⟩

/-- Nor with white space. -/
theorem black_getLast (h : SplitsUpTo delimiters offset chars tokens opened)
    (hDelimiters : Delimiter.AreBroken delimiters) (hOpened : opened = true) :
    ∃ c ∈ chars.getLast?, ¬ Delimiter.isWhite c = true := by
  obtain ⟨c, hLast, hNone⟩ := h.getLast_of_opened hOpened
  exact ⟨c, hLast, fun hWhite => Delimiter.takeFirst?_white hDelimiters hWhite [] hNone⟩

/-- White space at the end of a text ends its last word. -/
theorem opened_eq_false (h : SplitsUpTo delimiters offset chars tokens opened)
    (hDelimiters : Delimiter.AreBroken delimiters)
    (hWhite : ∀ c ∈ chars.getLast?, Delimiter.isWhite c = true) : opened = false := by
  rw [← Bool.not_eq_true]
  intro hOpened
  obtain ⟨c, hLast, hBlack⟩ := h.black_getLast hDelimiters hOpened
  exact hBlack (hWhite c hLast)

/-- So white space at the seam is a delimiter of the second part where a word is under way. -/
theorem append {tokens' : List Token} {opened' : Bool}
    (h : SplitsUpTo delimiters offset chars tokens opened)
    (hDelimiters : Delimiter.AreBroken delimiters) (hSeam : Seam chars others)
    (hOthers : opened = true → others ≠ [])
    (h' : SplitsUpTo delimiters (offset + utf8Len chars) others tokens' opened') :
    SplitsUpTo delimiters offset (chars ++ others)
      (tokens ++ if opened then tokens'.tail else tokens') opened' := by
  refine h.append_joint (hSeam.joint hDelimiters) (fun hOpened => ?_) h'
  obtain ⟨c, hLast, hBlack⟩ := h.black_getLast hDelimiters hOpened
  obtain ⟨d, others, rfl⟩ := List.exists_cons_of_ne_nil (hOthers hOpened)
  exact Delimiter.takeFirst?_white hDelimiters ((hSeam c hLast d rfl).1.resolve_left hBlack) others

/-- Every text has tokens in front of its end. -/
theorem total (delimiters : List Delimiter) (offset : Nat) (chars : List Char) :
    ∃ tokens opened, SplitsUpTo delimiters offset chars tokens opened := by
  obtain ⟨tokens, -, hSplits⟩ := splitFrom_splitsInto delimiters none false offset chars #[]
  generalize hLimit : (none : Option Nat) = limit at hSplits
  generalize (splitFrom delimiters limit false offset chars #[]).2 = scanned at hSplits
  induction hSplits with
  | done offset => exact ⟨_, _, .done offset⟩
  | stopped _ hStopped =>
      subst hLimit
      cases hStopped
  | cut _ hCut _ ih =>
      obtain ⟨tokens, opened, hRest⟩ := ih
      exact ⟨_, _, .cut hCut hRest⟩
  | last hChars _ hCut => exact ⟨_, _, .last hChars hCut⟩

/-- What stands for a delimiter behind the last word. -/
def closing (closed opened : Bool) (offset : Nat) : List Token :=
  if opened && ! closed then [.placed offset []] else []

/-- The tokens of a split up to the end are those of the splitter, which adds an empty delimiter or
a sentinel behind a word that is still open. -/
theorem splitsInto (h : SplitsUpTo delimiters offset chars tokens opened) (closed : Bool) :
    SplitsInto delimiters none closed offset chars
      (tokens ++ closing closed opened (offset + utf8Len chars)) (offset + utf8Len chars) := by
  induction h with
  | done offset => exact .done offset
  | @cut offset chars cut tokens opened hCut rest ih =>
      obtain ⟨hParts, -, -⟩ := cut?_eq_some hCut
      have hOffset : offset + utf8Len chars =
          offset + utf8Len cut.word + utf8Len cut.delimiter + utf8Len cut.rest := by
        rw [hParts, String.utf8Len_append, String.utf8Len_append]
        omega
      rw [hOffset]
      exact .cut rfl hCut ih
  | @last offset chars hChars hCut =>
      have hLast : SplitsInto delimiters none closed offset chars _ _ := .last hChars rfl hCut
      cases closed <;> exact hLast

/-- The tokens of a split stand one behind the other, as far as its characters go. -/
theorem contiguous (h : SplitsUpTo delimiters offset chars tokens opened) :
    Contiguous offset tokens (offset + utf8Len chars) := by
  obtain ⟨middle, hTokens, hClosing⟩ := (h.splitsInto true).contiguous.of_append
  have hNone : closing true opened (offset + utf8Len chars) = [] := by simp [closing]
  rw [hNone] at hClosing
  obtain rfl : middle = offset + utf8Len chars := hClosing
  exact hTokens

/-- The tokens of a text are those in front of its end and what closes the list. -/
theorem tokenize {text : String} (h : SplitsUpTo delimiters 0 text.toList tokens opened)
    (closed : Bool) :
    (HdlIndex.tokenize delimiters none closed text).list =
      tokens ++ closing closed opened text.utf8ByteSize ++
        (if closed then [.sentinel text.utf8ByteSize] else []) ∧
    (HdlIndex.tokenize delimiters none closed text).scanned = text.utf8ByteSize := by
  obtain ⟨tokens', hList, hSplits⟩ := tokenize_splitsInto delimiters none closed text
  obtain ⟨hTokens, hScanned⟩ := (h.splitsInto closed).unique hSplits
  have hSize : 0 + utf8Len text.toList = text.utf8ByteSize := by
    rw [Nat.zero_add, String.utf8Len_toList]
  rw [hSize] at hTokens hScanned
  rw [hList, ← hTokens, ← hScanned]
  exact ⟨rfl, rfl⟩

/-- The tokens in front of the end are determined by the text. -/
theorem unique {tokens' : List Token} {opened' : Bool}
    (h : SplitsUpTo delimiters offset chars tokens opened)
    (h' : SplitsUpTo delimiters offset chars tokens' opened') :
    tokens = tokens' ∧ opened = opened' := by
  induction h generalizing tokens' opened' with
  | done offset =>
      cases h' with
      | done => exact ⟨rfl, rfl⟩
      | cut hCut => cases hCut
      | last hChars => exact absurd rfl hChars
  | cut hCut rest ih =>
      cases h' with
      | done => cases hCut
      | cut hCut' rest' =>
          obtain rfl := Option.some.inj (hCut.symm.trans hCut')
          obtain ⟨rfl, rfl⟩ := ih rest'
          exact ⟨rfl, rfl⟩
      | last _ hCut' => cases hCut.symm.trans hCut'
  | last hChars hCut =>
      cases h' with
      | done => exact absurd rfl hChars
      | cut hCut' => cases hCut.symm.trans hCut'
      | last => exact ⟨rfl, rfl⟩

/-- A text that is moved as a whole has the same tokens at the place it is moved to. -/
theorem moved {move : Nat → Nat} (h : SplitsUpTo delimiters offset chars tokens opened)
    (hMove : ∀ count ≤ utf8Len chars, move (offset + count) = move offset + count) :
    SplitsUpTo delimiters (move offset) chars (tokens.map (·.moved move)) opened := by
  induction h with
  | done offset => exact .done _
  | @cut offset chars cut tokens opened hCut rest ih =>
      obtain ⟨hParts, -, -⟩ := cut?_eq_some hCut
      rw [hParts, String.utf8Len_append, String.utf8Len_append] at hMove
      have hWord : move (offset + utf8Len cut.word) = move offset + utf8Len cut.word :=
        hMove _ (by omega)
      have hDelimiter : move (offset + utf8Len cut.word + utf8Len cut.delimiter) =
          move offset + utf8Len cut.word + utf8Len cut.delimiter := by
        rw [Nat.add_assoc, hMove _ (by omega), Nat.add_assoc]
      have hRest := ih fun count hCount => by
        rw [hDelimiter, Nat.add_assoc, Nat.add_assoc, hMove _ (by omega)]
        omega
      rw [hDelimiter] at hRest
      have hAll := SplitsUpTo.cut hCut hRest
      simpa [Token.moved, Token.placed, Span.moved, hWord, hDelimiter] using hAll
  | @last offset chars hChars hCut =>
      have hLast : SplitsUpTo delimiters (move offset) chars _ _ := .last hChars hCut
      simpa [Token.moved, Token.placed, Span.moved, hMove _ (Nat.le_refl _)] using hLast

/-- The words of a text that is moved as a whole are moved as wholes. -/
theorem isRigid {move : Nat → Nat} (h : SplitsUpTo delimiters offset chars tokens opened)
    (hMove : ∀ count ≤ utf8Len chars, move (offset + count) = move offset + count) :
    ∀ token ∈ tokens, token.word.IsRigid move := by
  have hPlaced : ∀ start part, (∀ count ≤ utf8Len part, move (start + count) = move start + count) →
      (Token.placed start part).word.IsRigid move := by
    intro start part hPart
    refine ⟨by simp [Token.word, Token.placed, String.utf8ByteSize_ofList], fun count hCount => ?_⟩
    exact hPart count (by simpa [Token.word, Token.placed, String.utf8ByteSize_ofList] using hCount)
  induction h with
  | done => simp
  | @cut offset chars cut tokens opened hCut rest ih =>
      obtain ⟨hParts, -, -⟩ := cut?_eq_some hCut
      rw [hParts, String.utf8Len_append, String.utf8Len_append] at hMove
      have hFrom : ∀ first count, first + count ≤
          utf8Len cut.word + (utf8Len cut.delimiter + utf8Len cut.rest) →
          move (offset + first + count) = move (offset + first) + count := by
        intro first count hCount
        rw [Nat.add_assoc, hMove _ hCount, hMove first (by omega), Nat.add_assoc]
      rw [List.forall_mem_cons, List.forall_mem_cons]
      refine ⟨hPlaced _ _ fun count hCount => hMove count (by omega),
        hPlaced _ _ fun count hCount => hFrom _ count (by omega), ih fun count hCount => ?_⟩
      rw [Nat.add_assoc offset]
      exact hFrom _ count (by omega)
  | last =>
      rw [List.forall_mem_singleton]
      exact hPlaced _ _ hMove

/-- A run of blanks is one token behind an empty word. -/
theorem run (hDelimiters : Delimiter.AreBroken delimiters) (hChars : chars ≠ [])
    (hGaps : ∀ c ∈ chars, Delimiter.isGap c = true) (offset : Nat) :
    SplitsUpTo delimiters offset chars [.placed offset [], .placed offset chars] false := by
  obtain ⟨c, rest, rfl⟩ := List.exists_cons_of_ne_nil hChars
  have hCut : cut? delimiters (c :: rest) = some ⟨[], c :: rest, []⟩ := by
    rw [cut?, cutFrom?, Delimiter.takeFirst?_gap hDelimiters (hGaps c (by simp)),
      List.takeWhile_eq_self_iff.2 hGaps]
    simp
  exact .cut hCut (.done _)

/-- A text that ends with a new-line has it as its last token. -/
theorem append_newline (hDelimiters : Delimiter.AreBroken delimiters)
    (h : SplitsUpTo delimiters offset chars tokens opened) :
    ∃ lead, SplitsUpTo delimiters offset (chars ++ ['\n'])
      (lead ++ [.placed (offset + utf8Len chars) ['\n']]) false := by
  have hCut : cut? delimiters ['\n'] = some ⟨[], ['\n'], []⟩ := by
    rw [cut?, cutFrom?, Delimiter.takeFirst?_newline hDelimiters]
    rfl
  have hLast : SplitsUpTo delimiters (offset + utf8Len chars) ['\n']
      [.placed (offset + utf8Len chars) [], .placed (offset + utf8Len chars) ['\n']] false :=
    .cut hCut (.done _)
  have hSeam : Seam chars ['\n'] := by
    rintro c - d hHead
    obtain rfl : '\n' = d := Option.some.inj hHead
    exact ⟨.inr rfl, by simp [Delimiter.isGap_newline]⟩
  have hBoth := h.append hDelimiters hSeam (by simp) hLast
  cases opened
  · exact ⟨tokens ++ [.placed (offset + utf8Len chars) []], by simpa using hBoth⟩
  · exact ⟨tokens, hBoth⟩

/-- The tokens of a text that ends with a new-line end with it. -/
theorem of_newline (hDelimiters : Delimiter.AreBroken delimiters)
    (hLine : chars.getLast? = some '\n') (offset : Nat) :
    ∃ lead last, SplitsUpTo delimiters offset chars (lead ++ [last]) false ∧ last.text = "\n" := by
  obtain ⟨front, rfl⟩ := List.getLast?_eq_some_iff.1 hLine
  obtain ⟨tokens, opened, hTokens⟩ := SplitsUpTo.total delimiters offset front
  obtain ⟨lead, hSplits⟩ := hTokens.append_newline hDelimiters
  exact ⟨lead, _, hSplits, rfl⟩

end SplitsUpTo

end HdlIndex

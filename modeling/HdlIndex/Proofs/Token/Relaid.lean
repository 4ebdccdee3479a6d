import HdlIndex.Proofs.Text.Slices
import HdlIndex.Proofs.Token.Layout

/-! Two texts that differ in the layout at one place. The words in front of it stay where they are,
and those behind it are moved as a whole. -/
namespace HdlIndex

open String (utf8Len)

/-- Offsets up to `stop` stay, and those from `start` on are moved to `target`. -/
def relocate (stop start target offset : Nat) : Nat :=
  if offset ≤ stop then offset else target + (offset - start)

theorem relocate_of_le {stop start target offset : Nat} (h : offset ≤ stop) :
    relocate stop start target offset = offset := if_pos h

theorem relocate_add {stop start : Nat} (h : stop < start) (target count : Nat) :
    relocate stop start target (start + count) = target + count := by
  rw [relocate, if_neg (by omega)]
  omega

theorem relocate_monotone {stop target : Nat} (h : stop ≤ target) (start : Nat) :
    Monotone (relocate stop start target) := by
  intro offset other hLe
  rw [relocate, relocate]
  split <;> split <;> omega

theorem Word.isRigid_absent (move : Nat → Nat) (offset : Nat) :
    (Word.absent offset).IsRigid move := by
  refine ⟨rfl, fun count hCount => ?_⟩
  obtain rfl : count = 0 := Nat.le_zero.1 hCount
  rfl

/-- A range that holds the same in both texts, and is moved as a whole from the one to the other. -/
structure Span.IsKept (move : Nat → Nat) (chars chars' : List Char) (span : Span) : Prop where
  slice : (span.moved move).slice (String.ofList chars') = span.slice (String.ofList chars)
  together : ∀ count ≤ (span.slice (String.ofList chars)).utf8ByteSize,
    move (span.start + count) = move span.start + count

/-- The tokens of two texts that differ in the layout between `first` and `second`. -/
structure AreRelaid (delimiters : List Delimiter) (comments : List (String × String))
    (chars chars' : List Char) (move : Nat → Nat) (first space space' second : List Token)
    (opened : Bool) : Prop where
  monotone : Monotone move
  zero : move 0 = 0
  size : move (utf8Len chars) = utf8Len chars'
  splits : SplitsUpTo delimiters 0 chars (first ++ space ++ second) opened
  splits' : SplitsUpTo delimiters 0 chars' (first ++ space' ++ second.map (·.moved move)) opened
  before : first.map (·.moved move) = first
  rigid : ∀ token ∈ first ++ second, token.word.IsRigid move
  space : AreSpace comments space
  space' : AreSpace comments space'
  kept : ∃ stop start, Contiguous 0 first stop ∧ Contiguous start second (utf8Len chars) ∧
    ∀ span : Span, span.start ≤ span.stop → span.stop ≤ stop ∨ start ≤ span.start →
      span.IsKept move chars chars'

variable {delimiters : List Delimiter} {comments : List (String × String)}
  {pre run gap post : List Char}

theorem utf8Len_pos {chars : List Char} (h : chars ≠ []) : 0 < utf8Len chars := by
  rw [Nat.pos_iff_ne_zero, Ne, String.utf8Len_eq_zero]
  exact h

/-- All gaps of a line are blanks but for the vertical tab. -/
theorem isAsciiBlank_of_isGap {c : Char} (h : Delimiter.isGap c = true) (hTab : c ≠ '\x0b') :
    Text.isAsciiBlank c = true := by
  simp only [Delimiter.isGap, Bool.or_eq_true, beq_iff_eq] at h
  rcases h with (((rfl | rfl) | rfl) | rfl) | rfl
  · rfl
  · rfl
  · rfl
  · exact absurd rfl hTab
  · rfl

/-- What stands in front of a place where two texts differ is kept, and so is what stands behind
it. -/
theorem Span.isKept_relocate {lead chars chars' rest : List Char} {span : Span}
    (hChars : chars ≠ []) (hOrder : span.start ≤ span.stop)
    (hSpan : span.stop ≤ utf8Len lead ∨ utf8Len (lead ++ chars) ≤ span.start) :
    span.IsKept (relocate (utf8Len lead) (utf8Len (lead ++ chars)) (utf8Len (lead ++ chars')))
      (lead ++ chars ++ rest) (lead ++ chars' ++ rest) := by
  rcases hSpan with hFront | hBack
  · have hFixed : ∀ offset ≤ utf8Len lead, relocate (utf8Len lead) (utf8Len (lead ++ chars))
        (utf8Len (lead ++ chars')) offset = offset := fun _ => relocate_of_le
    have hMoved : span.moved (relocate (utf8Len lead) (utf8Len (lead ++ chars))
        (utf8Len (lead ++ chars'))) = span := by
      rw [moved, hFixed _ (hOrder.trans hFront), hFixed _ hFront]
    have hSlice : ∀ others : List Char, span.slice (String.ofList (lead ++ others)) =
        span.slice (String.ofList lead) := by
      intro others
      have hSize := String.utf8ByteSize_ofList lead
      rw [String.ofList_append]
      exact Span.slice_append_left (by omega) (by omega)
    refine ⟨?_, fun count hCount => ?_⟩
    · rw [hMoved, List.append_assoc, List.append_assoc, hSlice, hSlice]
    · have hStop := hCount.trans (span.utf8ByteSize_slice_le _)
      rw [hFixed _ (by omega), hFixed _ (by omega)]
  · have hLead : utf8Len lead < utf8Len (lead ++ chars) := by
      rw [String.utf8Len_append]
      exact Nat.lt_add_of_pos_right (utf8Len_pos hChars)
    have hAdd := relocate_add hLead (utf8Len (lead ++ chars'))
    obtain ⟨⟨start, stop⟩, rfl⟩ : ∃ inner : Span, span =
        inner.moved (utf8Len (lead ++ chars) + ·) :=
      ⟨⟨span.start - utf8Len (lead ++ chars), span.stop - utf8Len (lead ++ chars)⟩, by
        rw [moved, Nat.add_sub_cancel' hBack, Nat.add_sub_cancel' (hBack.trans hOrder)]⟩
    have hSlice : ∀ front : List Char, (Span.moved (utf8Len front + ·) ⟨start, stop⟩).slice
        (String.ofList (front ++ rest)) = Span.slice ⟨start, stop⟩ (String.ofList rest) := by
      intro front
      rw [String.ofList_append, ← String.utf8ByteSize_ofList]
      exact Span.slice_append_right
    refine ⟨?_, fun count _ => ?_⟩
    · rw [hSlice]
      refine (congrArg (Span.slice · _) ?_).trans (hSlice (lead ++ chars'))
      simp only [moved, hAdd]
    · simp only [moved, Nat.add_assoc, hAdd]

/-- Layout in place of layout moves what stands behind it, if no blank stands next to it. -/
theorem IsLayout.areRelaid {chars chars' lead rest : List Char} {first : List Token} {opened : Bool}
    (h : IsLayout delimiters comments chars) (h' : IsLayout delimiters comments chars')
    (hDelimiters : Delimiter.AreBroken delimiters) (hComments : AreSolid comments)
    (hLead : ∀ c ∈ lead.getLast?, Delimiter.isGap c = false)
    (hRest : ∀ c ∈ rest.head?, Delimiter.isGap c = false)
    (hFirst : SplitsUpTo delimiters 0 lead first opened) :
    ∃ move space space' second opened', AreRelaid delimiters comments (lead ++ chars ++ rest)
      (lead ++ chars' ++ rest) move first space space' second opened' := by
  obtain ⟨tokens, opened', hTokens⟩ := SplitsUpTo.total delimiters 0 rest
  have hSecond := hTokens.shifted (utf8Len (lead ++ chars))
  have hSome : chars ≠ [] := by
    obtain ⟨c, more, rfl, -⟩ := h.begins
    exact List.cons_ne_nil c more
  have hBehind : utf8Len lead < utf8Len (lead ++ chars) := by
    rw [String.utf8Len_append]
    exact Nat.lt_add_of_pos_right (utf8Len_pos hSome)
  have hLe : utf8Len lead ≤ utf8Len (lead ++ chars') := by
    rw [String.utf8Len_append]
    exact Nat.le_add_right _ _
  let move := relocate (utf8Len lead) (utf8Len (lead ++ chars)) (utf8Len (lead ++ chars'))
  have hFront : ∀ count ≤ utf8Len lead, move (0 + count) = move 0 + count := by
    intro count hCount
    rw [Nat.zero_add]
    exact (relocate_of_le hCount).trans (by simp [move, relocate])
  have hAdd : ∀ count, move (utf8Len (lead ++ chars) + count) = utf8Len (lead ++ chars') + count :=
    relocate_add hBehind _
  have hStart : move (utf8Len (lead ++ chars)) = utf8Len (lead ++ chars') := hAdd 0
  have hBack : ∀ count ≤ utf8Len rest, move (utf8Len (lead ++ chars) + count) =
      move (utf8Len (lead ++ chars)) + count := by
    intro count _
    rw [hAdd, hStart]
  have hSecond' := hSecond.moved hBack
  rw [hStart] at hSecond'
  obtain ⟨space, hSpace, hSplits⟩ := h.between hDelimiters hComments hLead hRest hFirst hSecond
  obtain ⟨space', hSpace', hSplits'⟩ := h'.between hDelimiters hComments hLead hRest hFirst hSecond'
  exact ⟨move, space, space', _, opened',
    { monotone := relocate_monotone hLe _
      zero := relocate_of_le (Nat.zero_le _)
      size := by rw [String.utf8Len_append, hAdd, ← String.utf8Len_append]
      splits := hSplits
      splits' := hSplits'
      before := ((hFirst.moved hFront).unique hFirst).1
      rigid := fun token hMem =>
        (List.mem_append.1 hMem).elim (hFirst.isRigid hFront token) (hSecond.isRigid hBack token)
      space := hSpace
      space' := hSpace'
      kept := by
        have hBegin := hFirst.contiguous
        have hEnd := hSecond.contiguous
        rw [Nat.zero_add] at hBegin
        rw [← String.utf8Len_append] at hEnd
        exact ⟨_, _, hBegin, hEnd,
          fun span hOrder hSpan => Span.isKept_relocate hSome hOrder hSpan⟩ }⟩

/-- Layout in place of layout leaves the words as they are. The words in front of it are those of
the text in front of it, apart from blanks at its end. -/
theorem exists_areRelaid (hDelimiters : Delimiter.AreBroken delimiters)
    (hComments : AreSolid comments) (hRun : IsLayout delimiters comments run)
    (hGap : IsLayout delimiters comments gap) (hPre : '\x0b' ∉ pre) (hPost : '\x0b' ∉ post) :
    ∃ move first space space' second opened blanks opened',
      AreRelaid delimiters comments (pre ++ run ++ post) (pre ++ gap ++
        post) move first space space' second opened ∧
      SplitsUpTo delimiters 0 pre (first ++ blanks) opened' ∧
      ∀ token ∈ blanks, ∀ c ∈ token.text.toList, Delimiter.isGap c = true := by
  obtain ⟨lead, before, rfl, hLead, hBefore⟩ := Delimiter.exists_trailing_run pre
  obtain ⟨behind, rest, rfl, hBehind, hRest⟩ := Delimiter.exists_leading_run post
  obtain ⟨first, opened, hFirst⟩ := SplitsUpTo.total delimiters 0 lead
  have hBlank : before.all Text.isAsciiBlank = true ∧ behind.all Text.isAsciiBlank = true := by
    simp only [List.all_eq_true]
    refine ⟨fun c hMem => isAsciiBlank_of_isGap (hBefore c hMem) ?_,
      fun c hMem => isAsciiBlank_of_isGap (hBehind c hMem) ?_⟩
    · rintro rfl
      exact hPre (List.mem_append_right _ hMem)
    · rintro rfl
      exact hPost (List.mem_append_left _ hMem)
  have hWider : ∀ {chars}, IsLayout delimiters comments chars →
      IsLayout delimiters comments (before ++ chars ++ behind) := fun hChars =>
    (hChars.cons_run hDelimiters hComments hBefore hBlank.1).append_run hDelimiters
      hComments hBehind hBlank.2
  obtain ⟨move, space, space', second, opened', hRelaid⟩ :=
    (hWider hRun).areRelaid (hWider hGap) hDelimiters hComments hLead hRest hFirst
  have hParts : ∀ chars, lead ++ (before ++ chars ++ behind) ++ rest =
      lead ++ before ++ chars ++ (behind ++ rest) := by simp
  rw [hParts, hParts] at hRelaid
  by_cases hNone : before = []
  · subst hNone
    refine ⟨move, first, space, space', second, opened', [], opened, hRelaid, ?_, by simp⟩
    simpa using hFirst
  · have hPieces := hFirst.append_run hDelimiters hNone hBefore hLead
    rw [List.append_assoc] at hPieces
    refine ⟨move, first, space, space', second, opened', _, false, hRelaid, hPieces, ?_⟩
    cases opened <;> simpa [Token.placed] using hBefore

end HdlIndex

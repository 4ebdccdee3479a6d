import HdlIndex.Proofs.Text.Cover
import HdlIndex.Token.Split

/-! What it means that a delimiter matches. The relation is said of the piece that is matched and of
what follows it. It does not use the functions that look for a match, and it says nothing of the
order in which delimiters are tried. -/
namespace HdlIndex.Delimiter

/-- A literal that is not empty matches its own text, and a blank matches a whole run of gaps. -/
inductive Matches : Delimiter → List Char → List Char → Prop where
  | literal {text rest : List Char} : text ≠ [] → Matches (.literal text) text rest
  | blank {run rest : List Char} : run ≠ [] → (∀ c ∈ run, isGap c = true) →
      (∀ c ∈ rest.head?, isGap c = false) → Matches .blank run rest

/-- Matching says nothing of an empty piece. -/
theorem Matches.ne_nil {delimiter : Delimiter} {piece rest : List Char}
    (h : delimiter.Matches piece rest) : piece ≠ [] := by
  cases h with
  | literal hText => exact hText
  | blank hRun => exact hRun

private theorem takeWhile_run {run rest : List Char} (hRun : ∀ c ∈ run, isGap c = true)
    (hRest : ∀ c ∈ rest.head?, isGap c = false) : (run ++ rest).takeWhile isGap = run := by
  rw [List.takeWhile_append_of_pos hRun]
  cases rest with
  | nil => simp
  | cons c rest => simp [hRest c rfl]

/-- A match is found where there is one. -/
theorem Matches.take? {delimiter : Delimiter} {piece rest : List Char}
    (h : delimiter.Matches piece rest) : delimiter.take? (piece ++ rest) = some piece.length := by
  cases h with
  | literal hText =>
      cases piece with
      | nil => exact absurd rfl hText
      | cons c text => simp [Delimiter.take?, List.isPrefixOf_iff_prefix]
  | blank hNonempty hRun hRest =>
      have hWhile := takeWhile_run hRun hRest
      cases piece with
      | nil => exact absurd rfl hNonempty
      | cons c run => rw [Delimiter.take?, hWhile]; rfl

/-- What is found is a match. -/
theorem matches_of_take? {delimiter : Delimiter} {chars : List Char} {count : Nat}
    (h : delimiter.take? chars = some count) :
    ∃ piece rest, chars = piece ++ rest ∧ piece.length = count ∧
      delimiter.Matches piece rest := by
  cases delimiter with
  | literal text =>
      cases text with
      | nil => simp [Delimiter.take?] at h
      | cons c text =>
          simp only [Delimiter.take?] at h
          split at h
          · next hStarts =>
            obtain ⟨rest, rfl⟩ := List.isPrefixOf_iff_prefix.1 hStarts
            exact ⟨c :: text, rest, rfl, by simpa using h, .literal (by simp)⟩
          · exact absurd h (by simp)
  | blank =>
      refine ⟨chars.takeWhile isGap, chars.dropWhile isGap, by simp, ?_, ?_⟩
      · simp only [Delimiter.take?] at h
        split at h
        · exact absurd h (by simp)
        · next hLength => rw [hLength]; exact Option.some.inj h
      · refine .blank ?_ (fun c hc => ?_) (fun c hc => ?_)
        · intro hNil
          simp [Delimiter.take?, hNil] at h
        · exact List.all_eq_true.1 List.all_takeWhile c hc
        · cases hDrop : chars.dropWhile isGap with
          | nil => simp [hDrop] at hc
          | cons d rest =>
              have hHead := List.head?_dropWhile_not isGap chars
              simp only [hDrop, List.head?_cons] at hHead hc
              simpa [Option.mem_some_iff.1 hc] using hHead

/-- No delimiter is found exactly where none of the list matches. -/
theorem takeFirst?_eq_none_iff {delimiters : List Delimiter} {chars : List Char} :
    takeFirst? delimiters chars = none ↔
      ∀ delimiter ∈ delimiters, ∀ piece rest, chars = piece ++ rest →
        ¬ delimiter.Matches piece rest := by
  rw [takeFirst?, List.findSome?_eq_none_iff]
  constructor
  · rintro h delimiter hMem piece rest rfl hMatch
    have hNone := h delimiter hMem
    rw [hMatch.take?] at hNone
    cases hNone
  · intro h delimiter hMem
    rw [Option.eq_none_iff_forall_not_mem]
    intro count hCount
    obtain ⟨piece, rest, hChars, -, hMatch⟩ := matches_of_take? hCount
    exact h delimiter hMem piece rest hChars hMatch

/-- The delimiter found is the first of the list that matches. -/
theorem takeFirst?_eq_some {delimiters : List Delimiter} {chars : List Char} {count : Nat}
    (h : takeFirst? delimiters chars = some count) :
    ∃ earlier delimiter later, delimiters = earlier ++ delimiter :: later ∧
      (∀ other ∈ earlier, other.take? chars = none) ∧ delimiter.take? chars = some count := by
  obtain ⟨earlier, delimiter, later, hList, hFound, hEarlier⟩ :=
    List.findSome?_eq_some_iff.1 h
  exact ⟨earlier, delimiter, later, hList, hEarlier, hFound⟩

/-- The delimiter matches a piece that begins at a byte offset of the text. What the piece is
matched against is the whole rest of the text. -/
def MatchesAt (delimiter : Delimiter) (text : String) (offset : Nat) (piece : String) : Prop :=
  ∃ before rest, text.toList = before ++ piece.toList ++ rest ∧
    String.utf8Len before = offset ∧ delimiter.Matches piece.toList rest

end HdlIndex.Delimiter

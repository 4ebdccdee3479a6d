import HdlIndex.Proofs.Token.Seams
import HdlIndex.Proofs.Token.Spaced

/-! A text in brackets. A bracket that is no part of a longer delimiter ends the word in front of it
and is a token of its own, whatever follows. So the text in the brackets is split as it is alone. -/
namespace HdlIndex

open String (utf8Len)

/-- The character is part of no delimiter but of the one that it is itself. -/
def Delimiter.spares (c : Char) : Delimiter → Bool
  | .literal text => text == [c] || ! text.contains c
  | .blank => ! isGap c

/-- The character is a delimiter, and no part of another one. -/
def Delimiter.IsMark (delimiters : List Delimiter) (c : Char) : Prop :=
  .literal [c] ∈ delimiters ∧ ∀ delimiter ∈ delimiters, delimiter.spares c = true

instance (delimiters : List Delimiter) (c : Char) : Decidable (Delimiter.IsMark delimiters c) :=
  inferInstanceAs (Decidable (_ ∧ _))

variable {delimiters : List Delimiter} {chars others : List Char} {tokens tokens' : List Token}
  {c d : Char} {offset : Nat} {opened opened' : Bool}

namespace Delimiter.IsMark

/-- A mark is in no delimiter but its own. -/
theorem eq_of_mem (h : IsMark delimiters c) {text : List Char} (hText : .literal text ∈ delimiters)
    (hMem : c ∈ text) : text = [c] := by
  have hSpares := h.2 _ hText
  rw [spares, Bool.or_eq_true, beq_iff_eq] at hSpares
  exact hSpares.resolve_right (by simpa using hMem)

/-- A mark parts the text from anything behind it. -/
theorem parts_left (h : IsMark delimiters c) (hBlank : .blank ∈ delimiters) (d : Char) :
    Parts delimiters c d := by
  have hGap : isGap c = false := by simpa [spares] using h.2 _ hBlank
  refine ⟨fun text hText hMem _ => ?_, by simp [hGap]⟩
  rw [h.eq_of_mem hText hMem]
  exact Nat.le_refl 1

/-- And from anything in front. -/
theorem parts_right (h : IsMark delimiters d) (hBlank : .blank ∈ delimiters) (c : Char) :
    Parts delimiters c d := by
  obtain ⟨hLiteral, hApart⟩ := h.parts_left hBlank c
  exact ⟨fun text hText hFirst hSecond => hLiteral text hText hSecond hFirst,
    fun hGaps => hApart hGaps.symm⟩

/-- It is found as what it is. -/
theorem takeFirst? (h : IsMark delimiters c) (rest : List Char) :
    Delimiter.takeFirst? delimiters (c :: rest) = some 1 := by
  have hTake : (literal [c]).take? (c :: rest) = some 1 := by simp [take?]
  refine takeFirst?_of_forall h.1 hTake fun delimiter hMem count hCount => ?_
  cases delimiter with
  | blank =>
      have hGap : isGap c = false := by simpa [spares] using h.2 _ hMem
      simp [take?, hGap] at hCount
  | literal text =>
      cases text with
      | nil => cases hCount
      | cons first text =>
          rw [take?] at hCount
          split at hCount
          · next hPrefix =>
            obtain ⟨rfl, -⟩ := List.cons_prefix_cons.1 (List.isPrefixOf_iff_prefix.1 hPrefix)
            obtain rfl : text = [] :=
              List.cons_inj_right _ |>.1 (h.eq_of_mem hMem List.mem_cons_self)
            exact (Option.some.inj hCount).symm
          · cases hCount

end Delimiter.IsMark

namespace SplitsUpTo

/-- No word is under way behind a mark. -/
theorem opened_of_mark (h : SplitsUpTo delimiters offset chars tokens opened)
    (hMark : Delimiter.IsMark delimiters c) (hLast : chars.getLast? = some c) : opened = false := by
  rw [← Bool.not_eq_true]
  intro hOpened
  obtain ⟨d, hMem, hNone⟩ := h.getLast_of_opened hOpened
  obtain rfl : c = d := Option.some.inj (hLast.symm.trans hMem)
  cases (hMark.takeFirst? []).symm.trans hNone

/-- What stands in front of a mark where no word is under way. -/
def bridge (opened : Bool) (offset : Nat) : List Token := if opened then [] else [.placed offset []]

theorem isEmpty_of_mem_bridge {token : Token} (h : token ∈ bridge opened offset) :
    token.isEmpty = true := by
  cases opened
  · obtain rfl := List.mem_singleton.1 h
    rfl
  · cases h

/-- A mark is a token of its own, behind the word that it ends. -/
theorem append_mark (h : SplitsUpTo delimiters offset chars tokens opened)
    (hMark : Delimiter.IsMark delimiters c) (hBlank : .blank ∈ delimiters)
    (h' : SplitsUpTo delimiters (offset + utf8Len chars + c.utf8Size) others tokens' opened') :
    SplitsUpTo delimiters offset (chars ++ c :: others)
      (tokens ++ bridge opened (offset + utf8Len chars) ++
        .placed (offset + utf8Len chars) [c] :: tokens') opened' := by
  have hJoint : Joint delimiters chars (c :: others) := by
    rintro before - d hHead
    obtain rfl := Option.some.inj hHead
    exact hMark.parts_right hBlank before
  have hCut : cut? delimiters (c :: others) = some ⟨[], [c], others⟩ := by
    rw [cut?, cutFrom?, hMark.takeFirst?]
    rfl
  have hFrom : SplitsUpTo delimiters (offset + utf8Len chars) (c :: others)
      (.placed (offset + utf8Len chars) [] :: .placed (offset + utf8Len chars) [c] ::
        tokens') opened' :=
    .cut hCut (by simpa using h')
  have hBoth := h.append_joint hJoint (fun _ => by simp [hMark.takeFirst?]) hFrom
  cases opened <;> simpa [bridge] using hBoth

/-- A text between two marks is split as it is alone. -/
theorem enclosed {lead behind : List Char} {first second : List Token} {opened'' : Bool}
    (hOpen : Delimiter.IsMark delimiters c) (hClose : Delimiter.IsMark delimiters d)
    (hBlank : .blank ∈ delimiters)
    (hLead : SplitsUpTo delimiters offset lead first opened) (hLast : lead.getLast? = some c)
    (h : SplitsUpTo delimiters (offset + utf8Len lead) chars tokens opened')
    (hBehind : SplitsUpTo delimiters
      (offset + utf8Len lead + utf8Len chars + d.utf8Size) behind second
      opened'') :
    SplitsUpTo delimiters offset (lead ++ (chars ++ d :: behind))
      (first ++ (tokens ++ bridge opened' (offset + utf8Len lead + utf8Len chars) ++
        .placed (offset + utf8Len lead + utf8Len chars) [d] :: second)) opened'' := by
  obtain rfl := hLead.opened_of_mark hOpen hLast
  have hJoint : Joint delimiters lead (chars ++ d :: behind) := by
    intro before hBefore after _
    obtain rfl := Option.some.inj (hLast.symm.trans hBefore)
    exact hOpen.parts_left hBlank after
  exact hLead.append_joint hJoint (by simp) (h.append_mark hClose hBlank hBehind)

end SplitsUpTo

end HdlIndex

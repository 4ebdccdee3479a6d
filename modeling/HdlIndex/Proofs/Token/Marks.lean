import HdlIndex.Proofs.Token.Words

/-! What the tokens of a text mark as comments, directive lines and reserved words, without any
regard to what the words mean. The scan goes from one enclosed part to the next: it splits the
tokens behind an opener at its closer, and looks at single words only in between. -/
namespace HdlIndex

/-- The parts of a token list in which no word is looked at. -/
inductive Enclosure where
  | lineComment
  | blockComment
  /-- Where there are escapes, a backslash keeps a quote from closing the string. -/
  | string (escapes : Bool)
  | directive
deriving DecidableEq, Repr

/-- What is marked in a text. -/
inductive Mark where
  | comment (span : Span)
  | directive (span : Span)
  | keyword (span : Span)
deriving DecidableEq, Repr

namespace Mark

/-- The range that is marked. -/
def span : Mark → Span
  | comment span | directive span | keyword span => span

/-- The range of a comment. -/
def comment? : Mark → Option Span
  | comment span => some span
  | _ => none

/-- The range of a directive line. -/
def directive? : Mark → Option Span
  | directive span => some span
  | _ => none

/-- The range of a reserved word. -/
def keyword? : Mark → Option Span
  | keyword span => some span
  | _ => none

end Mark

/-- The marks begin from a byte offset on, and each behind the one before it. -/
def Mark.Ordered (offset : Nat) (marks : List Mark) : Prop :=
  (∀ mark ∈ marks, offset ≤ mark.span.start) ∧ marks.Pairwise (·.span.stop ≤ ·.span.start)

/-- Ordered marks up to an offset, and ordered marks from there on, are ordered together. -/
theorem Mark.Ordered.append {offset middle : Nat} {marks others : List Mark}
    (h : Mark.Ordered offset marks) (hEnd : ∀ mark ∈ marks, mark.span.stop ≤ middle)
    (hMiddle : offset ≤ middle) (hOthers : Mark.Ordered middle others) :
    Mark.Ordered offset (marks ++ others) := by
  refine ⟨?_, List.pairwise_append.2 ⟨h.2, hOthers.2, ?_⟩⟩
  · rw [List.forall_mem_append]
    exact ⟨h.1, fun mark hMem => hMiddle.trans (hOthers.1 mark hMem)⟩
  · exact fun mark hMem other hOther => (hEnd mark hMem).trans (hOthers.1 other hOther)

namespace Enclosure

variable {enclosure : Enclosure} {last token : Token} {tokens : List Token}

/-- The token ends the part, in view of the token before it. -/
def closes : Enclosure → (last token : Token) → Bool
  | lineComment, _, token => token.text = "\n"
  | blockComment, _, token => token.text = "*/"
  | string escapes, last, token =>
    token.text = "\"" && ! (escapes && last.text.toList.getLast? = some '\\')
  | directive, _, token => token.text = "\n" || token.isSentinel

/-- Where a part ends: behind the closer of a block comment, and in front of any other closer. -/
def stop (enclosure : Enclosure) (closer : Token) : Nat :=
  match enclosure with
  | blockComment => closer.span.stop
  | _ => closer.span.start

theorem stop_le (enclosure : Enclosure) {closer : Token}
    (h : closer.span.start ≤ closer.span.stop) : enclosure.stop closer ≤ closer.span.stop := by
  cases enclosure <;> simp [stop, h]

theorem start_le_stop (enclosure : Enclosure) {closer : Token}
    (h : closer.span.start ≤ closer.span.stop) : closer.span.start ≤ enclosure.stop closer := by
  cases enclosure <;> simp [stop, h]

/-- Comments and directive lines are marked as a whole, and strings not at all. -/
def marks (enclosure : Enclosure) (start stop : Nat) : List Mark :=
  match enclosure with
  | lineComment | blockComment => [.comment ⟨start, stop⟩]
  | directive => [.directive ⟨start, stop⟩]
  | string _ => []

theorem marks_ordered (enclosure : Enclosure) (start stop : Nat) :
    Mark.Ordered start (enclosure.marks start stop) ∧
      ∀ mark ∈ enclosure.marks start stop, mark.span.stop = stop := by
  cases enclosure <;> simp [marks, Mark.Ordered, Mark.span]

theorem span_of_mem_marks {start stop : Nat} {mark : Mark}
    (hMem : mark ∈ enclosure.marks start stop) :
    mark.span = ⟨start, stop⟩ := by
  cases enclosure <;> simp_all [marks, Mark.span]

/-- The tokens in front of the first one that closes the part, and those from it on. -/
def split (enclosure : Enclosure) : (last : Token) → List Token → List Token × List Token
  | _, [] => ([], [])
  | last, token :: rest =>
    if enclosure.closes last token then ([], token :: rest)
    else (token :: (enclosure.split token rest).1, (enclosure.split token rest).2)

/-- Splitting at the end of an enclosed part loses no token. -/
theorem split_append (enclosure : Enclosure) (last : Token) (tokens : List Token) :
    (enclosure.split last tokens).1 ++ (enclosure.split last tokens).2 = tokens := by
  induction tokens generalizing last with
  | nil => rfl
  | cons token rest ih =>
      rw [split]
      split
      · rfl
      · exact congrArg (token :: ·) (ih token)

/-- Skipping to the end of an enclosure leaves no more tokens than there were. -/
theorem length_split_le (enclosure : Enclosure) (last : Token) (tokens : List Token) :
    (enclosure.split last tokens).2.length ≤ tokens.length := by
  have hLength := congrArg List.length (enclosure.split_append last tokens)
  rw [List.length_append] at hLength
  omega

end Enclosure

/-- How a language opens enclosed parts, and which of its words are reserved. -/
structure Lexis where
  /-- What a token opens, in view of the tokens before it, the latest first, and of those behind
  it. -/
  opens? : (passed : List Token) → (token : Token) → (rest : List Token) → Option Enclosure
  isReserved : String → Bool

namespace Lexis

/-- The marks of a token list that was taken from a text of `size` bytes. A part that is not closed
reaches to the end of the text. -/
def marks (lexis : Lexis) (size : Nat) : (passed tokens : List Token) → List Mark
  | _, [] => []
  | passed, token :: rest =>
    match lexis.opens? passed token rest with
    | none =>
      (if lexis.isReserved token.text then [.keyword token.span] else []) ++
        lexis.marks size (token :: passed) rest
    | some enclosure =>
      match _hSplit : enclosure.split token rest with
      | (_, []) => enclosure.marks token.span.start size
      | (inside, closer :: behind) =>
        enclosure.marks token.span.start (enclosure.stop closer) ++
          lexis.marks size (closer :: inside.reverse ++ token :: passed) behind
termination_by _ tokens => tokens.length
decreasing_by
  · simp
  · have hLength := enclosure.length_split_le token rest
    rw [_hSplit, List.length_cons] at hLength
    rw [List.length_cons]
    omega

/-- The marks of contiguous tokens follow each other in the text. -/
theorem marks_ordered (lexis : Lexis) {size offset stop : Nat} {passed tokens : List Token}
    (hTokens : Contiguous offset tokens stop) :
    Mark.Ordered offset (lexis.marks size passed tokens) := by
  fun_induction lexis.marks size passed tokens generalizing offset with
  | case1 => exact ⟨by simp, .nil⟩
  | case2 passed token rest hOpens ih =>
      obtain ⟨rfl, hOrder, hRest⟩ := hTokens
      have hWord : Mark.Ordered token.span.start
          (if lexis.isReserved token.text then [.keyword token.span] else []) := by
        split <;> simp [Mark.Ordered, Mark.span]
      refine hWord.append (fun mark hMem => ?_) hOrder (ih hRest)
      split at hMem
      · rw [List.mem_singleton.1 hMem]
        exact Nat.le_refl _
      · cases hMem
  | case3 passed token rest enclosure hOpens inside hSplit =>
      obtain ⟨rfl, -, -⟩ := hTokens
      exact (enclosure.marks_ordered _ _).1
  | case4 passed token rest enclosure hOpens inside closer behind hSplit ih =>
      obtain ⟨rfl, hOrder, hRest⟩ := hTokens
      have hParts := enclosure.split_append token rest
      rw [hSplit] at hParts
      rw [← hParts] at hRest
      obtain ⟨middle, hInside, hStart, hCloser, hBehind⟩ := hRest.of_append
      obtain ⟨hMarks, hStop⟩ := enclosure.marks_ordered token.span.start (enclosure.stop closer)
      refine hMarks.append (fun mark hMem => ?_) ?_ (ih hBehind)
      · rw [hStop mark hMem]
        exact enclosure.stop_le (hStart ▸ hCloser)
      · exact hOrder.trans (hInside.le.trans hCloser)

/-- The token opens nothing and is not reserved, so that nothing is marked on account of it. -/
def Overlooks (lexis : Lexis) (token : Token) : Prop :=
  lexis.isReserved token.text = false ∧ ∀ passed rest, lexis.opens? passed token rest = none

/-- As the tokens that matter have text, all that is marked has some. -/
theorem marks_hasText (lexis : Lexis) {size offset stop : Nat} {passed tokens : List Token}
    (hTokens : Contiguous offset tokens stop) (hSize : stop ≤ size)
    (hText : ∀ token ∈ tokens, token.span.start < token.span.stop ∨ lexis.Overlooks token) :
    ∀ mark ∈ lexis.marks size passed tokens, mark.span.start < mark.span.stop := by
  fun_induction lexis.marks size passed tokens generalizing offset with
  | case1 => simp
  | case2 passed token rest hOpens ih =>
      obtain ⟨-, -, hRest⟩ := hTokens
      rw [List.forall_mem_cons] at hText
      rw [List.forall_mem_append]
      refine ⟨fun mark hMem => ?_, ih hRest hText.2⟩
      split at hMem
      · next hReserved =>
        obtain rfl := List.mem_singleton.1 hMem
        exact hText.1.resolve_right fun hOverlooked => by simp [hOverlooked.1] at hReserved
      · cases hMem
  | case3 passed token rest enclosure hOpens inside hSplit =>
      obtain ⟨-, -, hRest⟩ := hTokens
      have hOpener := (List.forall_mem_cons.1 hText).1.resolve_right fun hOverlooked => by
        simp [hOverlooked.2 passed rest] at hOpens
      intro mark hMem
      rw [Enclosure.span_of_mem_marks hMem]
      exact hOpener.trans_le (hRest.le.trans hSize)
  | case4 passed token rest enclosure hOpens inside closer behind hSplit ih =>
      obtain ⟨-, -, hRest⟩ := hTokens
      have hParts := enclosure.split_append token rest
      rw [hSplit] at hParts
      rw [← hParts] at hRest hText
      obtain ⟨middle, hInside, rfl, hCloser, hBehind⟩ := hRest.of_append
      obtain ⟨hOpener, hOthers⟩ := List.forall_mem_cons.1 hText
      have hOpened := hOpener.resolve_right fun hOverlooked => by
        simp [hOverlooked.2 passed rest] at hOpens
      rw [List.forall_mem_append]
      refine ⟨fun mark hMem => ?_, ih hBehind fun other hMem => hOthers other ?_⟩
      · rw [Enclosure.span_of_mem_marks hMem]
        exact hOpened.trans_le (hInside.le.trans (enclosure.start_le_stop hCloser))
      · exact List.mem_append_right _ (List.mem_cons_of_mem _ hMem)

/-- What one token does to a reader whose marks are those of the scan. `inside` tells what is open
behind the tokens passed, the latest first: an enclosed part and the byte offset at which it
began. -/
structure Guides (lexis : Lexis) (size : Nat) {State : Type}
    (marks : State → List Token → List Mark)
    (inside : State → (passed : List Token) → Option (Enclosure × Nat) → Prop) : Prop where
  passes {state : State} {passed : List Token} {token : Token} {rest : List Token}
    (hState : inside state passed none) (hOpens : lexis.opens? passed token rest = none) :
    ∃ after, inside after (token :: passed) none ∧ marks state (token :: rest) =
      (if lexis.isReserved token.text then [.keyword token.span] else []) ++ marks after rest
  opens {state : State} {passed : List Token} {token : Token} {rest : List Token}
    {enclosure : Enclosure} (hState : inside state passed none)
    (hOpens : lexis.opens? passed token rest = some enclosure) :
    ∃ after, inside after (token :: passed) (some (enclosure, token.span.start)) ∧
      marks state (token :: rest) = marks after rest
  stays {state : State} {passed : List Token} {last token : Token} {rest : List Token}
    {enclosure : Enclosure} {start : Nat}
    (hState : inside state (last :: passed) (some (enclosure, start)))
    (hCloses : enclosure.closes last token = false) :
    ∃ after, inside after (token :: last :: passed) (some (enclosure, start)) ∧
      marks state (token :: rest) = marks after rest
  closes {state : State} {passed : List Token} {last token : Token} {rest : List Token}
    {enclosure : Enclosure} {start : Nat}
    (hState : inside state (last :: passed) (some (enclosure, start)))
    (hCloses : enclosure.closes last token = true) :
    ∃ after, inside after (token :: last :: passed) none ∧ marks state (token :: rest) =
      enclosure.marks start (enclosure.stop token) ++ marks after rest
  ends {state : State} {passed : List Token} (hState : inside state passed none) : marks state [] =
    []
  endsInside {state : State} {passed : List Token} {enclosure : Enclosure} {start : Nat}
    (hState : inside state passed (some (enclosure, start))) :
    marks state [] = enclosure.marks start size

namespace Guides

variable {lexis : Lexis} {size start : Nat} {State : Type} {marks : State → List Token → List Mark}
  {inside : State → List Token → Option (Enclosure × Nat) → Prop} {state : State}
  {passed tokens inner behind : List Token} {last closer : Token} {enclosure : Enclosure}

/-- What is enclosed up to the end of the text makes one mark, which ends there. -/
theorem marks_unclosed (h : lexis.Guides size marks inside)
    (hState : inside state (last :: passed) (some (enclosure, start)))
    (hSplit : enclosure.split last tokens = (inner, [])) :
    marks state tokens = enclosure.marks start size := by
  induction tokens generalizing state last passed inner with
  | nil => exact h.endsInside hState
  | cons token rest ih =>
      rw [Enclosure.split] at hSplit
      split at hSplit
      · cases hSplit
      · next hCloses =>
        obtain ⟨after, hAfter, hMarks⟩ : ∃ after,
            inside after (token :: last :: passed) (some (enclosure, start)) ∧
              marks state (token :: rest) = marks after rest :=
          h.stays hState (by simpa using hCloses)
        rw [hMarks]
        exact ih hAfter (Prod.ext rfl (Prod.mk.inj hSplit).2)

/-- What is enclosed up to a closer makes one mark, and the reading goes on behind the closer. -/
theorem marks_closed (h : lexis.Guides size marks inside)
    (hState : inside state (last :: passed) (some (enclosure, start)))
    (hSplit : enclosure.split last tokens = (inner, closer :: behind)) :
    ∃ after, inside after (closer :: inner.reverse ++ last :: passed) none ∧
      marks state tokens = enclosure.marks start (enclosure.stop closer) ++ marks after behind := by
  induction tokens generalizing state last passed inner with
  | nil => cases hSplit
  | cons token rest ih =>
      rw [Enclosure.split] at hSplit
      split at hSplit
      · next hCloses =>
        obtain ⟨rfl, hBehind⟩ := Prod.mk.inj hSplit
        obtain ⟨rfl, rfl⟩ := List.cons.inj hBehind
        exact h.closes hState hCloses
      · next hCloses =>
        obtain ⟨after, hAfter, hMarks⟩ : ∃ after,
            inside after (token :: last :: passed) (some (enclosure, start)) ∧
              marks state (token :: rest) = marks after rest :=
          h.stays hState (by simpa using hCloses)
        obtain ⟨rfl, hBehind⟩ := Prod.mk.inj hSplit
        rw [hMarks]
        simpa using ih hAfter (Prod.ext rfl hBehind)

/-- Outside of enclosed parts the marks of the reader are those of the scan. -/
theorem marks_eq (h : lexis.Guides size marks inside) (hState : inside state passed none) :
    marks state tokens = lexis.marks size passed tokens := by
  fun_induction lexis.marks size passed tokens generalizing state with
  | case1 => exact h.ends hState
  | case2 passed token rest hOpens ih =>
      obtain ⟨after, hAfter, hMarks⟩ := h.passes hState hOpens
      rw [hMarks, ih hAfter]
  | case3 passed token rest enclosure hOpens inner hSplit =>
      obtain ⟨after, hAfter, hMarks⟩ := h.opens hState hOpens
      rw [hMarks, h.marks_unclosed hAfter hSplit]
  | case4 passed token rest enclosure hOpens inner closer behind hSplit ih =>
      obtain ⟨after, hAfter, hMarks⟩ := h.opens hState hOpens
      obtain ⟨outside, hOutside, hClosed⟩ := h.marks_closed hAfter hSplit
      rw [hMarks, hClosed, ih hOutside]

end Guides

end Lexis

end HdlIndex

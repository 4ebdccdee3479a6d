import HdlIndex.Proofs.Token.Leads
import HdlIndex.Proofs.Token.Lossless

/-! Tokens as words of the text. All tokens but the sentinel stand in the text, and the sentinel
stands where reading ended. -/
namespace HdlIndex

/-- The token as a word. -/
def Token.word (token : Token) : Word := ⟨token.text, token.span⟩

/-- A list with a separator has no other members than before. -/
theorem mem_of_mem_intersperse {α : Type} {separator value : α} {list : List α}
    (h : value ∈ list.intersperse separator) : value = separator ∨ value ∈ list := by
  induction list with
  | nil => cases h
  | cons first list ih =>
      cases list with
      | nil => exact .inr h
      | cons next list =>
          rw [List.intersperse_cons_cons] at h
          rcases List.mem_cons.1 h with rfl | h
          · exact .inr List.mem_cons_self
          rcases List.mem_cons.1 h with rfl | h
          · exact .inl rfl
          · exact (ih h).imp_right (List.mem_cons_of_mem first)

/-- Nor have lists with a separating list. -/
theorem mem_of_mem_intercalate {α : Type} {separator : List α} {lists : List (List α)} {value : α}
    (h : value ∈ List.intercalate separator lists) :
    value ∈ separator ∨ ∃ list ∈ lists, value ∈ list := by
  obtain ⟨list, hList, hMem⟩ := List.mem_flatten.1 h
  rcases mem_of_mem_intersperse hList with rfl | hList
  · exact .inl hMem
  · exact .inr ⟨list, hList, hMem⟩

/-- Joining lists of words with a list between them is joining the texts with the text of that list
between them. -/
theorem join_intercalate (separator : List String) (lists : List (List String)) :
    String.join (List.intercalate separator lists) =
      (String.join separator).intercalate (lists.map String.join) := by
  induction lists with
  | nil => simp
  | cons list lists ih =>
      cases lists with
      | nil => simp
      | cons next lists =>
          rw [List.intercalate_cons_cons, String.join_append, ih]
          simp

/-- Words with single spaces between them are the text that has them so. -/
theorem join_intersperse (words : List String) :
    String.join (words.intersperse " ") = " ".intercalate words := by
  induction words with
  | nil => rfl
  | cons word words ih =>
      cases words with
      | nil => simp
      | cons next words =>
          rw [List.intersperse_cons_cons, String.join_cons, String.join_cons, ih,
            String.intercalate_cons_of_ne_nil (List.cons_ne_nil next words), String.append_assoc]

/-- Looking ahead finds a token of the list. -/
theorem Token.mem_of_nextSignificant {comments : List (String × String)} {closer : Option String}
    {tokens : List Token} {token : Token}
    (h : Token.nextSignificant comments closer tokens = some token) : token ∈ tokens := by
  fun_induction Token.nextSignificant comments closer tokens with
  | case1 => cases h
  | case2 closer head rest ih => exact List.mem_cons_of_mem _ (ih h)
  | case3 head rest hBlank ih => exact List.mem_cons_of_mem _ (ih h)
  | case4 head rest hBlank _ closer hFind ih => exact List.mem_cons_of_mem _ (ih h)
  | case5 head rest hBlank hFind =>
      cases h
      exact List.mem_cons_self

/-- The tokens of a text stand in the text, but for the sentinel. -/
theorem tokenize_standsIn (delimiters : List Delimiter) (limit : Option Nat) (closed : Bool)
    (text : String) :
    ∀ token ∈ (tokenize delimiters limit closed text).list,
      token.word.StandsIn text ∨
        closed = true ∧ token = .sentinel (tokenize delimiters limit closed text).scanned := by
  obtain ⟨tokens, hList, hSplits⟩ := tokenize_splitsInto delimiters limit closed text
  intro token hMem
  rw [hList] at hMem
  rcases List.mem_append.1 hMem with hMem | hMem
  · exact .inl (hSplits.covers [] rfl rfl token hMem)
  · cases closed with
    | false => simp at hMem
    | true =>
        exact .inr ⟨rfl, List.mem_singleton.1 hMem⟩

/-- Contiguous tokens up to an offset and from there on are contiguous together. -/
theorem Contiguous.append {first second : List Token} {offset middle stop : Nat}
    (hFirst : Contiguous offset first middle) (hSecond : Contiguous middle second stop) :
    Contiguous offset (first ++ second) stop := by
  induction first generalizing offset with
  | nil =>
      obtain rfl : offset = middle := hFirst
      exact hSecond
  | cons token rest ih => exact ⟨hFirst.1, hFirst.2.1, ih hFirst.2.2⟩

theorem Contiguous.le {tokens : List Token} {offset stop : Nat}
    (h : Contiguous offset tokens stop) : offset ≤ stop := by
  induction tokens generalizing offset with
  | nil => exact Nat.le_of_eq h
  | cons token rest ih => exact h.2.1.trans (ih h.2.2)

/-- Contiguous tokens can be cut anywhere, and both parts are contiguous. -/
theorem Contiguous.of_append {first second : List Token} {offset stop : Nat}
    (h : Contiguous offset (first ++ second) stop) :
    ∃ middle, Contiguous offset first middle ∧ Contiguous middle second stop := by
  induction first generalizing offset with
  | nil => exact ⟨offset, rfl, h⟩
  | cons token rest ih =>
      obtain ⟨hStart, hStop, hRest⟩ := h
      obtain ⟨middle, hFirst, hSecond⟩ := ih hRest
      exact ⟨middle, ⟨hStart, hStop, hFirst⟩, hSecond⟩

/-- A token of a contiguous list begins behind its start and does not end in front of its own
beginning. -/
theorem Contiguous.le_of_mem {tokens : List Token} {token : Token} {offset stop : Nat}
    (h : Contiguous offset tokens stop) (hMem : token ∈ tokens) :
    offset ≤ token.span.start ∧ token.span.start ≤ token.span.stop := by
  induction tokens generalizing offset with
  | nil => cases hMem
  | cons head rest ih =>
      obtain ⟨hStart, hStop, hRest⟩ := h
      rcases List.mem_cons.1 hMem with rfl | hMem
      · exact ⟨hStart.ge, hStart ▸ hStop⟩
      · exact ⟨hStop.trans (ih hRest hMem).1, (ih hRest hMem).2⟩

/-- No token of a contiguous list ends behind the end of the list. -/
theorem Contiguous.stop_le_of_mem {tokens : List Token} {token : Token} {offset stop : Nat}
    (h : Contiguous offset tokens stop) (hMem : token ∈ tokens) : token.span.stop ≤ stop := by
  induction tokens generalizing offset with
  | nil => cases hMem
  | cons head rest ih =>
      rcases List.mem_cons.1 hMem with rfl | hMem
      · exact h.2.2.le
      · exact ih h.2.2 hMem

/-- A token starts in front of those that follow it. -/
theorem Contiguous.pairwise {tokens : List Token} {offset stop : Nat}
    (h : Contiguous offset tokens stop) :
    tokens.Pairwise fun earlier later => earlier.span.start ≤ later.span.start := by
  induction tokens generalizing offset with
  | nil => exact .nil
  | cons token rest ih =>
      obtain ⟨hStart, hStop, hRest⟩ := h
      refine .cons (fun later hMem => ?_) (ih hRest)
      rw [hStart]
      exact hStop.trans (hRest.le_of_mem hMem).1

/-- The first word starts in front of the end of every other one. -/
theorem Contiguous.start_le_stop {tokens : List Token} {first token : Token} {offset stop : Nat}
    (h : Contiguous offset tokens stop) (hFirst : (significant tokens).head? = some first)
    (hMem : token ∈ significant tokens) : first.span.start ≤ token.span.stop := by
  have hSorted : (significant tokens).Pairwise _ := h.pairwise.sublist List.filter_sublist
  have hClosed := (h.le_of_mem (List.mem_of_mem_filter hMem)).2
  obtain ⟨others, hOthers⟩ := List.head?_eq_some_iff.1 hFirst
  rw [hOthers] at hSorted hMem
  rcases List.mem_cons.1 hMem with rfl | hLater
  · exact hClosed
  · exact (List.rel_of_pairwise_cons hSorted hLater).trans hClosed

/-- The sentinel leaves no gap either. -/
theorem tokenize_contiguous (delimiters : List Delimiter) (limit : Option Nat) (closed : Bool)
    (text : String) :
    Contiguous 0 (tokenize delimiters limit closed text).list
      (tokenize delimiters limit closed text).scanned := by
  obtain ⟨tokens, hList, hSplits⟩ := tokenize_splitsInto delimiters limit closed text
  rw [hList]
  refine hSplits.contiguous.append ?_
  cases closed <;> simp [Contiguous, Token.sentinel, Span.empty]

/-- Reading ends between characters of the text. -/
theorem tokenize_scanned (delimiters : List Delimiter) (limit : Option Nat) (closed : Bool)
    (text : String) :
    (Word.absent (tokenize delimiters limit closed text).scanned).StandsIn text := by
  obtain ⟨tokens, -, hSplits⟩ := tokenize_splitsInto delimiters limit closed text
  obtain ⟨rest, hText, hScanned, -⟩ := hSplits.joins
  exact ⟨tokens.flatMap (·.text.toList), rest, by simp [Word.absent, hText],
    by simp [Word.absent, Span.empty, hScanned]⟩

theorem tokenize_scanned_le (delimiters : List Delimiter) (limit : Option Nat) (closed : Bool)
    (text : String) :
    (tokenize delimiters limit closed text).scanned ≤ text.utf8ByteSize :=
  (tokenize_scanned delimiters limit closed text).within.stop_le

/-- The end of the text stands in the text. -/
theorem absent_size_standsIn (text : String) : (Word.absent text.utf8ByteSize).StandsIn text :=
  ⟨text.toList, [], by simp [Word.absent], by simp [Word.absent, Span.empty]⟩

/-- An identifier is not blank. -/
theorem isBlank_of_isNameLike {token : Token} (h : isNameLike token.text = true) :
    token.isBlank = false := by
  rw [isNameLike] at h
  cases hChars : token.text.toList with
  | nil =>
      rw [hChars] at h
      cases h
  | cons c chars =>
      rw [hChars] at h
      have hStart : (Text.isLetter c || c == '_' || c == '\\') = true := h
      have hBlank : Text.isAsciiBlank c = false := by
        rw [← Bool.not_eq_true]
        intro hBlank
        simp only [Text.isAsciiBlank, Bool.or_eq_true, beq_iff_eq] at hBlank
        rcases hBlank with (((rfl | rfl) | rfl) | rfl) | rfl <;> exact absurd hStart (by decide)
      rw [Token.isBlank, hChars, List.all_cons, hBlank, Bool.false_and]

end HdlIndex

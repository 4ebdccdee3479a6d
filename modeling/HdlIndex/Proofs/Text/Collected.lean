import HdlIndex.Capture

/-! What is collected from tokens, and what trimming leaves of it. -/
namespace HdlIndex

namespace Text

variable {chars : List Char}

theorem dropWhile_isBlank (h : ∀ c ∈ chars.head?, isBlank c = false) :
    chars.dropWhile isBlank = chars := by
  cases chars with
  | nil => rfl
  | cons c chars => exact List.dropWhile_cons_of_neg (by simp [h c rfl])

/-- Where no blank is at either end, there is nothing to trim. -/
theorem trim_eq_self (hHead : ∀ c ∈ chars.head?, isBlank c = false)
    (hLast : ∀ c ∈ chars.getLast?, isBlank c = false) : trim chars = chars := by
  rw [← List.head?_reverse] at hLast
  rw [trim, dropWhile_isBlank hHead, trimEnd, dropWhile_isBlank hLast, List.reverse_reverse]

/-- One more blank at the end is trimmed too. -/
theorem trim_append_blank {c : Char} (h : isBlank c = true) : trim (chars ++ [c]) = trim chars := by
  have hEnd (text : List Char) : trimEnd (text ++ [c]) = trimEnd text := by
    rw [trimEnd, List.reverse_append, List.reverse_singleton, List.singleton_append,
      List.dropWhile_cons_of_pos h, trimEnd]
  rw [trim, List.dropWhile_append]
  split
  · next hAll =>
    rw [List.isEmpty_iff] at hAll
    rw [trim, hAll, List.dropWhile_cons_of_pos h]
    rfl
  · rw [hEnd, trim]

/-- The text with one space in place of each run of blanks. -/
def collapse : List Char → List Char
  | [] => []
  | c :: rest =>
    if isAsciiBlank c then
      if rest.head?.any isAsciiBlank then collapse rest else ' ' :: collapse rest
    else c :: collapse rest

theorem collapse_cons {c : Char} (h : isAsciiBlank c = false) (chars : List Char) :
    collapse (c :: chars) = c :: collapse chars := by
  simp [collapse, h]

/-- A character that is no blank stays at the end, whatever is in front of it. -/
theorem collapse_concat {c : Char} (h : isAsciiBlank c = false) (chars : List Char) :
    collapse (chars ++ [c]) = collapse chars ++ [c] := by
  induction chars with
  | nil => simp [collapse, h]
  | cons d chars ih =>
      have hHead : (chars ++ [c]).head?.any isAsciiBlank = chars.head?.any isAsciiBlank := by
        cases chars <;> simp [h]
      rw [List.cons_append, collapse, collapse, hHead, ih]
      split
      · split <;> rfl
      · rfl

/-- Characters that are blank alike have their runs alike. -/
theorem collapse_map {f : Char → Char} (hBlank : ∀ c, isAsciiBlank (f c) = isAsciiBlank c)
    (hSpace : f ' ' = ' ') (chars : List Char) :
    collapse (chars.map f) = (collapse chars).map f := by
  induction chars with
  | nil => rfl
  | cons c chars ih =>
      have hHead : (chars.map f).head?.any isAsciiBlank = chars.head?.any isAsciiBlank := by
        cases chars <;> simp [hBlank]
      rw [List.map_cons, collapse, collapse, hBlank, hHead, ih]
      split
      · split
        · rfl
        · rw [List.map_cons, hSpace]
      · rfl

theorem isAsciiBlank_eq_false {c : Char} (h : isBlank c = false) : isAsciiBlank c = false := by
  rw [← Bool.not_eq_true]
  intro hBlank
  rw [isBlank_of_isAsciiBlank hBlank] at h
  cases h

/-- Where no blank is at either end, none is there with the runs of blanks collapsed. -/
theorem trim_collapse (hHead : ∀ c ∈ chars.head?, isBlank c = false)
    (hLast : ∀ c ∈ chars.getLast?, isBlank c = false) : trim (collapse chars) = collapse chars := by
  apply trim_eq_self
  · cases chars with
    | nil => simp [collapse]
    | cons c chars =>
        rw [collapse_cons (isAsciiBlank_eq_false (hHead c rfl))]
        exact hHead
  · obtain rfl | ⟨front, c, rfl⟩ := List.eq_nil_or_concat chars
    · simp [collapse]
    · have hBlank : isBlank c = false := hLast c (by simp)
      rw [List.concat_eq_append, collapse_concat (isAsciiBlank_eq_false hBlank)]
      simpa using hBlank

end Text

theorem Token.isBlank_of_space {token : Token} (h : token.text = " ") : token.isBlank = true := by
  rw [isBlank, h]
  decide

theorem isBlank_eq_false {token : Token} {text : String} (hText : token.text = text)
    (h : text.toList.all Text.isAsciiBlank = false) : token.isBlank = false := by
  rw [Token.isBlank, hText, h]

/-- One space. -/
def Token.space : Token := ⟨" ", .empty 0⟩

namespace Capture

/-- Adds tokens one after the other. -/
def pushAll (capture : Capture) (tokens : List Token) : Capture := tokens.foldl push capture

variable {capture : Capture} {token : Token} {tokens : List Token}

/-- Whether text is being collected is not a matter of what was collected. -/
theorem active_push : (capture.push token).active = capture.active := by
  rw [push]
  split
  · rfl
  split
  · unfold pushBlank
    split <;> rfl
  · rfl

theorem active_pushAll : (capture.pushAll tokens).active = capture.active := by
  induction tokens generalizing capture with
  | nil => rfl
  | cons token tokens ih => rw [pushAll, List.foldl_cons, ← pushAll, ih, active_push]

theorem absorb_of_active (h : capture.active = true) :
    capture.absorb token = capture.push token := by
  rw [absorb, if_pos h]

/-- A token without text is not collected. -/
theorem absorb_of_isEmpty (h : token.isEmpty = true) : capture.absorb token = capture := by
  simp [absorb, push, h]

/-- Blanks at the beginning are not collected. -/
theorem push_fresh (h : token.isBlank = true) : Capture.fresh.push token = .fresh := by
  rw [push, h]
  split <;> rfl

/-- A blank at the end is not part of the collected text. -/
theorem text_push_blank (h : token.isBlank = true) : (capture.push token).text = capture.text := by
  rw [push, h, if_pos rfl]
  split
  · rfl
  rw [pushBlank]
  split
  · rfl
  · rfl
  · rw [text, text, List.reverse_cons, Text.trim_append_blank (by decide)]

theorem push_blank (hBlank : token.isBlank = true) (hSome : token.isEmpty = false) :
    capture.push token = capture.pushBlank := by
  simp [push, hBlank, hSome]

theorem pushBlank_of_ne {c : Char} {rest : List Char} (h : capture.reversed = c :: rest)
    (hSpace : c ≠ ' ') : capture.pushBlank = ⟨' ' :: c :: rest, capture.active⟩ := by
  simp [pushBlank, h, hSpace]

/-- Two spaces in a row are one. -/
theorem pushBlank_idem : capture.pushBlank.pushBlank = capture.pushBlank := by
  cases hReversed : capture.reversed with
  | nil => simp [pushBlank, hReversed]
  | cons c rest =>
      by_cases hSpace : c = ' '
      · simp [pushBlank, hReversed, hSpace]
      · rw [pushBlank_of_ne hReversed hSpace]
        rfl

/-- A blank is collected as one space. -/
theorem absorb_blank (hBlank : token.isBlank = true) (hSome : token.isEmpty = false) :
    capture.absorb token = capture.absorb .space := by
  have hSpace : capture.push .space = capture.pushBlank :=
    push_blank (Token.isBlank_of_space rfl) rfl
  rw [absorb, absorb, push_blank hBlank hSome, hSpace]

/-- Blanks behind a space are not collected. -/
theorem absorb_space (hBlank : token.isBlank = true) :
    (capture.absorb .space).absorb token = capture.absorb .space := by
  cases hSome : token.isEmpty with
  | true => exact absorb_of_isEmpty hSome
  | false =>
      have hSpace : ∀ capture : Capture, capture.push .space = capture.pushBlank := fun _ =>
        push_blank (Token.isBlank_of_space rfl) rfl
      have hActive : capture.pushBlank.active = capture.active := by
        rw [← hSpace, active_push]
      rw [absorb_blank hBlank hSome, absorb, absorb, hSpace, hSpace]
      split
      · rw [pushBlank_idem]
        split <;> rfl
      · rfl

/-- Adds one character. A blank is one space, and it is none behind another one or in front of
everything. -/
def pushChar (capture : Capture) (c : Char) : Capture :=
  if Text.isAsciiBlank c then capture.pushBlank else { capture with reversed := c ::
    capture.reversed }

variable {chars : List Char}

theorem pushChar_blank {c : Char} (h : Text.isAsciiBlank c = true) :
    capture.pushChar c = capture.pushBlank :=
  if_pos h

theorem pushChar_black {c : Char} (h : Text.isAsciiBlank c = false) :
    capture.pushChar c = { capture with reversed := c :: capture.reversed } := by
  simp [pushChar, h]

/-- Blanks in a row are one. -/
theorem foldl_pushChar_blanks (h : ∀ c ∈ chars, Text.isAsciiBlank c = true) (hSome : chars ≠ []) :
    chars.foldl pushChar capture = capture.pushBlank := by
  induction chars generalizing capture with
  | nil => exact absurd rfl hSome
  | cons c chars ih =>
      rw [List.forall_mem_cons] at h
      rw [List.foldl_cons, pushChar_blank h.1]
      cases chars with
      | nil => rfl
      | cons d chars => rw [ih h.2 (List.cons_ne_nil d chars), pushBlank_idem]

/-- Characters that are no blanks are added as they are, the latest in front. -/
theorem foldl_pushChar_blacks (h : ∀ c ∈ chars, Text.isAsciiBlank c = false) :
    chars.foldl pushChar capture =
      { capture with reversed := chars.reverse ++ capture.reversed } := by
  induction chars generalizing capture with
  | nil => rfl
  | cons c chars ih =>
      rw [List.forall_mem_cons] at h
      rw [List.foldl_cons, pushChar_black h.1, ih h.2]
      simp

/-- A token that is blank, or that has no blank in it, is added character by character. -/
theorem push_eq_foldl (h : (∀ c ∈ token.text.toList, Text.isAsciiBlank c = true) ∨
    ∀ c ∈ token.text.toList, Text.isAsciiBlank c = false) :
    capture.push token = token.text.toList.foldl pushChar capture := by
  cases hEmpty : token.isEmpty with
  | true =>
      have hText : token.text = "" := String.isEmpty_iff.1 hEmpty
      simp [push, hEmpty, hText]
  | false =>
      have hSome : token.text.toList ≠ [] := by simpa [Token.isEmpty] using hEmpty
      rcases h with hBlank | hBlack
      · rw [foldl_pushChar_blanks hBlank hSome, push_blank (List.all_eq_true.2 hBlank) hEmpty]
      · obtain ⟨c, chars, hChars⟩ := List.exists_cons_of_ne_nil hSome
        have hWord : token.isBlank = false := by
          simp [Token.isBlank, hChars, hBlack c (by simp [hChars])]
        rw [foldl_pushChar_blacks hBlack, push, hEmpty, hWord]
        rfl

/-- Characters are collected with one space for each run of blanks. -/
theorem reversed_foldl_pushChar
    (h : chars.head?.any Text.isAsciiBlank = true → ∃ c ∈ capture.reversed.head?, c ≠ ' ') :
    (chars.foldl pushChar capture).reversed = (Text.collapse chars).reverse ++
      capture.reversed := by
  induction chars generalizing capture with
  | nil => rfl
  | cons c chars ih =>
      rw [List.foldl_cons, Text.collapse]
      cases hBlank : Text.isAsciiBlank c with
      | false =>
          have hSpace : c ≠ ' ' := by
            rintro rfl
            cases hBlank
          rw [pushChar_black hBlank, ih fun _ => ⟨c, rfl, hSpace⟩]
          simp
      | true =>
          obtain ⟨d, hHead, hSpace⟩ := h hBlank
          obtain ⟨rest, hRest⟩ := List.head?_eq_some_iff.1 hHead
          rw [pushChar_blank hBlank, if_pos rfl]
          split
          · next hNext =>
            -- The next blank is the same one.
            have hSame : chars.foldl pushChar capture.pushBlank = chars.foldl pushChar capture := by
              obtain ⟨e, more, rfl⟩ :=
                List.exists_cons_of_ne_nil (l := chars) (by rintro rfl; cases hNext)
              have hBlank : Text.isAsciiBlank e = true := hNext
              rw [List.foldl_cons, List.foldl_cons, pushChar_blank hBlank, pushChar_blank hBlank,
                pushBlank_idem]
            rw [hSame, ih fun _ => ⟨d, hHead, hSpace⟩]
          · next hNext =>
            rw [pushBlank_of_ne hRest hSpace, ih fun hHere => absurd hHere hNext, hRest]
            simp

/-- The text that is collected from characters has one space for each run of blanks, and none at its
ends. -/
theorem text_foldl_pushChar_trim (chars : List Char) :
    (chars.foldl pushChar .fresh).text = String.ofList (Text.trim (Text.collapse chars)) := by
  induction chars with
  | nil => rfl
  | cons c chars ih =>
      cases hBlank : Text.isAsciiBlank c with
      | true =>
          -- In front of everything a blank is not collected, and its space is trimmed.
          have hSpace : Text.trim (' ' :: Text.collapse chars) = Text.trim (Text.collapse chars) :=
            congrArg Text.trimEnd (List.dropWhile_cons_of_pos (by decide))
          have hTrim : Text.trim (Text.collapse (c :: chars)) =
              Text.trim (Text.collapse chars) := by
            rw [Text.collapse, if_pos hBlank]
            split
            · rfl
            · exact hSpace
          rw [List.foldl_cons, pushChar_blank hBlank, hTrim, ← ih]
          rfl
      | false =>
          have hReversed : ((c :: chars).foldl pushChar .fresh).reversed =
              (Text.collapse (c :: chars)).reverse ++ [] := by
            refine reversed_foldl_pushChar fun hHead => ?_
            rw [List.head?_cons, Option.any_some, hBlank] at hHead
            cases hHead
          rw [text, hReversed, List.append_nil, List.reverse_reverse]

/-- The text that is collected from characters between two that are no blanks. -/
theorem text_foldl_pushChar (hHead : ∀ c ∈ chars.head?, Text.isBlank c = false)
    (hLast : ∀ c ∈ chars.getLast?, Text.isBlank c = false) :
    (chars.foldl pushChar .fresh).text = String.ofList (Text.collapse chars) := by
  rw [text_foldl_pushChar_trim, Text.trim_collapse hHead hLast]

end Capture

end HdlIndex

import HdlIndex.Proofs.Text.Collected
import HdlIndex.Proofs.Token.Leads
import HdlIndex.Proofs.Token.Lexes

/-! Texts in which a space stands behind each word, and there is no other blank. The tokenizer finds
the words where they stand, and what is collected from some of them is a part of the text. -/
namespace HdlIndex

/-- Each word with the space behind it. -/
def spaced (words : List String) : List String := words.flatMap fun word => [word, " "]

/-- The text of the words. -/
def spacedText (words : List String) : String := String.join (spaced words)

/-- There is no blank in the word, and something else. -/
def IsSolid (word : String) : Prop := word ≠ "" ∧ ∀ c ∈ word.toList, Text.isBlank c = false

/-- The word is found as a whole in front of a space. -/
def Delimiter.Finds (delimiters : List Delimiter) (word : String) : Prop :=
  (∀ c ∈ word.toList, Plain delimiters c) ∨
  ∀ rest, takeFirst? delimiters (word.toList ++ ' ' :: rest) = some word.toList.length

variable {delimiters : List Delimiter} {word : String} {words others : List String} {token : Token}
  {tokens : List Token}

@[simp]
theorem spaced_cons (word : String) (words : List String) :
    spaced (word :: words) = word :: " " :: spaced words := rfl

@[simp]
theorem spaced_append (words others : List String) :
    spaced (words ++ others) = spaced words ++ spaced others :=
  List.flatMap_append

theorem toList_spacedText_cons (word : String) (words : List String) :
    (spacedText (word :: words)).toList = word.toList ++ ' ' :: (spacedText words).toList := by
  simp [spacedText]

/-- A word without gaps that is not empty is no blank token. -/
theorem IsSolid.isBlank_token (h : IsSolid token.text) : token.isBlank = false := by
  obtain ⟨hNonempty, hChars⟩ := h
  obtain ⟨c, chars, hText⟩ :=
    List.exists_cons_of_ne_nil (l := token.text.toList) (by simpa using hNonempty)
  rw [hText, List.forall_mem_cons] at hChars
  have hBlank : Text.isAsciiBlank c = false := by
    rw [← Bool.not_eq_true]
    intro hBlank
    simp [Text.isBlank_of_isAsciiBlank hBlank] at hChars
  simp [Token.isBlank, hText, hBlank]

/-- The words are what is not blank among the tokens. -/
theorem text_significant (hWords : ∀ word ∈ words, IsSolid word)
    (hTokens : tokens.map (·.text) = spaced words) :
    (significant tokens).map (·.text) = words := by
  induction words generalizing tokens with
  | nil =>
      obtain rfl : tokens = [] := by simpa [spaced] using hTokens
      rfl
  | cons word words ih =>
      rw [List.forall_mem_cons] at hWords
      rw [spaced_cons, List.map_eq_cons_iff] at hTokens
      obtain ⟨token, _, rfl, rfl, hTokens⟩ := hTokens
      rw [List.map_eq_cons_iff] at hTokens
      obtain ⟨space, rest, rfl, hSpace, hRest⟩ := hTokens
      simpa [significant, hWords.1.isBlank_token, Token.isBlank_of_space hSpace]
        using ih hWords.2 hRest

/-- A text of spaced words is lexed into the words and the spaces. -/
theorem lexes_spacedText (hWords : ∀ word ∈ words, IsSolid word ∧ Delimiter.Finds delimiters word)
    (hSpace : ∀ rest, (∀ c ∈ rest.head?, Delimiter.isGap c = false) →
      Delimiter.takeFirst? delimiters (' ' :: rest) = some 1) :
    Lexes delimiters (spacedText words).toList ((spaced words).map String.toList) := by
  induction words with
  | nil => exact .nil
  | cons word words ih =>
      rw [List.forall_mem_cons] at hWords
      obtain ⟨⟨hSolid, hFinds⟩, hWords⟩ := hWords
      have hHead : ∀ c ∈ (spacedText words).toList.head?, Delimiter.isGap c = false := by
        intro c hc
        cases words with
        | nil => simp [spacedText, spaced] at hc
        | cons next words =>
            obtain ⟨hNonempty, hChars⟩ := hWords next List.mem_cons_self |>.1
            rw [toList_spacedText_cons,
              List.head?_append_of_ne_nil _ (by simpa using hNonempty)] at hc
            exact Delimiter.isGap_eq_false (hChars c (List.mem_of_head? hc))
      have hGap : Delimiter.takeFirst? delimiters (" ".toList ++ (spacedText words).toList) =
          some " ".toList.length := hSpace _ hHead
      have hBehind : Lexes delimiters (' ' :: (spacedText words).toList)
          (" ".toList :: (spaced words).map String.toList) := .delimiter hGap (ih hWords)
      rw [toList_spacedText_cons, spaced_cons, List.map_cons, List.map_cons]
      rcases hFinds with hPlain | hFound
      · refine .word (by simpa using hSolid.1) hPlain (.inr ?_) hBehind
        rw [hSpace _ hHead]
        exact Option.some_ne_none 1
      · exact .delimiter (hFound _) hBehind

namespace Capture

variable {capture : Capture}

/-- Spaced words are added as they stand. -/
theorem reversed_pushAll_spaced (hWords : ∀ word ∈ words, IsSolid word)
    (hTokens : tokens.map (·.text) = spaced words) :
    (capture.pushAll tokens).reversed =
      (spacedText words).toList.reverse ++ capture.reversed := by
  induction words generalizing tokens capture with
  | nil =>
      obtain rfl : tokens = [] := by simpa [spaced] using hTokens
      rfl
  | cons word words ih =>
      rw [List.forall_mem_cons] at hWords
      rw [spaced_cons, List.map_eq_cons_iff] at hTokens
      obtain ⟨token, _, rfl, rfl, hTokens⟩ := hTokens
      rw [List.map_eq_cons_iff] at hTokens
      obtain ⟨space, rest, rfl, hSpace, hRest⟩ := hTokens
      obtain ⟨hNonempty, hChars⟩ := hWords.1
      have hPushed : (capture.push token).reversed =
          token.text.toList.reverse ++ capture.reversed := by
        simp [push, Token.isEmpty, hNonempty, hWords.1.isBlank_token, pushText]
      have hGap : ((capture.push token).push space).reversed =
          ' ' :: (token.text.toList.reverse ++ capture.reversed) := by
        obtain ⟨chars, c, hText⟩ :=
          (List.eq_nil_or_concat' token.text.toList).resolve_left (by simpa using hNonempty)
        have hLast : c ≠ ' ' := by
          rintro rfl
          have hBlank := hChars ' ' (by simp [hText])
          cases hBlank
        generalize capture.push token = pushed at hPushed
        simp [push, pushBlank, Token.isEmpty, hSpace, Token.isBlank_of_space hSpace, hPushed, hText,
          hLast]
      rw [pushAll, List.foldl_cons, List.foldl_cons, ← pushAll, ih hWords.2 hRest, hGap]
      simp [spacedText]

end Capture

/-- The last space is not between words. -/
theorem spacedText_concat (words : List String) (last : String) :
    spacedText (words ++ [last]) = " ".intercalate (words ++ [last]) ++ " " := by
  induction words with
  | nil => simp [spacedText, spaced]
  | cons word words ih =>
      have hText : spacedText (word :: (words ++ [last])) =
          word ++ " " ++ spacedText (words ++ [last]) := by
        simp [spacedText, String.append_assoc]
      rw [List.cons_append, hText, ih, String.intercalate_cons_of_ne_nil (by simp)]
      simp [String.append_assoc]

/-- The text collected from spaced words is the words with a space between them. -/
theorem Capture.text_pushAll_spaced (hWords : ∀ word ∈ words, IsSolid word)
    (hTokens : tokens.map (·.text) = spaced words) :
    (Capture.fresh.pushAll tokens).text = " ".intercalate words := by
  have hReversed :
      (Capture.fresh.pushAll tokens).reversed = (spacedText words).toList.reverse ++ [] :=
    reversed_pushAll_spaced hWords hTokens
  rw [text, hReversed, List.append_nil, List.reverse_reverse]
  obtain rfl | ⟨front, last, rfl⟩ := List.eq_nil_or_concat' words
  · rfl
  have hSpace : " ".toList = [' '] := rfl
  have hEnds : (" ".intercalate (front ++ [last])).toList =
      (spacedText front).toList ++ last.toList := by
    have hText := spacedText_concat front last
    have hParts : spacedText (front ++ [last]) = spacedText front ++ last ++ " " := by
      simp [spacedText, spaced, String.append_assoc]
    rw [hParts, String.append_left_inj] at hText
    rw [← hText, String.toList_append]
  have hLast := hWords last (by simp)
  have hNonempty : last.toList ≠ [] := by simpa using hLast.1
  rw [spacedText_concat, String.toList_append, hSpace, Text.trim_append_blank (by decide),
    Text.trim_eq_self, String.ofList_toList]
  · intro c hc
    cases front with
    | nil =>
        rw [hEnds] at hc
        exact hLast.2 c (by simpa [spacedText, spaced] using List.mem_of_head? hc)
    | cons first front =>
        have hFirst := hWords first (by simp)
        rw [hEnds, toList_spacedText_cons, List.append_assoc,
          List.head?_append_of_ne_nil _ (by simpa using hFirst.1)] at hc
        exact hFirst.2 c (List.mem_of_head? hc)
  · intro c hc
    rw [hEnds, List.getLast?_append_of_ne_nil _ hNonempty] at hc
    exact hLast.2 c (List.mem_of_getLast? hc)

namespace Machine

variable {Event State : Type} {machine : Machine Event State} {P Q R : State → Prop}
  {barred : List String}

/-- The spaced words lead from one property to another in front of every word but the barred
ones. -/
def LeadsAlong (machine : Machine Event State) (barred words : List String) (P Q : State → Prop) :
    Prop :=
  (∀ word ∈ words, IsSolid word) → ∀ tokens after, tokens.map (·.text) = spaced words →
    (∀ next ∈ after, next.text ∉ barred) → machine.Leads tokens after P Q

namespace LeadsAlong

theorem nil : machine.LeadsAlong barred [] P P := by
  intro _ tokens after hTokens _
  obtain rfl : tokens = [] := by simpa [spaced] using hTokens
  exact .nil

/-- What words lead to in front of any word that is not barred. -/
theorem of_through (h : ∀ tokens after, tokens.map (·.text) = words →
    (∀ next ∈ after, next.text ∉ barred) → machine.LeadsThrough tokens after P Q) :
    machine.LeadsAlong barred words P Q := by
  intro hWords tokens after hTokens hAfter
  exact h (significant tokens) after (text_significant hWords hTokens) hAfter tokens rfl

/-- What is barred behind the first words must be barred behind all of them, unless others
follow. -/
theorem append_mono {barred' : List String} (h : machine.LeadsAlong barred words P Q)
    (h' : machine.LeadsAlong barred' others Q R) (hBarred : ∀ word ∈ others.head?, word ∉ barred)
    (hEnd : others = [] → barred ⊆ barred') : machine.LeadsAlong barred' (words ++ others) P R := by
  intro hWords tokens after hTokens hAfter
  rw [List.forall_mem_append] at hWords
  rw [spaced_append, List.map_eq_append_iff] at hTokens
  obtain ⟨front, back, rfl, hFront, hBack⟩ := hTokens
  have hText := text_significant hWords.2 hBack
  refine (h hWords.1 front _ hFront ?_).append (h' hWords.2 back after hBack hAfter)
  intro next hNext
  rcases Option.or_eq_some_iff.1 hNext with hHead | ⟨hNone, hLater⟩
  · apply hBarred
    rw [← hText, List.head?_map, hHead]
    rfl
  · have hNil : others = [] := by rw [← hText, List.head?_eq_none_iff.1 hNone, List.map_nil]
    exact fun hMem => hAfter next hLater (hEnd hNil hMem)

theorem append (h : machine.LeadsAlong barred words P Q)
    (h' : machine.LeadsAlong barred others Q R) (hBarred : ∀ word ∈ others.head?, word ∉ barred) :
    machine.LeadsAlong barred (words ++ others) P R :=
  append_mono h h' hBarred fun _ => List.Subset.refl barred

/-- Words that lead on whatever stands behind them may stand in front of any others. -/
theorem append_free (h : machine.LeadsAlong [] words P Q)
    (h' : machine.LeadsAlong barred others Q R) :
    machine.LeadsAlong barred (words ++ others) P R :=
  append_mono h h' (by simp) (by simp)

theorem mono {barred' : List String} (hBarred : barred ⊆ barred')
    (h : machine.LeadsAlong barred words P Q) : machine.LeadsAlong barred' words P Q :=
  fun hWords tokens after hTokens hAfter =>
    h hWords tokens after hTokens fun next hNext hMem => hAfter next hNext (hBarred hMem)

theorem of_imp (hState : ∀ state, P state → Q state) (h : machine.LeadsAlong barred words Q R) :
    machine.LeadsAlong barred words P R :=
  fun hWords tokens after hTokens hAfter events state hReads hFirst =>
    h hWords tokens after hTokens hAfter events state hReads (hState state hFirst)

theorem imp (h : machine.LeadsAlong barred words P Q) (hState : ∀ state, Q state → R state) :
    machine.LeadsAlong barred words P R := by
  intro hWords tokens after hTokens hAfter events state hReads hFirst
  exact hState _ (h hWords tokens after hTokens hAfter events state hReads hFirst)

/-- A property with a parameter holds for some value of it. -/
theorem of_exists {α : Type} {P : α → State → Prop}
    (h : ∀ parameter, machine.LeadsAlong barred words (P parameter) Q) :
    machine.LeadsAlong barred words (fun state => ∃ parameter, P parameter state) Q := by
  rintro hWords tokens after hTokens hAfter events state hReads ⟨parameter, hState⟩
  exact h parameter hWords tokens after hTokens hAfter events state hReads hState

/-- Words and spaces are collected as they stand. The depth of brackets follows the words, and a
word that has no depth behind it must not occur. -/
theorem collect (next : Nat → String → Option Nat) {P : Nat → Capture → State → Prop}
    (hSpace : ∀ depth expr token state, token.text = " " → P depth expr state →
      P depth (expr.push token) (machine.step state (machine.filler token)))
    (hWord : ∀ depth depth' expr token follower event state, next depth token.text = some depth' →
      machine.IsWord token follower event → P depth expr state →
        P depth' (expr.push token) (machine.step state event))
    {depth depth' : Nat} (hDepth : words.foldlM next depth = some depth') :
    machine.LeadsAlong barred words (P depth .fresh) fun state =>
      ∃ expr : Capture, expr.text = " ".intercalate words ∧ P depth' expr state := by
  intro hWords tokens after hTokens _
  suffices hAll : ∀ expr,
    machine.Leads tokens after (P depth expr) (P depth' (expr.pushAll tokens)) by
    intro events state hReads hState
    exact ⟨_, Capture.text_pushAll_spaced hWords hTokens, hAll .fresh events state hReads hState⟩
  induction words generalizing tokens depth with
  | nil =>
      obtain rfl : tokens = [] := by simpa [spaced] using hTokens
      obtain rfl : depth = depth' := by simpa using hDepth
      exact fun expr => .nil
  | cons word words ih =>
      rw [List.forall_mem_cons] at hWords
      rw [spaced_cons, List.map_eq_cons_iff] at hTokens
      obtain ⟨token, _, rfl, rfl, hTokens⟩ := hTokens
      rw [List.map_eq_cons_iff] at hTokens
      obtain ⟨space, rest, rfl, hText, hRest⟩ := hTokens
      rw [List.foldlM_cons] at hDepth
      obtain ⟨between, hNext, hDepth⟩ := Option.bind_eq_some_iff.1 hDepth
      intro expr
      refine .word hWords.1.isBlank_token (fun event state => hWord _ _ _ _ _ event state hNext) ?_
      refine .filler (Token.isBlank_of_space hText) (fun state => hSpace _ _ _ state hText) ?_
      exact ih hDepth hWords.2 rest hRest ((expr.push token).push space)

end LeadsAlong

end Machine

end HdlIndex

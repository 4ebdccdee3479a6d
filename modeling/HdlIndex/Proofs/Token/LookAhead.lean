import HdlIndex.Proofs.Token.Layout

/-! What looking ahead finds. Looking ahead has a loop of its own that skips comments. A reader that
keeps its own account of comments agrees with it, as long as each token that looking ahead passes
over leaves the reader where looking ahead is. -/
namespace HdlIndex.Token

/-- Neither white space nor the opener of a comment. -/
def IsSignificant (comments : List (String × String)) (token : Token) : Prop :=
  token.isBlank = false ∧ ∀ pair ∈ comments, pair.1 ≠ token.text

/-- A reader meets the token at an index: it stands outside of comments and strings there, and the
token is neither white space nor the opener of a comment. `inCode` tells at which indices the reader
stands outside. -/
def IsMet (comments : List (String × String)) (inCode : Nat → Prop) (tokens : List Token)
    (index : Nat) (token : Token) : Prop :=
  tokens[index]? = some token ∧ inCode index ∧ token.IsSignificant comments

/-- The first token that a reader meets from an index on, or none if it meets no more. -/
def IsFirstMet (comments : List (String × String)) (inCode : Nat → Prop) (tokens : List Token)
    (start : Nat) : Option Token → Prop
  | some token => ∃ index, start ≤ index ∧ IsMet comments inCode tokens index token ∧
    ∀ earlier, start ≤ earlier → earlier < index →
      ∀ other, ¬ IsMet comments inCode tokens earlier other
  | none => ∀ index, start ≤ index → ∀ token, ¬ IsMet comments inCode tokens index token

variable {comments : List (String × String)} {inCode : Nat → Prop} {tokens rest : List Token}
  {token : Token} {start : Nat} {found other : Option Token} {closer after : Option String}

/-- What is not passed over outside of comments is significant. -/
theorem isSignificant_of_find? (hBlank : ¬ token.isBlank = true)
    (hFind : comments.find? (·.1 = token.text) = none) : token.IsSignificant comments := by
  constructor
  · simpa using hBlank
  · intro pair hMem
    simpa using List.find?_eq_none.1 hFind pair hMem

/-- A significant token is not passed over. -/
theorem not_isSignificant_of_passOver (h : passOver comments none [token] = some after) :
    ¬ token.IsSignificant comments := by
  rintro ⟨hBlank, hText⟩
  have hFind : comments.find? (·.1 = token.text) = none := by
    rw [List.find?_eq_none]
    intro pair hMem
    simpa using hText pair hMem
  rw [passOver, if_neg (by simp [hBlank]), hFind] at h
  cases h

/-- What is seen ahead is the first significant token, behind tokens that are passed over. -/
theorem exists_of_nextSignificant (h : nextSignificant comments closer tokens = some token) :
    ∃ lead later, tokens = lead ++ token :: later ∧ passOver comments closer lead = some none ∧
      token.IsSignificant comments := by
  fun_induction nextSignificant comments closer tokens with
  | case1 => cases h
  | case2 closer first rest ih =>
      obtain ⟨lead, later, rfl, hPass, hToken⟩ := ih h
      refine ⟨first :: lead, later, rfl, ?_, hToken⟩
      rwa [passOver]
  | case3 first rest hBlank ih =>
      obtain ⟨lead, later, rfl, hPass, hToken⟩ := ih h
      refine ⟨first :: lead, later, rfl, ?_, hToken⟩
      rwa [passOver, if_pos hBlank]
  | case4 first rest hBlank _ closer hFind ih =>
      obtain ⟨lead, later, rfl, hPass, hToken⟩ := ih h
      refine ⟨first :: lead, later, rfl, ?_, hToken⟩
      rwa [passOver, if_neg hBlank, hFind]
  | case5 first rest hBlank hFind =>
      obtain rfl := Option.some.inj h
      exact ⟨[], rest, rfl, rfl, isSignificant_of_find? hBlank hFind⟩

/-- There is one first token at most. -/
theorem IsFirstMet.unique (hFound : IsFirstMet comments inCode tokens start found)
    (hOther : IsFirstMet comments inCode tokens start other) : found = other := by
  cases found with
  | none =>
      cases other with
      | none => rfl
      | some token =>
          obtain ⟨index, hStart, hMet, -⟩ := hOther
          exact absurd hMet (hFound index hStart token)
  | some token =>
      obtain ⟨index, hStart, hMet, hFirst⟩ := hFound
      cases other with
      | none => exact absurd hMet (hOther index hStart token)
      | some token' =>
          obtain ⟨index', hStart', hMet', hFirst'⟩ := hOther
          obtain hLess | hEqual | hMore := Nat.lt_trichotomy index index'
          · exact absurd hMet (hFirst' index hStart hLess token)
          · subst hEqual
            exact hMet.1.symm.trans hMet'.1
          · exact absurd hMet' (hFirst index' hStart' hMore token')

/-- A token that is not met can be left out. -/
theorem IsFirstMet.of_succ (hNot : ∀ token, ¬ IsMet comments inCode tokens start token)
    (h : IsFirstMet comments inCode tokens (start + 1) found) :
    IsFirstMet comments inCode tokens start found := by
  cases found with
  | none =>
      intro index hStart token
      obtain rfl | hLater := Nat.eq_or_lt_of_le hStart
      · exact hNot token
      · exact h index hLater token
  | some token =>
      obtain ⟨index, hStart, hMet, hFirst⟩ := h
      refine ⟨index, by omega, hMet, ?_⟩
      intro earlier hEarlier hIndex other
      obtain rfl | hLater := Nat.eq_or_lt_of_le hEarlier
      · exact hNot other
      · exact hFirst earlier hLater hIndex other

/-- A reader is kept in step with looking ahead: `view` tells inside of which comment looking ahead
has to stand in front of an index to agree with the reader, if it can agree at all. -/
structure Tracks (comments : List (String × String)) (inCode : Nat → Prop) (tokens : List Token)
    (view : Nat → Option (Option String)) : Prop where
  inCode_iff : ∀ index, inCode index ↔ view index = some none
  passes : ∀ {index token closer after}, tokens[index]? = some token → view index = some closer →
    passOver comments closer [token] = some after → view (index + 1) = some after

namespace Tracks

variable {view : Nat → Option (Option String)}

/-- What looking ahead passes over is not met. -/
theorem not_isMet (h : Tracks comments inCode tokens view) (hView : view start = some closer)
    (hToken : tokens[start]? = some token) (hPass : passOver comments closer [token] = some after)
    (other : Token) : ¬ IsMet comments inCode tokens start other := by
  rintro ⟨hOther, hInCode, hSignificant⟩
  obtain rfl := Option.some.inj (hView.symm.trans ((h.inCode_iff start).1 hInCode))
  obtain rfl := Option.some.inj (hToken.symm.trans hOther)
  exact not_isSignificant_of_passOver hPass hSignificant

/-- Looking ahead finds the first token that the reader meets. The induction is on the tokens that
are left, and `view` carries the comment that both are inside of from one token to the next. -/
theorem isFirstMet (h : Tracks comments inCode tokens view) (hView : view start = some closer) :
    IsFirstMet comments inCode tokens start
      (nextSignificant comments closer (tokens.drop start)) := by
  generalize hRest : tokens.drop start = rest
  induction rest generalizing start closer with
  | nil =>
      have hNone : nextSignificant comments closer [] = none := by cases closer <;> rfl
      have hLength : tokens.length ≤ start := List.drop_eq_nil_iff.1 hRest
      rw [hNone]
      rintro index hStart token ⟨hToken, -⟩
      rw [List.getElem?_eq_none (by omega)] at hToken
      cases hToken
  | cons token later ih =>
      have hToken : tokens[start]? = some token := by
        rw [← List.head?_drop, hRest, List.head?_cons]
      have hLater : tokens.drop (start + 1) = later := by
        rw [← List.tail_drop, hRest, List.tail_cons]
      cases hPass : passOver comments closer [token] with
      | some after =>
          have hNext : nextSignificant comments closer (token :: later) =
              nextSignificant comments after later :=
            nextSignificant_append_of_passOver hPass later
          rw [hNext]
          apply IsFirstMet.of_succ (h.not_isMet hView hToken hPass)
          exact ih (h.passes hToken hView hPass) hLater
      | none =>
          cases closer with
          | some closer => cases hPass
          | none =>
              rw [passOver] at hPass
              split at hPass
              · cases hPass
              next hBlank =>
              split at hPass
              · cases hPass
              next hFind =>
              rw [nextSignificant, if_neg hBlank, hFind]
              refine ⟨start, Nat.le_refl start, ⟨hToken, (h.inCode_iff start).2 hView, ?_⟩, ?_⟩
              · exact isSignificant_of_find? hBlank hFind
              · intro earlier hEarlier hIndex
                omega

/-- So what is made of the token that is seen ahead is made of the first one that the reader meets,
provided that different tokens make different things. -/
theorem map_nextSignificant_iff {α : Type} {f : Token → α} (hInjective : Function.Injective f)
    (h : Tracks comments inCode tokens view) (hView : view start = some closer)
    (found : Option Token) :
    (nextSignificant comments closer (tokens.drop start)).map f = found.map f ↔
      IsFirstMet comments inCode tokens start found := by
  have hFirst := h.isFirstMet hView
  constructor
  · intro hFound
    rwa [← Option.map_injective hInjective hFound]
  · intro hFound
    rw [hFirst.unique hFound]

end Tracks

end HdlIndex.Token

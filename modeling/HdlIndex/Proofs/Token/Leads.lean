import HdlIndex.Token.Basic
import Mathlib.Data.List.Basic

/-! Triples about machines that take a reading: what holds in front of some tokens, and what holds
behind them. Tokens stand among others, so that the word behind the last of them is a parameter. -/
namespace HdlIndex

/-- The tokens that are not blank. -/
def significant (tokens : List Token) : List Token := tokens.filter (! ·.isBlank)

/-- Tokens without text are blank. -/
theorem significant_filter (tokens : List Token) :
    significant (tokens.filter (! ·.isEmpty)) = significant tokens := by
  rw [significant, significant, List.filter_filter]
  apply List.filter_congr
  intro token _
  cases hEmpty : token.isEmpty with
  | true => simp [Token.isBlank, String.isEmpty_iff.1 hEmpty]
  | false => simp

/-- A machine that takes the events of plain tokens one at a time. -/
structure Machine (Event State : Type) where
  /-- The event of a blank token. -/
  filler : Token → Event
  /-- The word can make the event in front of the word `next`. -/
  IsWord : Token → (next : Option Token) → Event → Prop
  step : State → Event → State

namespace Machine

variable {Event State : Type} {machine : Machine Event State} {P Q R : State → Prop}
  {token : Token} {tokens others words : List Token} {after : Option Token}
  {events : List Event}

/-- The tokens make the events in front of the word `after`. -/
inductive Reads (machine : Machine Event State) :
    List Token → (after : Option Token) → List Event → Prop where
  | nil (after : Option Token) : Reads machine [] after []
  | filler {token : Token} {tokens : List Token} {after : Option Token} {events : List Event}
      (hBlank : token.isBlank = true) (hRest : Reads machine tokens after events) :
      Reads machine (token :: tokens) after (machine.filler token :: events)
  | word {token : Token} {tokens : List Token} {after : Option Token} {event : Event}
      {events : List Event} (hBlank : token.isBlank = false)
      (hEvent : machine.IsWord token ((significant tokens).head?.or after) event)
      (hRest : Reads machine tokens after events) :
      Reads machine (token :: tokens) after (event :: events)

/-- A state with the first property has the second one behind the tokens. -/
def Leads (machine : Machine Event State) (tokens : List Token) (after : Option Token)
    (P Q : State → Prop) : Prop :=
  ∀ events state, machine.Reads tokens after events → P state → Q (events.foldl machine.step state)

/-- Blanks keep the property. -/
def Idle (machine : Machine Event State) (P : State → Prop) : Prop :=
  ∀ token state, token.isBlank = true → P state → P (machine.step state (machine.filler token))

/-- The words lead from one property to another, whatever blanks stand around them. -/
def LeadsThrough (machine : Machine Event State) (words : List Token) (after : Option Token)
    (P Q : State → Prop) : Prop :=
  ∀ tokens, significant tokens = words → machine.Leads tokens after P Q

theorem Leads.nil : machine.Leads [] after P P := by
  intro events state hReads hState
  cases hReads
  exact hState

/-- A blank in front changes nothing but what the property allows. -/
theorem Leads.filler (hBlank : token.isBlank = true)
    (hStep : ∀ state, P state → Q (machine.step state (machine.filler token)))
    (hRest : machine.Leads tokens after Q R) : machine.Leads (token :: tokens) after P R := by
  intro events state hReads hState
  cases hReads with
  | filler _ hReads => exact hRest _ (machine.step state _) hReads (hStep state hState)
  | word hWord => simp [hBlank] at hWord

/-- A word that is no blank is one event, with the word ahead of it; what holds behind that event
leads through the rest. -/
theorem Leads.word (hBlank : token.isBlank = false)
    (hStep : ∀ event state, machine.IsWord token ((significant tokens).head?.or after) event →
      P state → Q (machine.step state event))
    (hRest : machine.Leads tokens after Q R) : machine.Leads (token :: tokens) after P R := by
  intro events state hReads hState
  cases hReads with
  | filler hFiller => simp [hBlank] at hFiller
  | word _ hEvent hReads =>
      exact hRest _ (machine.step state _) hReads (hStep _ state hEvent hState)

theorem significant_append (tokens others : List Token) :
    significant (tokens ++ others) = significant tokens ++ significant others :=
  List.filter_append ..

/-- Events of tokens and of what stands behind them can be told apart. -/
theorem Reads.split (h : machine.Reads (tokens ++ others) after events) :
    ∃ front back, events = front ++ back ∧
      machine.Reads tokens ((significant others).head?.or after) front ∧
      machine.Reads others after back := by
  induction tokens generalizing events with
  | nil => exact ⟨[], events, rfl, .nil _, h⟩
  | cons token tokens ih =>
      cases h with
      | filler hBlank hRest =>
          obtain ⟨front, back, rfl, hFront, hBack⟩ := ih hRest
          exact ⟨_, back, rfl, .filler hBlank hFront, hBack⟩
      | word hBlank hEvent hRest =>
          obtain ⟨front, back, rfl, hFront, hBack⟩ := ih hRest
          refine ⟨_, back, rfl, .word hBlank ?_ hFront, hBack⟩
          rwa [List.append_eq, significant_append, List.head?_append, Option.or_assoc] at hEvent

/-- Two runs of tokens lead on one after the other. The first sees the first word of the second
ahead. -/
theorem Leads.append (h : machine.Leads tokens ((significant others).head?.or after) P Q)
    (h' : machine.Leads others after Q R) : machine.Leads (tokens ++ others) after P R := by
  intro events state hReads hState
  obtain ⟨front, back, rfl, hFront, hBack⟩ := hReads.split
  rw [List.foldl_append]
  exact h' _ _ hBack (h _ _ hFront hState)

/-- Tokens without text may be left out where they change nothing. -/
theorem Leads.of_filter
    (hStep : ∀ token state, token.isEmpty = true →
      machine.step state (machine.filler token) = state)
    (h : machine.Leads (tokens.filter (! ·.isEmpty)) after P Q) :
    machine.Leads tokens after P Q := by
  intro events state hReads hState
  suffices hEvents : ∃ others, machine.Reads (tokens.filter (! ·.isEmpty)) after others ∧
      others.foldl machine.step state = events.foldl machine.step state by
    obtain ⟨others, hOthers, hEnd⟩ := hEvents
    rw [← hEnd]
    exact h others state hOthers hState
  clear h hState
  induction hReads generalizing state with
  | nil after => exact ⟨[], .nil after, rfl⟩
  | @filler token tokens after events hBlank hRest ih =>
      obtain ⟨others, hOthers, hEnd⟩ := ih (machine.step state (machine.filler token))
      cases hEmpty : token.isEmpty with
      | true =>
          rw [List.filter_cons_of_neg (by simp [hEmpty])]
          rw [hStep token state hEmpty] at hEnd
          exact ⟨others, hOthers, by rw [hEnd, List.foldl_cons, hStep token state hEmpty]⟩
      | false =>
          rw [List.filter_cons_of_pos (by simp [hEmpty])]
          exact ⟨_, .filler hBlank hOthers, hEnd⟩
  | @word token tokens after event events hBlank hEvent hRest ih =>
      obtain ⟨others, hOthers, hEnd⟩ := ih (machine.step state event)
      have hEmpty : token.isEmpty = false := by
        rw [← Bool.not_eq_true]
        intro hEmpty
        have hText : token.text = "" := String.isEmpty_iff.1 hEmpty
        simp [Token.isBlank, hText] at hBlank
      rw [List.filter_cons_of_pos (by simp [hEmpty])]
      exact ⟨_, .word hBlank (by rwa [significant_filter]) hOthers, hEnd⟩

namespace LeadsThrough

/-- No words leave a machine where it is, as long as being idle keeps what holds. -/
theorem nil (hIdle : machine.Idle P) : machine.LeadsThrough [] after P P := by
  intro tokens hTokens
  induction tokens with
  | nil => exact .nil
  | cons token tokens ih =>
      rw [significant, List.filter_eq_nil_iff, List.forall_mem_cons] at hTokens
      have hBlank : token.isBlank = true := by simpa using hTokens.1
      exact .filler hBlank (fun state => hIdle token state hBlank)
        (ih (List.filter_eq_nil_iff.2 hTokens.2))

theorem imp (h : machine.LeadsThrough words after P Q) (hState : ∀ state, Q state → R state) :
    machine.LeadsThrough words after P R := by
  intro tokens hTokens events state hReads hFirst
  exact hState _ (h tokens hTokens events state hReads hFirst)

/-- A property with a parameter holds for some value of it. -/
theorem of_exists {α : Type} {P : α → State → Prop}
    (h : ∀ parameter, machine.LeadsThrough words after (P parameter) Q) :
    machine.LeadsThrough words after (fun state => ∃ parameter, P parameter state) Q := by
  rintro tokens hTokens events state hReads ⟨parameter, hState⟩
  exact h parameter tokens hTokens events state hReads hState

/-- Words are taken one after the other. -/
theorem cons {word : Token} (hIdle : machine.Idle P)
    (hStep : ∀ event state, machine.IsWord word (words.head?.or after) event → P state →
      Q (machine.step state event))
    (hRest : machine.LeadsThrough words after Q R) :
    machine.LeadsThrough (word :: words) after P R := by
  intro tokens hTokens
  obtain ⟨blanks, rest, rfl, hBlanks, hWord, hRest'⟩ := List.filter_eq_cons_iff.1 hTokens
  have hFront : machine.Leads blanks ((significant (word :: rest)).head?.or after) P P := by
    apply nil hIdle
    rw [significant, List.filter_eq_nil_iff]
    simpa using hBlanks
  subst hRest'
  exact hFront.append (.word (by simpa using hWord) hStep (hRest rest rfl))

/-- Two stretches of words follow each other if the first of them sees the first word of the second
ahead. -/
theorem append {others : List Token}
    (h : machine.LeadsThrough words (others.head?.or after) P Q)
    (h' : machine.LeadsThrough others after Q R) :
    machine.LeadsThrough (words ++ others) after P R := by
  intro tokens hTokens
  obtain ⟨front, back, rfl, hFront, hBack⟩ := List.filter_eq_append_iff.1 hTokens
  subst hBack
  exact (h front hFront).append (h' back rfl)

end LeadsThrough

end Machine

/-- Looking ahead from plain tokens finds the first of them that is not blank, or what is found
behind them. -/
theorem Token.nextSignificant_append {comments : List (String × String)} {tokens : List Token}
    (hTokens : ∀ token ∈ tokens, ∀ pair ∈ comments, pair.1 ≠ token.text) (rest : List Token) :
    nextSignificant comments none (tokens ++ rest) =
      (significant tokens).head?.or (nextSignificant comments none rest) := by
  induction tokens with
  | nil => rfl
  | cons token tokens ih =>
      rw [List.forall_mem_cons] at hTokens
      rw [List.cons_append, nextSignificant]
      cases hBlank : token.isBlank with
      | true => simpa [significant, hBlank] using ih hTokens.2
      | false =>
          have hFind : comments.find? (·.1 = token.text) = none := by
            simpa [List.find?_eq_none] using hTokens.1
          simp [significant, hBlank, hFind]

end HdlIndex

import HdlIndex.Proofs.Vhdl.PartReading
import HdlIndex.Proofs.Vhdl.WordReading

/-! Words and what stands around them. In a reading every word comes with the word in front of it,
and with the word behind it unless something quoted stands between them. So what a walk makes of a
stretch of a reading in which nothing is quoted is a matter of its words, whatever comments and
white space are among them. -/
namespace HdlIndex.Vhdl

/-- The word that comes next, if nothing quoted stands in front of it. -/
def nextWord? : List Event → Option Lexeme
  | [] => none
  | .word here _ _ :: _ => some here
  | event :: events => if event.IsLayout then nextWord? events else none

/-- Every word is that of a token, and comes with the words around it. In front of the first one
stands the word `last`. -/
def Linked : (last : Option Lexeme) → List Event → Prop
  | _, [] => True
  | last, .word here before next :: events =>
    here = .ofToken here.token ∧ before = last ∧ (∀ lexeme ∈ nextWord? events, next = some lexeme) ∧
      Linked (some here) events
  | last, _ :: events => Linked last events

theorem nextWord?_of_word? {event : Event} {events : List Event} (h : event.word? = none) :
    nextWord? (event :: events) = if event.IsLayout then nextWord? events else none := by
  cases event with
  | word here before next => cases h
  | _ => rfl

theorem Linked.of_word? {event : Event} {events : List Event} {last : Option Lexeme}
    (h : event.word? = none) : Linked last (event :: events) ↔ Linked last events := by
  cases event with
  | word here before next => cases h
  | _ => exact Iff.rfl

namespace Reader

variable {reader : Reader} {token : Token} {rest tokens : List Token} {lexeme : Lexeme}

/-- Layout hides no word. -/
theorem nextWord?_append_of_isLayout {layout events : List Event}
    (h : ∀ event ∈ layout, event.IsLayout) : nextWord? (layout ++ events) = nextWord? events := by
  induction layout with
  | nil => rfl
  | cons event layout ih =>
      rw [List.forall_mem_cons] at h
      rw [List.cons_append, nextWord?_of_word? h.1.word?_eq, if_pos h.1, ih h.2]

/-- What comes next is what is seen ahead. -/
theorem nextSignificant_of_nextWord? (size : Nat) (hMode : reader.mode ≠ .string)
    (hNext : nextWord? (reader.upcoming size tokens) = some lexeme) :
    (Token.nextSignificant comments reader.mode.closer? tokens).map .ofToken = some lexeme := by
  induction tokens generalizing reader with
  | nil =>
      rw [upcoming, readAll, finish] at hNext
      split at hNext <;> cases hNext
  | cons token rest ih =>
      obtain ⟨events, after, hTakes, hUpcoming⟩ := reader.upcoming_cons size token rest
      rw [hUpcoming] at hNext
      rcases hTakes.ahead hMode with
        ⟨hAfter, hSame, hLayout⟩ | ⟨hSeen, ⟨before, next, rfl⟩ | ⟨rfl, hText⟩⟩
      · have hEvents : ∀ event ∈ events, event.IsLayout := by
          intro event hMem
          rcases hLayout event hMem with ⟨span, rfl⟩ | ⟨rfl, hBlank⟩
          · trivial
          · exact hBlank
        rw [nextWord?_append_of_isLayout hEvents] at hNext
        rw [hSame]
        exact ih hAfter hNext
      · rw [hSeen]
        exact hNext
      · -- A quoted token is a filler that is no layout.
        have hBlank := (symbol_of_mark hText).2.1
        rw [List.singleton_append, nextWord?_of_word? rfl,
          if_neg (by simp [Event.IsLayout, hBlank])] at hNext
        cases hNext

/-- A word that is read is the one in front of the next word. -/
theorem before_of_emitted {before next : Option Lexeme}
    (h : reader.emitted token rest = [.word lexeme before next]) :
    (reader.read token rest).before = some lexeme := by
  have hMode : reader.forget.mode = reader.mode := rfl
  have hCharacter : reader.forget.isCharacter rest = reader.isCharacter rest := rfl
  rw [emitted, read, hMode] at h
  rw [read]
  cases hCase : reader.mode with
  | lineComment start =>
      rw [hCase] at h
      dsimp only at h
      split at h <;> simp [forget, emit] at h
  | blockComment start =>
      rw [hCase] at h
      dsimp only at h
      split at h <;> simp [forget, emit] at h
  | string =>
      rw [hCase] at h
      simp [forget, emit] at h
  | code =>
      rw [hCase] at h
      dsimp only at h ⊢
      rw [readCode, hCharacter] at h
      rw [readCode]
      split at h
      · simp [forget] at h
      split at h
      · simp [forget] at h
      split at h
      · simp [forget, emit] at h
      split at h
      · simp [forget, emit] at h
      · next hLine hBlock hQuote hFiller =>
        rw [if_neg hLine, if_neg hBlock, if_neg hQuote, if_neg hFiller]
        have hWord := List.singleton_injective h
        simp only [Event.word.injEq] at hWord
        exact congrArg some hWord.1

/-- The words of a reading are linked. -/
theorem linked_upcoming (size : Nat) (reader : Reader) (tokens : List Token) :
    Linked reader.before (reader.upcoming size tokens) := by
  induction tokens generalizing reader with
  | nil =>
      rw [upcoming, readAll, finish]
      split <;> exact trivial
  | cons token rest ih =>
      have hLater := ih (reader.read token rest)
      have hTakes := reader.takes token rest
      -- Only a word becomes the one in front of the next word.
      have hSame (h : ∀ event ∈ reader.emitted token rest, event.word? = none) :
          Linked reader.before ((reader.read token rest).upcoming size rest) :=
        reader.before_read h ▸ hLater
      rw [isReader.upcoming_eq]
      generalize hEvents : reader.emitted token rest = events at hTakes hSame
      cases hTakes with
      | opensLine | opensBlock | inLine | inBlock => exact hSame (by simp)
      | closesLine | closesBlock => exact (Linked.of_word? rfl).2 (hSame (by simp [Event.word?]))
      | inString | quote | character | blank =>
          exact (Linked.of_word? rfl).2 (hSame (by simp [Event.word?]))
      | word hCode hBlank hText hAfter =>
          refine ⟨rfl, rfl, fun lexeme hNext => ?_, ?_⟩
          · have hSeen := nextSignificant_of_nextWord? size (by simp [hAfter]) hNext
            rwa [hAfter] at hSeen
          · rwa [before_of_emitted hEvents] at hLater

end Reader

/-- The words of every text are linked. -/
theorem linked_readEvents (size : Nat) (tokens : List Token) :
    Linked none (readEvents size tokens) :=
  Reader.linked_upcoming size {} tokens

/-- A word, a comment or white space. -/
def Event.IsUnquoted (event : Event) : Prop := event.IsLayout ∨ event.word?.isSome = true

instance (event : Event) : Decidable event.IsUnquoted := inferInstanceAs (Decidable (_ ∨ _))

/-- The texts of the words of a stretch. -/
def texts (events : List Event) : List String :=
  events.filterMap fun event => event.word?.map (·.text)

/-- The stretch has these words behind the word `last`, with comments and white space among them.
Behind its last word one sees `after`. -/
inductive Reads : (last : Option Lexeme) → (words : List Token) → (after : Option Lexeme) →
    List Event → Prop where
  | nil (last after : Option Lexeme) : Reads last [] after []
  | layout {last after : Option Lexeme} {words : List Token} {event : Event} {events : List Event}
      (hEvent : event.IsLayout) (hRest : Reads last words after events) :
      Reads last words after (event :: events)
  | word {last after : Option Lexeme} {word : Token} {words : List Token} {events : List Event}
      (hRest : Reads (some (.ofToken word)) words after events) :
      Reads last (word :: words) after
        (.word (.ofToken word) last ((words.head?.map .ofToken).or after) :: events)

section Stretch

variable {last after : Option Lexeme} {words others : List Token} {word : Token}
  {events inner rest : List Event}

theorem Event.IsLayout.texts_cons {event : Event} (h : event.IsLayout) :
    texts (event :: events) = texts events := by
  rw [texts, List.filterMap_cons_none (by rw [h.word?_eq]; rfl), texts]

/-- Without words it does not matter what stands behind them. -/
theorem Reads.of_nil (h : Reads last [] after events) (other : Option Lexeme) :
    Reads last [] other events := by
  induction events with
  | nil => exact .nil last other
  | cons event events ih =>
      cases h with
      | layout hEvent hRest => exact .layout hEvent (ih hRest)

/-- Events without a word hide none behind them. -/
theorem Reads.nextWord?_of_nil (h : Reads last [] after events) (rest : List Event) :
    nextWord? (events ++ rest) = nextWord? rest := by
  induction events with
  | nil => rfl
  | cons event events ih =>
      cases h with
      | layout hEvent hRest =>
          rw [List.cons_append, nextWord?_of_word? hEvent.word?_eq, if_pos hEvent, ih hRest]

/-- The next word of events is the first of the words they read as. -/
theorem Reads.nextWord? (h : Reads last (word :: words) after events) (rest : List Event) :
    nextWord? (events ++ rest) = some (.ofToken word) := by
  induction events with
  | nil => cases h
  | cons event events ih =>
      cases h with
      | layout hEvent hRest =>
          rw [List.cons_append, nextWord?_of_word? hEvent.word?_eq, if_pos hEvent, ih hRest]
      | word hRest => rfl

/-- A stretch in which nothing is quoted is read word by word. -/
theorem Linked.exists_reads (h : Linked last (inner ++ rest))
    (hInner : ∀ event ∈ inner, event.IsUnquoted) :
    ∃ words after, Reads last words after inner ∧ words.map (·.text) = texts inner ∧
      ∀ lexeme ∈ Vhdl.nextWord? rest, after = some lexeme := by
  induction inner generalizing last with
  | nil => exact ⟨[], Vhdl.nextWord? rest, .nil _ _, rfl, fun _ hNext => hNext⟩
  | cons event inner ih =>
      rw [List.forall_mem_cons] at hInner
      rcases hInner.1 with hEvent | hWord
      · obtain ⟨words, after, hReads, hWords, hAfter⟩ :=
          ih ((Linked.of_word? hEvent.word?_eq).1 h) hInner.2
        exact ⟨words, after, .layout hEvent hReads, hWords.trans hEvent.texts_cons.symm, hAfter⟩
      · cases event with
        | word here before next =>
            obtain ⟨hHere, rfl, hNext, hRest⟩ := h
            obtain ⟨words, after, hReads, hWords, hAfter⟩ := ih hRest hInner.2
            rw [hHere] at hReads
            have hTexts : (here.token :: words).map (·.text) =
                texts (.word here before next :: inner) := by
              rw [List.map_cons, hWords]
              rfl
            cases words with
            | nil =>
                -- Behind the last word one sees what stands behind the stretch.
                have hWord := @Reads.word before _ _ _ _ (hReads.of_nil next)
                refine ⟨[here.token], next, by rwa [← hHere] at hWord, hTexts,
                  fun lexeme hLexeme => ?_⟩
                exact hNext lexeme (by rwa [List.append_eq, hReads.nextWord?_of_nil])
            | cons word words =>
                have hWord := @Reads.word before _ _ _ _ hReads
                have hAhead : next = some (.ofToken word) := hNext _ (hReads.nextWord? rest)
                refine ⟨here.token :: word :: words, after, ?_, hTexts, hAfter⟩
                rwa [← hHere, List.head?_cons, Option.map_some, Option.some_or, ← hAhead] at hWord
        | _ => cases hWord

/-- The word in front of what follows some words. -/
def lastOf (last : Option Lexeme) (words : List Token) : Option Lexeme :=
  words.foldl (fun _ word => some (.ofToken word)) last

theorem lastOf_append (last : Option Lexeme) (words others : List Token) :
    lastOf last (words ++ others) = lastOf (lastOf last words) others := List.foldl_append

/-- The words of the events are those that they read as. -/
theorem Reads.filterMap_word? (h : Reads last words after events) :
    events.filterMap Event.word? = words.map .ofToken := by
  induction h with
  | nil => rfl
  | layout hEvent _ ih => rw [List.filterMap_cons_none hEvent.word?_eq, ih]
  | word _ ih =>
      rw [List.map_cons, ← ih]
      rfl

/-- The words behind a stretch are linked too. -/
theorem Linked.exists_behind (h : Linked last (inner ++ rest)) : ∃ last, Linked last rest := by
  induction inner generalizing last with
  | nil => exact ⟨last, h⟩
  | cons event inner ih =>
      cases event with
      | word here before next => exact ih h.2.2.2
      | comment | filler => exact ih h

/-- What stands behind a stretch has its last word in front of it. -/
theorem Linked.behind (h : Linked last (inner ++ rest)) (hReads : Reads last words after inner) :
    Linked (lastOf last words) rest := by
  induction hReads with
  | nil => exact h
  | layout hEvent _ ih => exact ih ((Linked.of_word? hEvent.word?_eq).1 h)
  | word _ ih => exact ih h.2.2.2

/-- A stretch is read one part after the other. -/
theorem Reads.split (h : Reads last (words ++ others) after events) :
    ∃ front back, events = front ++ back ∧
      Reads last words ((others.head?.map .ofToken).or after) front ∧
      Reads (lastOf last words) others after back := by
  induction events generalizing last words with
  | nil =>
      generalize hAll : words ++ others = all at h
      cases h
      obtain ⟨rfl, rfl⟩ := List.append_eq_nil_iff.1 hAll
      exact ⟨[], [], rfl, .nil .., .nil ..⟩
  | cons event events ih =>
      cases words with
      | nil => exact ⟨[], event :: events, rfl, .nil .., h⟩
      | cons word words =>
          cases h with
          | layout hEvent hRest =>
              obtain ⟨front, back, rfl, hFront, hBack⟩ := ih hRest
              exact ⟨event :: front, back, rfl, .layout hEvent hFront, hBack⟩
          | word hRest =>
              obtain ⟨front, back, rfl, hFront, hBack⟩ := ih hRest
              refine ⟨_ :: front, back, rfl, ?_, hBack⟩
              rw [List.append_eq, List.head?_append, Option.map_or, Option.or_assoc]
              exact .word hFront

end Stretch

end HdlIndex.Vhdl

import HdlIndex.Proofs.Token.Layout
import HdlIndex.Proofs.Vhdl.Moved
import HdlIndex.Proofs.Vhdl.ReadingWords
import HdlIndex.Proofs.Vhdl.Upcoming
import HdlIndex.Proofs.Vhdl.WordOrder

/-! The reading of a part of a text. The first tokens are read in view of those behind them, of
which two things are seen: the next word, and whether a character literal closes. So two readings of
the same words agree while they see the same, and a reading passes over layout as looking ahead
does. -/
namespace HdlIndex.Vhdl

/-- How looking ahead goes on in this mode: inside of which comment, and not at all in strings. -/
def Mode.resumes? : Mode → Option (Option String)
  | .code => some none
  | .lineComment _ => some (some "\n")
  | .blockComment _ => some (some "*/")
  | .string => none

/-- The mode of a text that is moved. -/
def Mode.moved (move : Nat → Nat) : Mode → Mode
  | .lineComment start => .lineComment (move start)
  | .blockComment start => .blockComment (move start)
  | mode => mode

/-- A tick comes first. -/
def leadsTick (rest : List Token) : Bool := rest.head?.any (·.text = "'")

/-- An empty word and a tick come first. -/
def closesCharacter : List Token → Bool
  | following :: closing :: _ => following.isEmpty && closing.text = "'"
  | _ => false

/-- Blanks outside of strings, and comments. -/
def Event.IsLayout : Event → Prop
  | .comment _ => True
  | .filler token => token.isBlank = true
  | .word .. => False

instance (event : Event) : Decidable event.IsLayout :=
  match event with
  | .comment _ => .isTrue trivial
  | .filler token => inferInstanceAs (Decidable (token.isBlank = true))
  | .word .. => .isFalse id

theorem Event.IsLayout.word?_eq {event : Event} (h : event.IsLayout) : event.word? = none := by
  cases event with
  | word here before next => exact h.elim
  | _ => rfl

theorem delimiters_areBroken : Delimiter.AreBroken delimiters :=
  .of_all (by decide) (by decide) (by decide)

theorem comments_areSolid : AreSolid comments := by
  intro pair hMem
  have hPair : pair = ("--", "\n") ∨ pair = ("/*", "*/") := by simpa [comments] using hMem
  rcases hPair with rfl | rfl
  · exact ⟨⟨'-', by simp, rfl⟩, '\n', by simp, rfl⟩
  · exact ⟨⟨'/', by simp, rfl⟩, '*', by simp, rfl⟩

/-- The event with another word ahead. -/
def Event.ahead (next : Option Lexeme) : Event → Event
  | .word here before _ => .word here before next
  | event => event

theorem closesCharacter_cons (token : Token) (rest : List Token) :
    closesCharacter (token :: rest) = (token.isEmpty && leadsTick rest) := by
  cases rest <;> simp [closesCharacter, leadsTick]

namespace Reader

variable {reader reader' : Reader} {token : Token} {tokens rest rest' : List Token} {size : Nat}
  {move : Nat → Nat} {mode : Mode} {closer after : Option String}

/-- The token passed last is a tick. -/
def isTicked (reader : Reader) : Bool := reader.passed.1.any (·.text = "'")

/-- A tick and an empty word were passed last. -/
def opensCharacter (reader : Reader) : Bool :=
  match reader.passed with
  | (some last, some earlier) => earlier.text = "'" && last.isEmpty
  | _ => false

/-- A character literal needs a tick in front, which the reader remembers, and one behind, which it
looks for. -/
theorem isCharacter_eq (reader : Reader) (rest : List Token) :
    reader.isCharacter rest = (reader.opensCharacter && closesCharacter rest) := by
  obtain ⟨mode, ⟨last, earlier⟩, before, events⟩ := reader
  cases last <;> cases earlier <;> try rfl
  cases rest with
  | nil => simp [isCharacter, closesCharacter]
  | cons following rest =>
      cases rest <;> simp [isCharacter, opensCharacter, closesCharacter, Bool.and_assoc]

theorem passed_read : (reader.read token rest).passed = (some token, reader.passed.1) := rfl

theorem isTicked_read : (reader.read token rest).isTicked = decide (token.text = "'") := rfl

theorem opensCharacter_read :
    (reader.read token rest).opensCharacter = (reader.isTicked && token.isEmpty) := by
  rw [opensCharacter, passed_read, isTicked]
  cases reader.passed.1 <;> rfl

section Layout

/-- Looking ahead passes over blanks, and from an opener to its closer. -/
theorem passOver_code (h : Token.passOver comments none [token] = some after) :
    token.isBlank = true ∧ after = none ∨ token.text = "--" ∧ after = some "\n" ∨
      token.text = "/*" ∧ after = some "*/" := by
  rw [Token.passOver] at h
  split at h
  · next hBlank => exact .inl ⟨hBlank, (Option.some.inj h).symm⟩
  · split at h
    · next opener closer hFind =>
      obtain rfl := Option.some.inj h
      have hMem := List.mem_of_find?_eq_some hFind
      have hText : opener = token.text := by simpa using List.find?_some hFind
      have hPair : opener = "--" ∧ closer = "\n" ∨ opener = "/*" ∧ closer = "*/" := by
        simpa [comments] using hMem
      rw [← hText]
      exact .inr (hPair.imp (And.imp id (congrArg some)) (And.imp id (congrArg some)))
    · cases h

/-- A token that looking ahead passes over is no word, and leaves the reader where looking ahead
is. -/
theorem read_of_passOver (reader : Reader) (rest : List Token)
    (hMode : reader.mode.resumes? = some closer)
    (hPass : Token.passOver comments closer [token] = some after) :
    (reader.read token rest).mode.resumes? = some after ∧
      ∀ event ∈ reader.emitted token rest, event.IsLayout := by
  have hTakes := reader.takes token rest
  generalize reader.read token rest = later at hTakes
  generalize reader.emitted token rest = events at hTakes
  -- Outside of comments the text decides, and inside of them the closer.
  have hCode : reader.mode = .code → token.isBlank = true ∧ after = none ∨
      token.text = "--" ∧ after = some "\n" ∨ token.text = "/*" ∧ after = some "*/" := by
    intro hCase
    rw [hCase] at hMode
    obtain rfl := Option.some.inj hMode
    exact passOver_code hPass
  have hInside : ∀ text, reader.mode.resumes? = some (some text) →
      after = if token.text = text then none else some text := by
    intro text hCase
    obtain rfl := Option.some.inj (hMode.symm.trans hCase)
    exact (Option.some.inj hPass).symm
  cases hTakes with
  | opensLine hCase hText hAfter =>
      have hLine := hCode hCase
      simp [Token.isBlank, hText, Text.isAsciiBlank] at hLine
      simp [hAfter, Mode.resumes?, hLine]
  | opensBlock hCase hText hAfter =>
      have hBlock := hCode hCase
      simp [Token.isBlank, hText, Text.isAsciiBlank] at hBlock
      simp [hAfter, Mode.resumes?, hBlock]
  | inLine hCase hText hAfter =>
      have hLine := hInside "\n" (by rw [hCase]; rfl)
      simp [hAfter, Mode.resumes?, hLine, hText]
  | inBlock hCase hText hAfter =>
      have hBlock := hInside "*/" (by rw [hCase]; rfl)
      simp [hAfter, Mode.resumes?, hBlock, hText]
  | closesLine hCase hText hAfter =>
      have hLine := hInside "\n" (by rw [hCase]; rfl)
      simp [hAfter, Mode.resumes?, hLine, hText, Event.IsLayout]
  | closesBlock hCase hText hAfter =>
      have hBlock := hInside "*/" (by rw [hCase]; rfl)
      simp [hAfter, Mode.resumes?, hBlock, hText, Event.IsLayout]
  | inString hCase =>
      rw [hCase] at hMode
      cases hMode
  | quote hCase hText =>
      have hNone := hCode hCase
      simp [Token.isBlank, hText, Text.isAsciiBlank] at hNone
  | character hCase hText =>
      simp only [isPunctuation, Bool.or_eq_true, decide_eq_true_eq] at hText
      have hNone := hCode hCase
      rcases hText with ((hText | hText) | hText) | hText <;>
        simp [Token.isBlank, hText, Text.isAsciiBlank] at hNone
  | blank hCase hBlank hAfter =>
      have hNone : after = none := by
        rcases hCode hCase with h | h | h
        · exact h.2
        · simp [Token.isBlank, h.1, Text.isAsciiBlank] at hBlank
        · simp [Token.isBlank, h.1, Text.isAsciiBlank] at hBlank
      simp [hAfter, Mode.resumes?, hNone, Event.IsLayout, hBlank]
  | word hCase hBlank hText hAfter =>
      have hNone := hCode hCase
      simp [hBlank, hText] at hNone

/-- Only a word becomes the word passed last. -/
theorem before_read (h : ∀ event ∈ reader.emitted token rest, event.word? = none) :
    (reader.read token rest).before = reader.before := by
  have hMode : reader.forget.mode = reader.mode := rfl
  have hCharacter : reader.forget.isCharacter rest = reader.isCharacter rest := rfl
  rw [emitted, read, hMode] at h
  rw [read]
  cases hCase : reader.mode with
  | lineComment start =>
      dsimp only
      split <;> rfl
  | blockComment start =>
      dsimp only
      split <;> rfl
  | string => rfl
  | code =>
      rw [hCase] at h
      dsimp only at h ⊢
      rw [readCode] at h ⊢
      rw [hCharacter] at h
      split
      · rfl
      split
      · rfl
      split
      · rfl
      split
      · rfl
      · rw [if_neg ‹_›, if_neg ‹_›, if_neg ‹_›, if_neg ‹_›] at h
        cases h _ (Array.mem_toList_iff.2 Array.mem_push_self)

/-- So are more of them. -/
theorem readOver_of_passOver (rest : List Token) (hMode : reader.mode.resumes? = some closer)
    (hPass : Token.passOver comments closer tokens = some after) :
    (reader.readOver tokens rest).mode.resumes? = some after ∧
      (reader.readOver tokens rest).before = reader.before ∧
      ∀ event ∈ reader.emittedOver tokens rest, event.IsLayout := by
  induction tokens generalizing reader closer with
  | nil =>
      obtain rfl := Option.some.inj hPass
      exact ⟨hMode, rfl, by simp [emittedOver]⟩
  | cons token tokens ih =>
      rw [← List.singleton_append, Token.passOver_append, Option.bind_eq_some_iff] at hPass
      obtain ⟨middle, hFirst, hRest⟩ := hPass
      obtain ⟨hMiddle, hEmitted⟩ := reader.read_of_passOver (tokens ++ rest) hMode hFirst
      obtain ⟨hAfter, hSame, hOver⟩ := ih hMiddle hRest
      refine ⟨hAfter, hSame.trans (before_read fun event hMem => (hEmitted event hMem).word?_eq),
        fun event hMem => ?_⟩
      exact (List.mem_append.1 hMem).elim (hEmitted event) (hOver event)

end Layout

/-- What a reader in a mode sees ahead is the same in the text that its own was moved to. -/
structure Sees (move : Nat → Nat) (mode : Mode) (rest rest' : List Token) : Prop where
  tick : leadsTick rest' = leadsTick rest
  closes : closesCharacter rest' = closesCharacter rest
  ahead : ∀ closer, mode.resumes? = some closer →
    Token.nextSignificant comments closer rest' =
      (Token.nextSignificant comments closer rest).map (·.moved move)

namespace Sees

theorem nil (move : Nat → Nat) (mode : Mode) : Sees move mode [] [] := by
  refine ⟨rfl, rfl, fun closer _ => ?_⟩
  cases closer <;> rfl

theorem leadsTick_append (h : Sees move mode rest rest') (tokens : List Token) :
    leadsTick (tokens.map (·.moved move) ++ rest') = leadsTick (tokens ++ rest) := by
  cases tokens with
  | nil => exact h.tick
  | cons token tokens => rfl

/-- What is seen in front of tokens is the same if it is behind them. -/
theorem inFront (h : Sees move (reader.readOver tokens rest).mode rest rest') :
    Sees move reader.mode (tokens ++ rest) (tokens.map (·.moved move) ++ rest') where
  tick := h.leadsTick_append tokens
  closes := by
    cases tokens with
    | nil => exact h.closes
    | cons token tokens =>
        rw [List.map_cons, List.cons_append, closesCharacter_cons, h.leadsTick_append,
          List.cons_append, closesCharacter_cons]
        rfl
  ahead closer hCloser := by
    cases hPass : Token.passOver comments closer tokens with
    | none =>
        have hPass' := (Token.passOver_moved move).trans hPass
        rw [Token.nextSignificant_append_of_not_passOver hPass,
          Token.nextSignificant_append_of_not_passOver hPass', Token.nextSignificant_moved]
    | some after =>
        have hPass' := (Token.passOver_moved move).trans hPass
        rw [Token.nextSignificant_append_of_passOver hPass,
          Token.nextSignificant_append_of_passOver hPass']
        exact h.ahead after (readOver_of_passOver rest hCloser hPass).1

end Sees

theorem emittedOver_congr {reader' : Reader} (h : reader'.forget = reader.forget)
    (tokens rest : List Token) :
    reader'.emittedOver tokens rest = reader.emittedOver tokens rest := by
  rw [isReader.emittedOver_eq, isReader.emittedOver_eq, h]

theorem upcoming_congr {reader' : Reader} (h : reader'.forget = reader.forget) (size : Nat)
    (tokens : List Token) : reader'.upcoming size tokens = reader.upcoming size tokens := by
  rw [upcoming, upcoming, h]

section Ahead

/-- Continuations that agree on where ticks come first agree on it behind further tokens. -/
theorem closesCharacter_append (hTick : leadsTick rest' = leadsTick rest)
    (hCloses : closesCharacter rest' = closesCharacter rest) (tokens : List Token) :
    closesCharacter (tokens ++ rest') = closesCharacter (tokens ++ rest) := by
  cases tokens with
  | nil => exact hCloses
  | cons token tokens =>
      rw [List.cons_append, closesCharacter_cons, List.cons_append, closesCharacter_cons]
      cases tokens with
      | nil => rw [List.nil_append, hTick, List.nil_append]
      | cons closing tokens => rfl

/-- What follows a token reaches its events through the word ahead alone, once the ticks agree. -/
theorem emitted_ahead (hCloses : closesCharacter rest' = closesCharacter rest) :
    reader.emitted token rest' = (reader.emitted token rest).map
      (·.ahead ((Token.nextSignificant comments none rest').map .ofToken)) := by
  have hCharacter : reader.forget.isCharacter rest' = reader.forget.isCharacter rest := by
    rw [isCharacter_eq, isCharacter_eq, hCloses]
  rw [emitted, emitted, read, read]
  split
  · split <;> rfl
  · split <;> rfl
  · rfl
  · rw [readCode, readCode, hCharacter]
    split
    · rfl
    split
    · rfl
    split
    · rfl
    split <;> rfl

/-- And it does not reach the reader at all. -/
theorem forget_read_ahead (reader : Reader) (token : Token)
    (hCloses : closesCharacter rest' = closesCharacter rest) :
    (reader.read token rest').forget = (reader.read token rest).forget := by
  have hCharacter : reader.isCharacter rest' = reader.isCharacter rest := by
    rw [isCharacter_eq, isCharacter_eq, hCloses]
  rw [read, read]
  split
  · rfl
  · rfl
  · rfl
  · rw [readCode, readCode, hCharacter]
    split
    · rfl
    split
    · rfl
    split
    · rfl
    split <;> rfl

/-- What a reader is behind tokens does not depend on the words behind them. -/
theorem forget_readOver_ahead (hTick : leadsTick rest' = leadsTick rest)
    (hCloses : closesCharacter rest' = closesCharacter rest) (reader : Reader)
      (tokens : List Token) :
    (reader.readOver tokens rest').forget = (reader.readOver tokens rest).forget := by
  induction tokens generalizing reader with
  | nil => rfl
  | cons token tokens ih =>
      have hHere := closesCharacter_append hTick hCloses tokens
      rw [readOver, readOver, ← ih, ← isReader.forget_readOver,
        reader.forget_read_ahead token hHere, isReader.forget_readOver]

end Ahead

/-- The second reader reads a text that the text of the first one was moved to. -/
structure Matches (move : Nat → Nat) (reader reader' : Reader) : Prop where
  mode : reader'.mode = reader.mode.moved move
  before : reader'.before = reader.before.map (·.moved move)
  ticked : reader'.isTicked = reader.isTicked
  opens : reader'.opensCharacter = reader.opensCharacter
  events : reader'.events = reader.events.map (·.moved move)

namespace Matches

theorem forget (h : Matches move reader reader') : Matches move reader.forget reader'.forget :=
  { h with events := by simp [Reader.forget] }

theorem emit (h : Matches move reader reader') (event : Event) :
    Matches move (reader.emit event) (reader'.emit (event.moved move)) :=
  { h with events := by simp [Reader.emit, h.events] }

theorem enter (h : Matches move reader reader') (mode : Mode) :
    Matches move { reader with mode } { reader' with mode := mode.moved move } :=
  { h with mode := rfl }

/-- Readers that match read one token in code alike, provided both see the same word and the same
ticks ahead. -/
theorem readCode (h : Matches move reader reader') (hCode : reader.mode = .code)
    (hSees : Sees move (reader.readCode token rest).mode rest rest') :
    Matches move (reader.readCode token rest) (reader'.readCode (token.moved move) rest') := by
  have hText : (token.moved move).text = token.text := rfl
  have hBlank : (token.moved move).isBlank = token.isBlank := rfl
  have hCharacter : reader'.isCharacter rest' = reader.isCharacter rest := by
    rw [isCharacter_eq, isCharacter_eq, h.opens, hSees.closes]
  rw [Reader.readCode] at hSees
  rw [Reader.readCode, Reader.readCode, hText, hBlank, hCharacter]
  split
  · exact h.enter (.lineComment token.span.start)
  split
  · exact h.enter (.blockComment token.span.start)
  split
  · dsimp only
    split
    · exact { h.emit (.filler token) with mode := h.mode }
    · exact (h.emit (.filler token)).enter .string
  split
  · exact h.emit (.filler token)
  · rw [if_neg ‹_›, if_neg ‹_›, if_neg ‹_›, if_neg ‹_›] at hSees
    have hNext : (Token.nextSignificant comments none rest').map Lexeme.ofToken =
        ((Token.nextSignificant comments none rest).map Lexeme.ofToken).map (·.moved move) := by
      rw [hSees.ahead none (congrArg Mode.resumes? hCode), Option.map_map, Option.map_map]
      rfl
    have hWord := h.emit (.word (.ofToken token) reader.before
      ((Token.nextSignificant comments none rest).map .ofToken))
    rw [Event.moved, ← h.before, ← hNext] at hWord
    exact { hWord with before := rfl }

/-- Reading a token keeps two readers matched, as long as they see the same ahead. -/
theorem read (h : Matches move reader reader')
    (hSees : Sees move (reader.read token rest).mode rest rest') :
    Matches move (reader.read token rest) (reader'.read (token.moved move) rest') := by
  have hText : (token.moved move).text = token.text := rfl
  have hTicked : (reader'.read (token.moved move) rest').isTicked =
      (reader.read token rest).isTicked := rfl
  have hOpens : (reader'.read (token.moved move) rest').opensCharacter =
      (reader.read token rest).opensCharacter := by
    rw [opensCharacter_read, opensCharacter_read, h.ticked]
    rfl
  have hPass : ∀ {first second : Reader}, Matches move first second →
      Matches move { first with passed := (some token, reader.passed.1) }
        { second with passed := (some (token.moved move), reader'.passed.1) } :=
    fun hInside => { hInside with ticked := hTicked, opens := hOpens }
  rw [Reader.read] at hSees
  rw [Reader.read, Reader.read, h.mode]
  refine hPass ?_
  cases hCase : reader.mode with
  | lineComment start =>
      dsimp only [Mode.moved]
      rw [hText]
      split
      · exact (h.emit (.comment ⟨start, token.span.start⟩)).enter .code
      · exact h
  | blockComment start =>
      dsimp only [Mode.moved]
      rw [hText]
      split
      · exact (h.emit (.comment ⟨start, token.span.stop⟩)).enter .code
      · exact h
  | string =>
      dsimp only [Mode.moved]
      rw [hText]
      split
      · exact (h.emit (.filler token)).enter .code
      · exact (h.emit (.filler token)).enter .string
  | code =>
      rw [hCase] at hSees
      exact h.readCode hCase hSees

/-- Reading tokens keeps two readers matched, as long as they see the same behind them. -/
theorem readOver (h : Matches move reader reader')
    (hSees : Sees move (reader.readOver tokens rest).mode rest rest') :
    Matches move (reader.readOver tokens rest)
      (reader'.readOver (tokens.map (·.moved move)) rest') := by
  induction tokens generalizing reader reader' with
  | nil => exact h
  | cons token tokens ih =>
      have hHere : Sees move (reader.read token (tokens ++ rest)).mode (tokens ++ rest)
          (tokens.map (·.moved move) ++ rest') := Sees.inFront hSees
      exact ih (h.read hHere) hSees

/-- The events over tokens are moved with them. -/
theorem emittedOver_eq (h : Matches move reader reader')
    (hSees : Sees move (reader.readOver tokens rest).mode rest rest') :
    reader'.emittedOver (tokens.map (·.moved move)) rest' =
      (reader.emittedOver tokens rest).map (·.moved move) := by
  have hForget := congrArg Reader.mode (isReader.forget_readOver reader tokens rest)
  have hMode : (reader.forget.readOver tokens rest).mode = (reader.readOver tokens rest).mode :=
    hForget
  rw [← hMode] at hSees
  rw [Reader.isReader.emittedOver_eq, Reader.isReader.emittedOver_eq,
    (h.forget.readOver hSees).events, Array.toList_map]

/-- So are the events that are to come to the end of a text. -/
theorem upcoming_eq (h : Matches move reader reader') (size : Nat) (tokens : List Token) :
    reader'.upcoming (move size) (tokens.map (·.moved move)) =
      (reader.upcoming size tokens).map (·.moved move) := by
  have hEnd : Matches move (reader.forget.readOver tokens [])
      (reader'.forget.readOver (tokens.map (·.moved move)) []) :=
    h.forget.readOver (by simpa using Sees.nil move _)
  rw [← isReader.readAll_eq_readOver, ← isReader.readAll_eq_readOver] at hEnd
  rw [upcoming, upcoming, finish, finish, hEnd.mode, ← Array.toList_map]
  cases (reader.forget.readAll tokens).mode <;> simp [Mode.moved, hEnd.events,
    Event.moved, Span.moved]

end Matches

namespace All

variable {P : Word → Prop} {offset stop : Nat}

/-- What a reader holds behind tokens has the property if they have it, and the word ahead of
them. -/
theorem readOver (h : reader.All P offset) (hP : Inherited P)
    (hTokens : ∀ token ∈ tokens, P token.word) (hContiguous : Contiguous offset tokens stop)
    (hAhead : ∀ closer, (reader.readOver tokens rest).mode.resumes? = some closer →
      ∀ next ∈ Token.nextSignificant comments closer rest, P next.word) :
    (reader.readOver tokens rest).All P stop := by
  induction tokens generalizing reader offset with
  | nil =>
      obtain rfl : offset = stop := hContiguous
      exact h
  | cons token tokens ih =>
      obtain ⟨rfl, hOrder, hContiguous⟩ := hContiguous
      rw [List.forall_mem_cons] at hTokens
      refine ih (h.read hP hTokens.1 hOrder fun hCode next hNext => ?_) hTokens.2 hContiguous hAhead
      cases hPass : Token.passOver comments none tokens with
      | none =>
          rw [Token.nextSignificant_append_of_not_passOver hPass] at hNext
          exact hTokens.2 next (Token.mem_of_nextSignificant hNext)
      | some after =>
          rw [Token.nextSignificant_append_of_passOver hPass] at hNext
          have hResumes : (reader.read token (tokens ++ rest)).mode.resumes? = some none :=
            congrArg Mode.resumes? hCode
          exact hAhead after (readOver_of_passOver rest hResumes hPass).1 next hNext

theorem forget (h : reader.All P offset) : reader.forget.All P offset :=
  { h with events := by simp [Reader.forget] }

/-- What is known of the words read, and of the words seen ahead, is known of all events. -/
theorem emittedOver (h : reader.All P offset) (hP : Inherited P)
    (hTokens : ∀ token ∈ tokens, P token.word) (hContiguous : Contiguous offset tokens stop)
    (hAhead : ∀ closer, (reader.readOver tokens rest).mode.resumes? = some closer →
      ∀ next ∈ Token.nextSignificant comments closer rest, P next.word) :
    ∀ event ∈ reader.emittedOver tokens rest, event.All P := by
  have hForget := congrArg Reader.mode (isReader.forget_readOver reader tokens rest)
  have hMode : (reader.forget.readOver tokens rest).mode = (reader.readOver tokens rest).mode :=
    hForget
  rw [← hMode] at hAhead
  rw [isReader.emittedOver_eq]
  simpa using (h.forget.readOver hP hTokens hContiguous hAhead).events

/-- What is known of the tokens of a text, and of its end, is known of all events. -/
theorem upcoming (h : reader.All P offset) (hP : Inherited P)
    (hTokens : ∀ token ∈ tokens, P token.word) (hContiguous : Contiguous offset tokens stop)
    (hSize : stop ≤ size) (hEnd : P (.absent size)) :
    ∀ event ∈ reader.upcoming size tokens, event.All P := by
  simpa [Reader.upcoming] using (h.forget.readAll hP hTokens hContiguous).finish hSize hEnd

end All

end Reader

end HdlIndex.Vhdl

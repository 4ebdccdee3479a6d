import HdlIndex.Proofs.Symbols.Recorded
import HdlIndex.Proofs.Token.Words
import HdlIndex.Vhdl.Reading
import HdlIndex.Vhdl.Walk

/-! What the reading of a VHDL token list hands on. Its words are tokens of the list, and its
comments begin and end at ends of tokens, in order. The order comes from the tokens: they follow
each other without a gap, so that a mode which is open was opened at or before the next token. -/
namespace HdlIndex.Vhdl

variable {P : Word → Prop}

/-- Every word of the event has the property, and so have the two ends of a comment. -/
def Event.All (P : Word → Prop) : Event → Prop
  | .comment span => span.All P
  | .filler _ => True
  | .word here before next =>
    P here.word ∧ (∀ lexeme ∈ before, P lexeme.word) ∧ ∀ lexeme ∈ next, P lexeme.word

/-- The byte offset at which the comment under way opened. -/
def Mode.opened? : Mode → Option Nat
  | .lineComment start | .blockComment start => some start
  | .code | .string => none

namespace Reader

/-- What a reader holds in front of a byte offset. -/
structure All (P : Word → Prop) (offset : Nat) (reader : Reader) : Prop where
  events : ∀ event ∈ reader.events, event.All P
  before : ∀ lexeme ∈ reader.before, P lexeme.word
  opened : ∀ start ∈ reader.mode.opened?, start ≤ offset ∧ P (.absent start)

namespace All

variable {offset : Nat} {reader : Reader} {event : Event} {token : Token} {rest : List Token}

/-- A reader that has read nothing holds nothing. -/
theorem start (P : Word → Prop) (offset : Nat) : All P offset {} :=
  ⟨by simp, by simp, by simp [Mode.opened?]⟩

theorem emit (h : reader.All P offset) (event : Event) (hEvent : event.All P) :
    (reader.emit event).All P offset where
  __ := h
  events other hMem := by
    rcases Array.mem_push.1 hMem with hMem | rfl
    · exact h.events other hMem
    · exact hEvent

/-- Entering a mode that no comment opens leaves nothing to remember. -/
theorem enter (h : reader.All P offset) (mode : Mode) (hMode : mode.opened? = none) :
    All P offset { reader with mode } where
  events := h.events
  before := h.before
  opened := by simp [hMode]

/-- A comment that opens has started by the offset reached, and no event tells of it yet. -/
theorem open_ (h : reader.All P offset) {mode : Mode} {start : Nat}
    (hMode : mode.opened? = some start) (hStart : start ≤ offset) (hPlace : P (.absent start)) :
    All P offset { reader with mode } where
  events := h.events
  before := h.before
  opened := by
    intro other hMem
    rw [hMode] at hMem
    obtain rfl := Option.mem_some_iff.1 hMem
    exact ⟨hStart, hPlace⟩

theorem pass (h : reader.All P offset) (passed : Option Token × Option Token) :
    All P offset { reader with passed } :=
  ⟨h.events, h.before, h.opened⟩

theorem advance (h : reader.All P offset) {later : Nat} (hLater : offset ≤ later) :
    reader.All P later where
  __ := h
  opened start hMem := ⟨(h.opened start hMem).1.trans hLater, (h.opened start hMem).2⟩

/-- In code a token is recorded at its own place. What the reader sees ahead has to be known as
well, since the event carries it. -/
theorem readCode (h : reader.All P token.span.start) (hCode : reader.mode = .code)
    (hP : Inherited P) (hToken : P token.word)
    (hAhead : (reader.readCode token rest).mode = .code →
      ∀ next ∈ Token.nextSignificant comments none rest, P next.word) :
    (reader.readCode token rest).All P token.span.start := by
  rw [Reader.readCode] at hAhead ⊢
  have hStart := hP.before hToken
  split
  · exact h.open_ rfl (Nat.le_refl _) hStart
  split
  · exact h.open_ rfl (Nat.le_refl _) hStart
  split
  · have hEmit := h.emit (.filler token) trivial
    dsimp only
    split
    · exact hEmit
    · exact hEmit.enter _ rfl
  split
  · exact h.emit _ trivial
  · rw [if_neg ‹_›, if_neg ‹_›, if_neg ‹_›, if_neg ‹_›] at hAhead
    refine { (h.emit (.word (.ofToken token) reader.before _) ⟨hToken, h.before, ?_⟩) with
      before := ?_ }
    · intro lexeme hMem
      obtain ⟨next, hNext, rfl⟩ := Option.map_eq_some_iff.1 hMem
      exact hAhead hCode next hNext
    · rintro lexeme ⟨⟩
      exact hToken

/-- Reading a token moves the offset to the token's end. Outside of comments and strings the word
that is seen ahead counts. -/
theorem read (h : reader.All P token.span.start) (hP : Inherited P) (hToken : P token.word)
    (hOrder : token.span.start ≤ token.span.stop)
    (hAhead : (reader.read token rest).mode = .code →
      ∀ next ∈ Token.nextSignificant comments none rest, P next.word) :
    (reader.read token rest).All P token.span.stop := by
  have hStart := hP.before hToken
  have hStop := hP.behind hToken
  rw [Reader.read] at hAhead ⊢
  refine pass ?_ _
  split
  · next start hMode =>
    obtain ⟨hLe, hPlace⟩ := h.opened start (by simp [hMode, Mode.opened?])
    split
    · have hEmit := h.emit (.comment ⟨start, token.span.start⟩) ⟨hLe, hPlace, hStart⟩
      exact (hEmit.enter .code rfl).advance hOrder
    · exact h.advance hOrder
  · next start hMode =>
    obtain ⟨hLe, hPlace⟩ := h.opened start (by simp [hMode, Mode.opened?])
    split
    · have hEmit := h.emit (.comment ⟨start, token.span.stop⟩)
        ⟨hLe.trans hOrder, hPlace, hStop⟩
      exact (hEmit.enter .code rfl).advance hOrder
    · exact h.advance hOrder
  · have hEmit := h.emit (.filler token) trivial
    refine (hEmit.enter _ ?_).advance hOrder
    split <;> rfl
  · next hMode =>
    rw [hMode] at hAhead
    exact (h.readCode hMode hP hToken hAhead).advance hOrder

/-- Over contiguous tokens what is known at their start is known at the offset where they stop. -/
theorem readAll (hP : Inherited P) {tokens : List Token} {scanned : Nat}
    (h : reader.All P offset) (hTokens : ∀ token ∈ tokens, P token.word)
    (hContiguous : Contiguous offset tokens scanned) :
    (reader.readAll tokens).All P scanned := by
  induction tokens generalizing reader offset with
  | nil =>
      obtain rfl : offset = scanned := hContiguous
      exact h
  | cons token rest ih =>
      obtain ⟨rfl, hOrder, hContiguous⟩ := hContiguous
      rw [List.forall_mem_cons] at hTokens
      have hAhead : ∀ next ∈ Token.nextSignificant comments none rest, P next.word :=
        fun next hNext => hTokens.2 next (Token.mem_of_nextSignificant hNext)
      exact ih (h.read hP hTokens.1 hOrder fun _ => hAhead) hTokens.2 hContiguous

/-- What is still open is recorded up to the end of the text, behind which nothing starts. -/
theorem finish (h : reader.All P offset) {size : Nat} (hSize : offset ≤ size)
    (hEnd : P (.absent size)) : ∀ event ∈ reader.finish size, event.All P := by
  rw [Reader.finish]
  split
  all_goals try exact h.events
  all_goals
    next start hMode =>
    obtain ⟨hLe, hPlace⟩ := h.opened start (by simp [hMode, Mode.opened?])
    exact (h.emit (.comment ⟨start, size⟩) ⟨hLe.trans hSize, hPlace, hEnd⟩).events

end All
end Reader

/-- A reading hands on words of its tokens and comments between ends of tokens. -/
theorem readEvents_all (hP : Inherited P) {tokens : List Token} {scanned size : Nat}
    (hTokens : ∀ token ∈ tokens, P token.word) (hContiguous : Contiguous 0 tokens scanned)
    (hSize : scanned ≤ size) (hEnd : P (.absent size)) :
    ∀ event ∈ readEvents size tokens, event.All P := by
  have hStart := Reader.All.start P 0
  simpa [readEvents] using (hStart.readAll hP hTokens hContiguous).finish hSize hEnd

end HdlIndex.Vhdl

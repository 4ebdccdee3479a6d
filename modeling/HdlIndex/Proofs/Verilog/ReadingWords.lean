import HdlIndex.Proofs.Symbols.Recorded
import HdlIndex.Proofs.Token.Words
import HdlIndex.Proofs.Verilog.Upcoming
import HdlIndex.Verilog.Reading
import HdlIndex.Verilog.Walk

/-! What the reading of a Verilog token list hands on. Its words are tokens of the list other than
the sentinel, and its comments and directive lines begin and end at ends of tokens, in order. The
sentinel can end a directive, so the places of its ends count, but its text does not. -/
namespace HdlIndex.Verilog

variable {P : Word → Prop}

/-- The two ends of the token have the property, and unless the token is a sentinel it has the
property itself. -/
structure TokenAll (P : Word → Prop) (token : Token) : Prop where
  start : P (.absent token.span.start)
  stop : P (.absent token.span.stop)
  word : token.isSentinel = false → P token.word

/-- Tokens up to a byte offset end there or in front of it. -/
theorem TokenAll.stop_le {offset stop : Nat} {tokens : List Token} {token : Token}
    (h : Contiguous offset tokens stop) (hMem : token ∈ tokens) :
    TokenAll (·.span.stop ≤ stop) token := by
  have hStop := h.stop_le_of_mem hMem
  exact ⟨(h.le_of_mem hMem).2.trans hStop, hStop, fun _ => hStop⟩

/-- Tokens from a byte offset on begin there or behind it. -/
theorem TokenAll.le_start {offset stop : Nat} {tokens : List Token} {token : Token}
    (h : Contiguous offset tokens stop) (hMem : token ∈ tokens) :
    TokenAll (offset ≤ ·.span.start) token := by
  obtain ⟨hStart, hOrder⟩ := h.le_of_mem hMem
  exact ⟨hStart, hStart.trans hOrder, fun _ => hStart⟩

/-- The word of the event has the property, and so have the two ends of a comment or a directive. -/
def Event.All (P : Word → Prop) : Event → Prop
  | .comment span | .directive span => span.All P
  | .filler _ | .ended _ => True
  | .word here _ => P here.word

/-- The byte offset at which the comment or the directive under way opened. -/
def Mode.opened? : Mode → Option Nat
  | .lineComment start | .blockComment start | .directive start => some start
  | .code | .string => none

namespace Reader

/-- What a reader holds in front of a byte offset. -/
structure All (P : Word → Prop) (offset : Nat) (reader : Reader) : Prop where
  events : ∀ event ∈ reader.events, event.All P
  opened : ∀ start ∈ reader.mode.opened?, start ≤ offset ∧ P (.absent start)

namespace All

variable {offset : Nat} {reader : Reader} {token : Token} {rest : List Token}

/-- A reader that has read nothing holds nothing. -/
theorem start (P : Word → Prop) (offset : Nat) : All P offset {} :=
  ⟨by simp, by simp [Mode.opened?]⟩

theorem emit (h : reader.All P offset) (event : Event) (hEvent : event.All P) :
    (reader.emit event).All P offset where
  __ := h
  events other hMem := by
    rcases Array.mem_push.1 hMem with hMem | rfl
    · exact h.events other hMem
    · exact hEvent

/-- Entering a mode that nothing opens leaves nothing to remember. -/
theorem enter (h : reader.All P offset) (mode : Mode) (hMode : mode.opened? = none) :
    All P offset { reader with mode } where
  events := h.events
  opened := by simp [hMode]

/-- A comment or a directive that opens has started by the offset reached, and no event tells of it
yet. -/
theorem open_ (h : reader.All P offset) {mode : Mode} {start : Nat}
    (hMode : mode.opened? = some start) (hStart : start ≤ offset) (hPlace : P (.absent start)) :
    All P offset { reader with mode } where
  events := h.events
  opened := by
    intro other hMem
    rw [hMode] at hMem
    obtain rfl := Option.mem_some_iff.1 hMem
    exact ⟨hStart, hPlace⟩

theorem advance (h : reader.All P offset) {later : Nat} (hLater : offset ≤ later) :
    reader.All P later where
  __ := h
  opened start hMem := ⟨(h.opened start hMem).1.trans hLater, (h.opened start hMem).2⟩

/-- In code a token is recorded at its own place, and the events before stay as they are. -/
theorem readCode (h : reader.All P token.span.start) (hToken : TokenAll P token) :
    (reader.readCode token rest).All P token.span.start := by
  have hStart := hToken.start
  rw [Reader.readCode]
  split
  · exact h.open_ rfl (Nat.le_refl _) hStart
  split
  · exact h.open_ rfl (Nat.le_refl _) hStart
  split
  · exact (h.emit (.filler token) trivial).enter _ rfl
  split
  · exact h.emit _ trivial
  next hSentinel =>
  split
  · exact h.open_ rfl (Nat.le_refl _) hStart
  split
  · exact h.emit _ trivial
  · exact h.emit _ (hToken.word (by simpa using hSentinel))

/-- Reading a token moves the offset to the token's end. -/
theorem read (h : reader.All P token.span.start) (hToken : TokenAll P token)
    (hOrder : token.span.start ≤ token.span.stop) :
    (reader.read token rest).All P token.span.stop := by
  rw [Reader.read]
  have hRead : ∀ {next : Reader}, next.All P token.span.stop →
      All P token.span.stop { next with passed := some token } := fun h => ⟨h.events, h.opened⟩
  refine hRead ?_
  split
  · next start hMode =>
    obtain ⟨hLe, hPlace⟩ := h.opened start (by simp [hMode, Mode.opened?])
    split
    · have hEmit := h.emit (.comment ⟨start, token.span.start⟩) ⟨hLe, hPlace, hToken.start⟩
      exact (hEmit.enter .code rfl).advance hOrder
    · exact h.advance hOrder
  · next start hMode =>
    obtain ⟨hLe, hPlace⟩ := h.opened start (by simp [hMode, Mode.opened?])
    split
    · have hEmit := h.emit (.comment ⟨start, token.span.stop⟩)
        ⟨hLe.trans hOrder, hPlace, hToken.stop⟩
      exact (hEmit.enter .code rfl).advance hOrder
    · exact h.advance hOrder
  · next start hMode =>
    obtain ⟨hLe, hPlace⟩ := h.opened start (by simp [hMode, Mode.opened?])
    split
    · have hEmit := h.emit (.directive ⟨start, token.span.start⟩) ⟨hLe, hPlace, hToken.start⟩
      exact (hEmit.enter .code rfl).advance hOrder
    · exact h.advance hOrder
  · have hEmit := h.emit (.filler token) trivial
    refine (hEmit.enter _ ?_).advance hOrder
    split <;> rfl
  · exact (h.readCode hToken).advance hOrder

/-- Over contiguous tokens what is known at their start is known at the offset where they stop. -/
theorem readAll {tokens : List Token} {scanned : Nat} (h : reader.All P offset)
    (hTokens : ∀ token ∈ tokens, TokenAll P token)
      (hContiguous : Contiguous offset tokens scanned) :
    (reader.readAll tokens).All P scanned := by
  induction tokens generalizing reader offset with
  | nil =>
      obtain rfl : offset = scanned := hContiguous
      exact h
  | cons token rest ih =>
      obtain ⟨rfl, hOrder, hContiguous⟩ := hContiguous
      rw [List.forall_mem_cons] at hTokens
      exact ih (h.read hTokens.1 hOrder) hTokens.2 hContiguous

/-- What is still open is recorded up to the end of the text, behind which nothing starts. -/
theorem finish (h : reader.All P offset) {size : Nat} (hSize : offset ≤ size)
    (hEnd : P (.absent size)) : ∀ event ∈ reader.finish size, event.All P := by
  have hOpen : ∀ start ∈ reader.mode.opened?, Span.All P ⟨start, size⟩ := fun start hMode =>
    ⟨(h.opened start hMode).1.trans hSize, (h.opened start hMode).2, hEnd⟩
  rw [Reader.finish]
  cases hMode : reader.mode with
  | lineComment start =>
      exact (h.emit (.comment ⟨start, size⟩) (hOpen start (by simp [hMode, Mode.opened?]))).events
  | blockComment start =>
      exact (h.emit (.comment ⟨start, size⟩) (hOpen start (by simp [hMode, Mode.opened?]))).events
  | directive start =>
      exact (h.emit (.directive ⟨start, size⟩) (hOpen start (by simp [hMode, Mode.opened?]))).events
  | code => exact h.events
  | string => exact h.events

end All
end Reader

/-- A reading hands on words of its tokens, and ranges between ends of tokens. -/
theorem readEvents_all {tokens : List Token} {scanned size : Nat}
    (hTokens : ∀ token ∈ tokens, TokenAll P token) (hContiguous : Contiguous 0 tokens scanned)
    (hSize : scanned ≤ size) (hEnd : P (.absent size)) :
    ∀ event ∈ readEvents size tokens, event.All P := by
  have hStart := Reader.All.start P 0
  simpa [readEvents] using (hStart.readAll hTokens hContiguous).finish hSize hEnd

end HdlIndex.Verilog

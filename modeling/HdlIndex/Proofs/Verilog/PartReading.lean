import HdlIndex.Proofs.Token.Layout
import HdlIndex.Proofs.Verilog.Moved
import HdlIndex.Proofs.Verilog.ReadingWords
import HdlIndex.Proofs.Verilog.Upcoming

/-! The reading of a part of a text. The first tokens are read in view of those behind them, of
which only the next word is seen. So two readings of the same words agree while they see the same,
and a reading passes over layout as looking ahead does. -/
namespace HdlIndex.Verilog

/-- How looking ahead goes on in this mode: inside of which comment, and not at all in strings and
in directives. -/
def Mode.resumes? : Mode → Option (Option String)
  | .code => some none
  | .lineComment _ => some (some "\n")
  | .blockComment _ => some (some "*/")
  | .string | .directive _ => none

/-- The mode of a text that is moved. -/
def Mode.moved (move : Nat → Nat) : Mode → Mode
  | .lineComment start => .lineComment (move start)
  | .blockComment start => .blockComment (move start)
  | .directive start => .directive (move start)
  | mode => mode

/-- Blanks outside of strings, and comments. -/
def Event.IsLayout : Event → Prop
  | .comment _ => True
  | .filler token => token.isBlank = true
  | _ => False

theorem delimiters_areBroken : Delimiter.AreBroken delimiters :=
  .of_all (by decide) (by decide) (by decide)

theorem comments_areSolid : AreSolid comments := by
  intro pair hMem
  have hPair : pair = ("//", "\n") ∨ pair = ("/*", "*/") := by simpa [comments] using hMem
  rcases hPair with rfl | rfl
  · exact ⟨⟨'/', by simp, rfl⟩, '\n', by simp, rfl⟩
  · exact ⟨⟨'/', by simp, rfl⟩, '*', by simp, rfl⟩

/-- A token that is moved as a whole is a sentinel where it was one. -/
theorem isSentinel_moved {move : Nat → Nat} {token : Token} (h : TokenAll (·.IsRigid move) token) :
    (token.moved move).isSentinel = token.isSentinel := by
  cases hSentinel : token.isSentinel with
  | true =>
      simp only [Token.isSentinel, Bool.and_eq_true, beq_iff_eq, Span.isEmpty] at hSentinel
      simp [Token.isSentinel, Token.moved, Span.moved, Span.isEmpty, hSentinel]
  | false =>
      have hWord := h.word hSentinel
      have hSize : token.span.stop = token.span.start + token.text.utf8ByteSize := hWord.size
      have hStop : move (token.span.start + token.text.utf8ByteSize) =
          move token.span.start + token.text.utf8ByteSize := hWord.together _ (Nat.le_refl _)
      simp only [Token.isSentinel, Span.isEmpty] at hSentinel ⊢
      rw [← hSentinel]
      have hEnds : (move token.span.start == move token.span.stop) =
          (token.span.start == token.span.stop) := by
        rw [hSize, hStop, Bool.eq_iff_iff]
        simp
      exact congrArg (token.text == Token.sentinelText && ·) hEnds

namespace Reader

variable {reader reader' : Reader} {token : Token} {tokens rest rest' : List Token} {size : Nat}
  {move : Nat → Nat} {mode : Mode} {closer after : Option String}

/-- What holds of spans outside of code and of the tokens one by one holds of all events read from
them. -/
theorem emittedOver_forall {Q : Event → Prop}
    (hSpans : ∀ span, Q (.comment span) ∧ Q (.directive span))
    (hTokens : ∀ token ∈ tokens,
      Q (.filler token) ∧ Q (.ended token.span.start) ∧ ∀ next, Q (.word (.ofToken token) next))
    (reader : Reader) (rest : List Token) : ∀ event ∈ reader.emittedOver tokens rest, Q event := by
  induction tokens generalizing reader with
  | nil => simp [emittedOver]
  | cons token tokens ih =>
      rw [List.forall_mem_cons] at hTokens
      rw [emittedOver, List.forall_mem_append]
      exact ⟨(reader.takes token _).forall hSpans hTokens.1, ih hTokens.2 _⟩

section Layout

/-- Looking ahead passes over blanks, and from an opener to its closer. -/
theorem passOver_code (h : Token.passOver comments none [token] = some after) :
    token.isBlank = true ∧ after = none ∨ token.text = "//" ∧ after = some "\n" ∨
      token.text = "/*" ∧ after = some "*/" := by
  rw [Token.passOver] at h
  split at h
  · next hBlank => exact .inl ⟨hBlank, (Option.some.inj h).symm⟩
  · split at h
    · next opener closer hFind =>
      obtain rfl := Option.some.inj h
      have hMem := List.mem_of_find?_eq_some hFind
      have hText : opener = token.text := by simpa using List.find?_some hFind
      have hPair : opener = "//" ∧ closer = "\n" ∨ opener = "/*" ∧ closer = "*/" := by
        simpa [comments] using hMem
      rw [← hText]
      exact .inr (hPair.imp (And.imp id (congrArg some)) (And.imp id (congrArg some)))
    · cases h

/-- A blank is neither a delimiter of comments and strings nor a directive nor the sentinel. -/
theorem readCode_blank (hBlank : token.isBlank = true) :
    reader.readCode token rest = reader.emit (.filler token) := by
  have hNot : ∀ text : String, (∃ c ∈ text.toList, Text.isAsciiBlank c = false) →
      token.text ≠ text := by
    rintro text ⟨c, hMem, hChar⟩ hText
    rw [Token.isBlank, hText] at hBlank
    rw [List.all_eq_true.1 hBlank c hMem] at hChar
    cases hChar
  have hSentinel : token.isSentinel = false := by
    have hText := hNot Token.sentinelText ⟨'E', by simp [Token.sentinelText], rfl⟩
    simp [Token.isSentinel, hText]
  have hDirective : isLineDirective token.text = false := by
    rw [isLineDirective, List.contains_eq_mem, decide_eq_false_iff_not]
    intro hMem
    have hTick : ∀ text ∈ lineDirectives, '`' ∈ text.toList := by decide
    exact hNot token.text ⟨'`', hTick _ hMem, rfl⟩ rfl
  rw [readCode, if_neg (hNot "//" ⟨'/', by simp, rfl⟩), if_neg (hNot "/*" ⟨'/', by simp, rfl⟩),
    if_neg (hNot "\"" ⟨'"', by simp, rfl⟩), hSentinel, hDirective, hBlank]
  rfl

/-- A token that looking ahead passes over is no word, and leaves the reader where looking ahead
is. -/
theorem read_of_passOver (reader : Reader) (rest : List Token)
    (hMode : reader.mode.resumes? = some closer)
    (hPass : Token.passOver comments closer [token] = some after) :
    (reader.read token rest).mode.resumes? = some after ∧
      ∀ event ∈ reader.emitted token rest, event.IsLayout := by
  have hForget : reader.forget.mode = reader.mode := rfl
  rw [emitted, read, read, hForget]
  cases hCase : reader.mode with
  | string =>
      rw [hCase] at hMode
      cases hMode
  | directive start =>
      rw [hCase] at hMode
      cases hMode
  | lineComment start =>
      rw [hCase] at hMode
      obtain rfl := Option.some.inj hMode
      obtain rfl := Option.some.inj hPass
      dsimp only
      split <;> simp [emit, forget, Mode.resumes?, Event.IsLayout, *]
  | blockComment start =>
      rw [hCase] at hMode
      obtain rfl := Option.some.inj hMode
      obtain rfl := Option.some.inj hPass
      dsimp only
      split <;> simp [emit, forget, Mode.resumes?, Event.IsLayout, *]
  | code =>
      rw [hCase] at hMode
      obtain rfl := Option.some.inj hMode
      dsimp only
      rcases passOver_code hPass with ⟨hBlank, rfl⟩ | ⟨hText, rfl⟩ | ⟨hText, rfl⟩
      · rw [readCode_blank hBlank, readCode_blank hBlank]
        simp [emit, forget, hCase, Mode.resumes?, Event.IsLayout, hBlank]
      · simp [readCode, hText, forget, Mode.resumes?]
      · simp [readCode, hText, forget, Mode.resumes?]

/-- So are more of them. -/
theorem readOver_of_passOver (rest : List Token) (hMode : reader.mode.resumes? = some closer)
    (hPass : Token.passOver comments closer tokens = some after) :
    (reader.readOver tokens rest).mode.resumes? = some after ∧
      ∀ event ∈ reader.emittedOver tokens rest, event.IsLayout := by
  induction tokens generalizing reader closer with
  | nil =>
      obtain rfl := Option.some.inj hPass
      exact ⟨hMode, by simp [emittedOver]⟩
  | cons token tokens ih =>
      rw [← List.singleton_append, Token.passOver_append, Option.bind_eq_some_iff] at hPass
      obtain ⟨middle, hFirst, hRest⟩ := hPass
      obtain ⟨hMiddle, hEmitted⟩ := reader.read_of_passOver (tokens ++ rest) hMode hFirst
      obtain ⟨hAfter, hOver⟩ := ih hMiddle hRest
      refine ⟨hAfter, fun event hMem => ?_⟩
      exact (List.mem_append.1 hMem).elim (hEmitted event) (hOver event)

end Layout

/-- The word that a reader in a mode sees ahead is the same in the text that its own was moved
to. -/
def Sees (move : Nat → Nat) (mode : Mode) (rest rest' : List Token) : Prop :=
  ∀ closer, mode.resumes? = some closer →
    Token.nextSignificant comments closer rest' =
      (Token.nextSignificant comments closer rest).map (·.moved move)

namespace Sees

theorem nil (move : Nat → Nat) (mode : Mode) : Sees move mode [] [] := by
  intro closer _
  cases closer <;> rfl

/-- What is seen in front of tokens is the same if it is behind them. -/
theorem inFront (h : Sees move (reader.readOver tokens rest).mode rest rest') :
    Sees move reader.mode (tokens ++ rest) (tokens.map (·.moved move) ++ rest') := by
  intro closer hCloser
  cases hPass : Token.passOver comments closer tokens with
  | none =>
      have hPass' := (Token.passOver_moved move).trans hPass
      rw [Token.nextSignificant_append_of_not_passOver hPass,
        Token.nextSignificant_append_of_not_passOver hPass', Token.nextSignificant_moved]
  | some after =>
      have hPass' := (Token.passOver_moved move).trans hPass
      rw [Token.nextSignificant_append_of_passOver hPass,
        Token.nextSignificant_append_of_passOver hPass']
      exact h after (readOver_of_passOver rest hCloser hPass).1

end Sees

/-- The second reader reads a text that the text of the first one was moved to. -/
structure Matches (move : Nat → Nat) (reader reader' : Reader) : Prop where
  mode : reader'.mode = reader.mode.moved move
  escaped : reader'.isEscaped = reader.isEscaped
  events : reader'.events = reader.events.map (·.moved move)

namespace Matches

theorem forget (h : Matches move reader reader') : Matches move reader.forget reader'.forget :=
  { h with events := by simp [Reader.forget] }

theorem emit (h : Matches move reader reader') (event : Event) :
    Matches move (reader.emit event) (reader'.emit (event.moved move)) :=
  { h with events := by simp [Reader.emit, h.events] }

theorem enter (h : Matches move reader reader') (mode : Mode) :
    Matches move { reader with mode } { reader' with mode := mode.moved move } :=
  { h with mode := rfl }

/-- Readers that match read one token in code alike, provided both see the same word ahead. -/
theorem readCode (h : Matches move reader reader') (hToken : TokenAll (·.IsRigid move) token)
    (hCode : reader.mode = .code)
    (hSees : Sees move (reader.readCode token rest).mode rest rest') :
    Matches move (reader.readCode token rest) (reader'.readCode (token.moved move) rest') := by
  have hText : (token.moved move).text = token.text := rfl
  have hBlank : (token.moved move).isBlank = token.isBlank := rfl
  rw [Reader.readCode] at hSees
  rw [Reader.readCode, Reader.readCode, hText, hBlank, isSentinel_moved hToken]
  split
  · exact h.enter (.lineComment token.span.start)
  split
  · exact h.enter (.blockComment token.span.start)
  split
  · exact (h.emit (.filler token)).enter .string
  split
  · exact h.emit (.ended token.span.start)
  split
  · exact h.enter (.directive token.span.start)
  split
  · exact h.emit (.filler token)
  · rw [if_neg ‹_›, if_neg ‹_›, if_neg ‹_›, if_neg ‹_›, if_neg ‹_›, if_neg ‹_›] at hSees
    have hNext : (Token.nextSignificant comments none rest').map Lexeme.ofToken =
        ((Token.nextSignificant comments none rest).map Lexeme.ofToken).map (·.moved move) := by
      rw [hSees none (congrArg Mode.resumes? hCode), Option.map_map, Option.map_map]
      rfl
    have hWord := h.emit (.word (.ofToken token)
      ((Token.nextSignificant comments none rest).map .ofToken))
    rw [Event.moved, ← hNext] at hWord
    exact hWord

/-- Reading a token keeps two readers matched, as long as they see the same ahead. -/
theorem read (h : Matches move reader reader') (hToken : TokenAll (·.IsRigid move) token)
    (hSees : Sees move (reader.read token rest).mode rest rest') :
    Matches move (reader.read token rest) (reader'.read (token.moved move) rest') := by
  have hText : (token.moved move).text = token.text := rfl
  have hPass : ∀ {first second : Reader}, Matches move first second →
      Matches move { first with passed := some token }
        { second with passed := some (token.moved move) } :=
    fun hInside => { hInside with escaped := rfl }
  rw [Reader.read] at hSees
  rw [Reader.read, Reader.read, h.mode]
  refine hPass ?_
  cases hCase : reader.mode with
  | lineComment start =>
      dsimp only [Mode.moved]
      rw [hText]
      split
      · exact (h.emit (.comment ⟨start, token.span.start⟩)).enter .code
      · exact h
  | blockComment start =>
      dsimp only [Mode.moved]
      rw [hText]
      split
      · exact (h.emit (.comment ⟨start, token.span.stop⟩)).enter .code
      · exact h
  | directive start =>
      dsimp only [Mode.moved]
      rw [hText, isSentinel_moved hToken]
      split
      · exact (h.emit (.directive ⟨start, token.span.start⟩)).enter .code
      · exact h
  | string =>
      dsimp only [Mode.moved]
      rw [hText, h.escaped]
      split
      · exact (h.emit (.filler token)).enter .code
      · exact (h.emit (.filler token)).enter .string
  | code =>
      rw [hCase] at hSees
      exact h.readCode hToken hCase hSees

/-- Reading tokens keeps two readers matched, as long as they see the same behind them. -/
theorem readOver (h : Matches move reader reader')
    (hTokens : ∀ token ∈ tokens, TokenAll (·.IsRigid move) token)
    (hSees : Sees move (reader.readOver tokens rest).mode rest rest') :
    Matches move (reader.readOver tokens rest)
      (reader'.readOver (tokens.map (·.moved move)) rest') := by
  induction tokens generalizing reader reader' with
  | nil => exact h
  | cons token tokens ih =>
      rw [List.forall_mem_cons] at hTokens
      have hHere : Sees move (reader.read token (tokens ++ rest)).mode (tokens ++ rest)
          (tokens.map (·.moved move) ++ rest') := Sees.inFront hSees
      exact ih (h.read hTokens.1 hHere) hTokens.2 hSees

/-- The events of tokens are moved with them. -/
theorem emittedOver_eq (h : Matches move reader reader')
    (hTokens : ∀ token ∈ tokens, TokenAll (·.IsRigid move) token)
    (hSees : Sees move (reader.readOver tokens rest).mode rest rest') :
    reader'.emittedOver (tokens.map (·.moved move)) rest' =
      (reader.emittedOver tokens rest).map (·.moved move) := by
  have hForget := congrArg Reader.mode (isReader.forget_readOver reader tokens rest)
  have hMode : (reader.forget.readOver tokens rest).mode = (reader.readOver tokens rest).mode :=
    hForget
  rw [← hMode] at hSees
  rw [Reader.isReader.emittedOver_eq, Reader.isReader.emittedOver_eq,
    (h.forget.readOver hTokens hSees).events, Array.toList_map]

/-- So are the events that are to come to the end of a text. -/
theorem upcoming_eq (h : Matches move reader reader') (size : Nat)
    (hTokens : ∀ token ∈ tokens, TokenAll (·.IsRigid move) token) :
    reader'.upcoming (move size) (tokens.map (·.moved move)) =
      (reader.upcoming size tokens).map (·.moved move) := by
  have hEnd : Matches move (reader.forget.readOver tokens [])
      (reader'.forget.readOver (tokens.map (·.moved move)) []) :=
    h.forget.readOver hTokens (by simpa using Sees.nil move _)
  rw [← isReader.readAll_eq_readOver, ← isReader.readAll_eq_readOver] at hEnd
  rw [upcoming, upcoming, finish, finish, hEnd.mode, ← Array.toList_map]
  cases (reader.forget.readAll tokens).mode <;>
    simp [Mode.moved, hEnd.events, Event.moved, Span.moved]

end Matches

namespace All

variable {P : Word → Prop} {offset stop : Nat}

/-- What a reader holds behind tokens has the property if they have it. -/
theorem readOver (h : reader.All P offset) (hTokens : ∀ token ∈ tokens, TokenAll P token)
    (hContiguous : Contiguous offset tokens stop) (rest : List Token) :
    (reader.readOver tokens rest).All P stop := by
  induction tokens generalizing reader offset with
  | nil =>
      obtain rfl : offset = stop := hContiguous
      exact h
  | cons token tokens ih =>
      obtain ⟨rfl, hOrder, hContiguous⟩ := hContiguous
      rw [List.forall_mem_cons] at hTokens
      exact ih (h.read hTokens.1 hOrder) hTokens.2 hContiguous

theorem forget (h : reader.All P offset) : reader.forget.All P offset :=
  { h with events := by simp [Reader.forget] }

/-- Outside of comments and directives a reader holds its events only. -/
theorem of_code (hMode : reader.mode = .code) (offset : Nat) : reader.forget.All P offset :=
  ⟨by simp [Reader.forget], by simp [Reader.forget, hMode, Mode.opened?]⟩

/-- What is known of the tokens read is known of all events. -/
theorem emittedOver (h : reader.All P offset) (hTokens : ∀ token ∈ tokens, TokenAll P token)
    (hContiguous : Contiguous offset tokens stop) (rest : List Token) :
    ∀ event ∈ reader.emittedOver tokens rest, event.All P := by
  rw [isReader.emittedOver_eq]
  simpa using (h.forget.readOver hTokens hContiguous rest).events

theorem upcoming (h : reader.All P offset) (hTokens : ∀ token ∈ tokens, TokenAll P token)
    (hContiguous : Contiguous offset tokens stop) (hSize : stop ≤ size) (hEnd : P (.absent size)) :
    ∀ event ∈ reader.upcoming size tokens, event.All P := by
  simpa [Reader.upcoming] using (h.forget.readAll hTokens hContiguous).finish hSize hEnd

end All

end Reader

end HdlIndex.Verilog

import HdlIndex.Proofs.Token.LookAhead

/-! Readers of token lists. A reader takes the tokens one by one, each in view of those behind it,
and adds its events behind those that it has, without a look at these. So the events of a token list
are those of its first part, and then those that the reader behind that part still has to add. -/
namespace HdlIndex

variable {ρ ε μ : Type} {read : ρ → Token → List Token → ρ} {readAll : ρ → List Token → ρ}
  {readOver : ρ → List Token → List Token → ρ} {events : ρ → Array ε}
  {behind : Array ε → ρ → ρ} {forget : ρ → ρ} {emitted : ρ → Token → List Token → List ε}
  {emittedOver : ρ → List Token → List Token → List ε} {finish : ρ → Nat → Array ε}
  {upcoming : Nat → ρ → List Token → List ε}

/-- The functions read token lists with readers `ρ` that add events `ε`. One token is read in view
of those behind it; `readAll` reads a list to its end, and `readOver` reads one in view of further
tokens. `behind` puts further events in front of a reader's own, and `forget` drops these, so that
the events which are added next can be told by themselves. -/
structure IsReader (read : ρ → Token → List Token → ρ) (readAll : ρ → List Token → ρ)
    (readOver : ρ → List Token → List Token → ρ) (events : ρ → Array ε)
    (behind : Array ε → ρ → ρ) (forget : ρ → ρ) (emitted : ρ → Token → List Token → List ε)
    (emittedOver : ρ → List Token → List Token → List ε) (finish : ρ → Nat → Array ε)
    (upcoming : Nat → ρ → List Token → List ε) : Prop where
  readAll_nil (reader : ρ) : readAll reader [] = reader
  readAll_cons (reader : ρ) (token : Token) (rest : List Token) :
    readAll reader (token :: rest) = readAll (read reader token rest) rest
  readOver_nil (reader : ρ) (rest : List Token) : readOver reader [] rest = reader
  readOver_cons (reader : ρ) (token : Token) (tokens rest : List Token) :
    readOver reader (token :: tokens) rest =
      readOver (read reader token (tokens ++ rest)) tokens rest
  behind_forget (reader : ρ) : behind (events reader) (forget reader) = reader
  events_behind (added : Array ε) (reader : ρ) : events (behind added reader) = added ++
    events reader
  forget_behind (added : Array ε) (reader : ρ) : forget (behind added reader) = forget reader
  /-- A token is read without a look at the events. -/
  read_behind (added : Array ε) (reader : ρ) (token : Token) (rest : List Token) :
    read (behind added reader) token rest = behind added (read reader token rest)
  finish_behind (added : Array ε) (reader : ρ) (size : Nat) :
    finish (behind added reader) size = added ++ finish reader size
  emitted_eq (reader : ρ) (token : Token) (rest : List Token) :
    emitted reader token rest = (events (read (forget reader) token rest)).toList
  emittedOver_nil (reader : ρ) (rest : List Token) : emittedOver reader [] rest = []
  emittedOver_cons (reader : ρ) (token : Token) (tokens rest : List Token) :
    emittedOver reader (token :: tokens) rest = emitted reader token (tokens ++ rest) ++
      emittedOver (read reader token (tokens ++ rest)) tokens rest
  upcoming_def (size : Nat) (reader : ρ) (tokens : List Token) :
    upcoming size reader tokens = (finish (readAll (forget reader) tokens) size).toList

namespace IsReader

variable (h : IsReader read readAll readOver events behind forget emitted emittedOver finish
  upcoming)

include h

section Parts

theorem readOver_append (reader : ρ) (tokens others rest : List Token) :
    readOver reader (tokens ++ others) rest =
      readOver (readOver reader tokens (others ++ rest)) others rest := by
  induction tokens generalizing reader with
  | nil => rw [List.nil_append, h.readOver_nil]
  | cons token tokens ih =>
      rw [List.cons_append, h.readOver_cons, ih, h.readOver_cons, List.append_assoc]

/-- What two stretches of tokens add is what the first adds, and then what the reader behind it adds
for the second. -/
theorem emittedOver_append (reader : ρ) (tokens others rest : List Token) :
    emittedOver reader (tokens ++ others) rest = emittedOver reader tokens (others ++ rest) ++
      emittedOver (readOver reader tokens (others ++ rest)) others rest := by
  induction tokens generalizing reader with
  | nil => rw [h.emittedOver_nil, h.readOver_nil, List.nil_append, List.nil_append]
  | cons token tokens ih =>
      rw [List.cons_append, h.emittedOver_cons, ih, h.emittedOver_cons, h.readOver_cons,
        List.append_assoc, List.append_assoc]

theorem readAll_eq_readOver (reader : ρ) (tokens : List Token) :
    readAll reader tokens = readOver reader tokens [] := by
  induction tokens generalizing reader with
  | nil => rw [h.readAll_nil, h.readOver_nil]
  | cons token tokens ih => rw [h.readAll_cons, ih, h.readOver_cons, List.append_nil]

end Parts

section Events

theorem readOver_behind (added : Array ε) (reader : ρ) (tokens rest : List Token) :
    readOver (behind added reader) tokens rest = behind added (readOver reader tokens rest) := by
  induction tokens generalizing reader with
  | nil => rw [h.readOver_nil, h.readOver_nil]
  | cons token tokens ih => rw [h.readOver_cons, h.read_behind, ih, h.readOver_cons]

theorem readAll_behind (added : Array ε) (reader : ρ) (tokens : List Token) :
    readAll (behind added reader) tokens = behind added (readAll reader tokens) := by
  rw [h.readAll_eq_readOver, h.readOver_behind, h.readAll_eq_readOver]

/-- What a reader is behind tokens does not depend on its events. -/
theorem forget_readOver (reader : ρ) (tokens rest : List Token) :
    forget (readOver (forget reader) tokens rest) = forget (readOver reader tokens rest) := by
  conv_rhs => rw [← h.behind_forget reader, h.readOver_behind, h.forget_behind]

theorem forget_read (reader : ρ) (token : Token) (rest : List Token) :
    forget (read (forget reader) token rest) = forget (read reader token rest) := by
  conv_rhs => rw [← h.behind_forget reader, h.read_behind, h.forget_behind]

/-- Reading adds to the events and changes none. -/
theorem events_read (reader : ρ) (token : Token) (rest : List Token) :
    (events (read reader token rest)).toList =
      (events reader).toList ++ emitted reader token rest := by
  conv_lhs => rw [← h.behind_forget reader, h.read_behind, h.events_behind, Array.toList_append]
  rw [h.emitted_eq]

theorem forget_forget (reader : ρ) : forget (forget reader) = forget reader := by
  conv_rhs => rw [← h.behind_forget reader, h.forget_behind]

theorem events_forget (reader : ρ) : (events (forget reader)).toList = [] := by
  have hBoth := congrArg (fun reader => (events reader).toList) (h.behind_forget reader)
  simpa only [h.events_behind, Array.toList_append, List.append_right_eq_self] using hBoth

/-- What tokens add can also be read off a reader that starts with no events. -/
theorem emittedOver_eq (reader : ρ) (tokens rest : List Token) :
    emittedOver reader tokens rest = (events (readOver (forget reader) tokens rest)).toList := by
  induction tokens generalizing reader with
  | nil => rw [h.emittedOver_nil, h.readOver_nil, h.events_forget]
  | cons token tokens ih =>
      rw [h.emittedOver_cons, ih, ← h.forget_read, h.readOver_cons]
      conv_rhs => rw [← h.behind_forget (read (forget reader) token (tokens ++ rest)),
        h.readOver_behind, h.events_behind, Array.toList_append]
      rw [h.emitted_eq]

theorem upcoming_forget (reader : ρ) (size : Nat) (tokens : List Token) :
    upcoming size (forget reader) tokens = upcoming size reader tokens := by
  rw [h.upcoming_def, h.upcoming_def, h.forget_forget]

/-- The events of a token list begin with what its first token adds. -/
theorem upcoming_eq (reader : ρ) (size : Nat) (token : Token) (rest : List Token) :
    upcoming size reader (token :: rest) =
      emitted reader token rest ++ upcoming size (read reader token rest) rest := by
  rw [h.upcoming_def, h.readAll_cons, ← h.behind_forget (read (forget reader) token rest),
    h.readAll_behind, h.finish_behind, h.forget_read, Array.toList_append, h.emitted_eq,
    h.upcoming_def]

/-- The events of a text are those of its first part, and then those that are to come. -/
theorem upcoming_append (size : Nat) (reader : ρ) (tokens rest : List Token) :
    upcoming size reader (tokens ++ rest) =
      emittedOver reader tokens rest ++ upcoming size (readOver reader tokens rest) rest := by
  induction tokens generalizing reader with
  | nil => rw [List.nil_append, h.emittedOver_nil, h.readOver_nil, List.nil_append]
  | cons token tokens ih =>
      rw [List.cons_append, h.upcoming_eq, ih, h.emittedOver_cons, h.readOver_cons,
        List.append_assoc]

/-- What a reader has added is not taken back. -/
theorem mem_finish {event : ε} {reader : ρ} (hMem : event ∈ events reader) (tokens : List Token)
    (size : Nat) : event ∈ (finish (readAll reader tokens) size).toList := by
  rw [← h.behind_forget reader, h.readAll_behind, h.finish_behind]
  simp [hMem]

/-- What every token keeps, the tokens keep together; and if what each one adds is nothing to a
machine that takes the events, then so is what they add together. -/
theorem foldl_emittedOver {ω : Type} {step : ω → ε → ω} {machine : ω} {P : ρ → Prop}
    {tokens rest : List Token} {reader : ρ}
    (hToken : ∀ token ∈ tokens, ∀ reader rest, P reader → P (read reader token rest) ∧
      (emitted reader token rest).foldl step machine = machine) (hStart : P reader) :
    P (readOver reader tokens rest) ∧
      (emittedOver reader tokens rest).foldl step machine = machine := by
  induction tokens generalizing reader with
  | nil =>
      rw [h.readOver_nil, h.emittedOver_nil]
      exact ⟨hStart, rfl⟩
  | cons token tokens ih =>
      rw [List.forall_mem_cons] at hToken
      obtain ⟨hRead, hNothing⟩ := hToken.1 reader (tokens ++ rest) hStart
      rw [h.readOver_cons, h.emittedOver_cons, List.foldl_append, hNothing]
      exact ih hToken.2 hRead

end Events

section Indices

variable {start : ρ} {tokens rest : List Token} {index : Nat} {token : Token}

/-- Reading goes on token by token. -/
theorem readOver_succ (start : ρ) (hToken : tokens[index]? = some token) :
    readOver start (tokens.take (index + 1)) (tokens.drop (index + 1)) =
      read (readOver start (tokens.take index) (tokens.drop index)) token
        (tokens.drop (index + 1)) := by
  obtain ⟨hLength, hGet⟩ := List.getElem?_eq_some_iff.1 hToken
  have hTake : tokens.take (index + 1) = tokens.take index ++ [token] := by
    rw [List.take_add_one, hToken]
    rfl
  have hDrop : tokens.drop index = token :: tokens.drop (index + 1) := by
    rw [List.drop_eq_getElem_cons hLength, hGet]
  rw [hTake, h.readOver_append, List.singleton_append, ← hDrop, h.readOver_cons, h.readOver_nil,
    List.nil_append]

/-- A list is read to its end by way of the reader in front of any of its tokens. -/
theorem readAll_readOver (start : ρ) (tokens : List Token) (index : Nat) :
    readAll start tokens =
      readAll (readOver start (tokens.take index) (tokens.drop index)) (tokens.drop index) := by
  conv_lhs => rw [h.readAll_eq_readOver, ← List.take_append_drop index tokens, h.readOver_append,
    List.append_nil, ← h.readAll_eq_readOver]

/-- A reader is kept in step with looking ahead if each token that looking ahead passes over leaves
the reader where looking ahead is. -/
theorem tracks (mode : ρ → μ) (code : μ) (resumes? : μ → Option (Option String))
    {comments : List (String × String)} (hCode : ∀ mode, mode = code ↔ resumes? mode = some none)
    (hPasses : ∀ {reader : ρ} {token : Token} (rest : List Token) {closer after : Option String},
      resumes? (mode reader) = some closer →
      Token.passOver comments closer [token] = some after →
      resumes? (mode (read reader token rest)) = some after) (start : ρ) (tokens : List Token) :
    Token.Tracks comments
      (fun index => mode (readOver start (tokens.take index) (tokens.drop index)) = code) tokens
      fun index => resumes? (mode (readOver start (tokens.take index) (tokens.drop index))) where
  inCode_iff _ := hCode _
  passes hToken hView hPass := by
    rw [h.readOver_succ start hToken]
    exact hPasses _ hView hPass

end Indices

end IsReader

/-- Block comments are taken from their opener to their closer. The mode of a reader tells that it
is inside of one and where that began, and a comment that is not closed reaches to the end of the
text. -/
structure TakesBlocks (read : ρ → Token → List Token → ρ) (events : ρ → Array ε)
    (finish : ρ → Nat → Array ε) (mode : ρ → μ) (code : μ) (block : Nat → μ)
    (comment : Span → ε) : Prop where
  opener {reader : ρ} {token : Token} (hMode : mode reader = code) (hText : token.text = "/*")
    (rest : List Token) : mode (read reader token rest) = block token.span.start
  inside {reader : ρ} {token : Token} {start : Nat} (hMode : mode reader = block start)
    (hText : token.text ≠ "*/") (rest : List Token) : mode (read reader token rest) = block start
  closer {reader : ρ} {token : Token} {start : Nat} (hMode : mode reader = block start)
    (hText : token.text = "*/") (rest : List Token) :
    mode (read reader token rest) = code ∧
      events (read reader token rest) = (events reader).push (comment ⟨start, token.span.stop⟩)
  ended {reader : ρ} {start : Nat} (hMode : mode reader = block start) (size : Nat) :
    finish reader size = (events reader).push (comment ⟨start, size⟩)

namespace TakesBlocks

variable {mode : ρ → μ} {code : μ} {block : Nat → μ} {comment : Span → ε} {start : ρ}
  {opener closer : Token} {before inner behind' : List Token}
  (hBlocks : TakesBlocks read events finish mode code block comment)
  (h : IsReader read readAll readOver events behind forget emitted emittedOver finish upcoming)

include hBlocks h

/-- Inside of a comment everything but a closer is passed over. -/
theorem readOver_inside {reader : ρ} {opened : Nat} (hMode : mode reader = block opened)
    (hInner : ∀ token ∈ inner, token.text ≠ "*/") (rest : List Token) :
    mode (readOver reader inner rest) = block opened := by
  induction inner generalizing reader with
  | nil => rwa [h.readOver_nil]
  | cons token inner ih =>
      rw [List.forall_mem_cons] at hInner
      rw [h.readOver_cons]
      exact ih (hBlocks.inside hMode hInner.1 _) hInner.2

/-- The tokens from an opener in code to the closer behind it are one comment. -/
theorem comment_of_closer
    (hCode : let tokens := before ++ opener :: (inner ++ closer :: behind')
      mode (readOver start (tokens.take before.length) (tokens.drop before.length)) = code)
    (hOpener : opener.text = "/*") (hInner : ∀ token ∈ inner, token.text ≠ "*/")
    (hCloser : closer.text = "*/") (size : Nat) :
    let tokens := before ++ opener :: (inner ++ closer :: behind')
    let index := (before ++ opener :: inner).length
    tokens[index]? = some closer ∧
      mode (readOver start (tokens.take (index + 1)) (tokens.drop (index + 1))) = code ∧
      comment ⟨opener.span.start, closer.span.stop⟩ ∈
        (finish (readAll start tokens) size).toList := by
  intro tokens index
  have hTokens : tokens = (before ++ opener :: inner) ++ closer :: behind' := by simp [tokens]
  have hToken : tokens[index]? = some closer := by
    rw [hTokens]
    simp [index]
  have hInside : mode (readOver start (tokens.take index) (tokens.drop index)) =
      block opener.span.start := by
    dsimp only at hCode
    rw [List.take_left, List.drop_left] at hCode
    rw [hTokens, List.take_left, List.drop_left, h.readOver_append, h.readOver_cons]
    exact hBlocks.readOver_inside h (hBlocks.opener hCode hOpener _) hInner _
  obtain ⟨hMode, hEvents⟩ := hBlocks.closer hInside hCloser (tokens.drop (index + 1))
  rw [← h.readOver_succ start hToken] at hMode hEvents
  refine ⟨hToken, hMode, ?_⟩
  rw [h.readAll_readOver start tokens (index + 1)]
  exact h.mem_finish (by rw [hEvents]; simp) _ size

/-- Without a closer the comment reaches to the end of the text. -/
theorem comment_of_end
    (hCode : let tokens := before ++ opener :: behind'
      mode (readOver start (tokens.take before.length) (tokens.drop before.length)) = code)
    (hOpener : opener.text = "/*") (hBehind : ∀ token ∈ behind', token.text ≠ "*/") (size : Nat) :
    comment ⟨opener.span.start, size⟩ ∈
      (finish (readAll start (before ++ opener :: behind')) size).toList := by
  dsimp only at hCode
  rw [List.take_left, List.drop_left] at hCode
  have hInside : mode (readAll start (before ++ opener :: behind')) = block opener.span.start := by
    rw [h.readAll_eq_readOver, h.readOver_append, h.readOver_cons, List.append_nil]
    exact hBlocks.readOver_inside h (hBlocks.opener hCode hOpener _) hBehind _
  rw [hBlocks.ended hInside]
  simp

end TakesBlocks

end HdlIndex

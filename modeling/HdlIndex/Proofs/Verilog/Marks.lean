import HdlIndex.Proofs.Token.Marks
import HdlIndex.Proofs.Verilog.ReadingWords
import HdlIndex.Proofs.Verilog.WordReading
import HdlIndex.Verilog.Scan

/-! The marks of a Verilog text are those that its tokens call for. -/
namespace HdlIndex.Verilog

/-- Comments, strings that have escapes, and directive lines. -/
def lexis : Lexis where
  opens? _ token _ :=
    if token.text = "//" then some .lineComment
    else if token.text = "/*" then some .blockComment
    else if token.text = "\"" then some (.string true)
    else if isLineDirective token.text then some .directive
    else none
  isReserved text := (Symbol.ofText text).isKeyword

/-- What an event marks. -/
def Event.mark? : Event → Option Mark
  | comment span => some (.comment span)
  | directive span => some (.directive span)
  | filler _ | ended _ => none
  | word here _ => if here.symbol.isKeyword then some (.keyword here.span) else none

/-- The mode of an enclosed part that began at a byte offset. -/
def Mode.Encloses : Mode → Enclosure → Nat → Prop
  | .lineComment start, .lineComment, start' => start = start'
  | .blockComment start, .blockComment, start' => start = start'
  | .directive start, .directive, start' => start = start'
  | .string, .string escapes, _ => escapes = true
  | _, _, _ => False

namespace Reader

variable {reader : Reader} {passed rest : List Token} {token last : Token} {size start : Nat}
  {enclosure : Enclosure}

/-- The marks that are to come. -/
def marks (size : Nat) (reader : Reader) (tokens : List Token) : List Mark :=
  (reader.upcoming size tokens).filterMap Event.mark?

/-- The reader has passed these tokens, the latest first, and this is open behind them. -/
def Inside (reader : Reader) (passed : List Token) (opened : Option (Enclosure × Nat)) : Prop :=
  reader.passed = passed.head? ∧
    match opened with
    | none => reader.mode = .code
    | some (enclosure, start) => reader.mode.Encloses enclosure start

/-- The marks of a reading are those of its first token and those that are to come. -/
theorem marks_cons (reader : Reader) (token : Token) (rest : List Token) :
    reader.marks size (token :: rest) = (reader.emitted token rest).filterMap Event.mark? ++
      (reader.read token rest).marks size rest := by
  rw [marks, isReader.upcoming_eq, List.filterMap_append]
  rfl

/-- What is read as a filler outside of strings is no reserved word, and the sentinel is none. -/
theorem isReserved_filler (h : token.isBlank = true ∨ token.isSentinel = true) :
    lexis.isReserved token.text = false := by
  rcases h with hBlank | hSentinel
  · rw [← Bool.not_eq_true]
    intro hKeyword
    have hName := Symbol.isNameLike_of_isKeyword hKeyword
    exact absurd hBlank (by simp [isBlank_of_isNameLike hName])
  · have hText : token.text = Token.sentinelText := by
      simp only [Token.isSentinel, Bool.and_eq_true, beq_iff_eq] at hSentinel
      exact hSentinel.1
    rw [hText]
    decide

/-- A token that opens nothing is a word, a filler or the sentinel. -/
theorem readCode_passes (reader : Reader) (hOpens : lexis.opens? passed token rest = none) :
    (reader.readCode token rest).mode = reader.mode ∧
      ∃ event, (reader.readCode token rest).events = reader.events.push event ∧
        event.mark? = if lexis.isReserved token.text then some (.keyword token.span) else none := by
  simp only [lexis] at hOpens
  split at hOpens
  · cases hOpens
  next hLine =>
  split at hOpens
  · cases hOpens
  next hBlock =>
  split at hOpens
  · cases hOpens
  next hString =>
  split at hOpens
  · cases hOpens
  next hDirective =>
  rw [readCode, if_neg hLine, if_neg hBlock, if_neg hString]
  split
  · next hSentinel =>
    rw [isReserved_filler (.inr hSentinel)]
    exact ⟨rfl, _, rfl, rfl⟩
  split
  · next hBlank =>
    rw [isReserved_filler (.inl hBlank)]
    exact ⟨rfl, _, rfl, rfl⟩
  · exact ⟨rfl, _, rfl, rfl⟩

/-- The sentinel is no directive. -/
theorem isSentinel_of_directive (h : isLineDirective token.text = true) :
    token.isSentinel = false := by
  rw [← Bool.not_eq_true]
  intro hSentinel
  simp only [Token.isSentinel, Bool.and_eq_true, beq_iff_eq] at hSentinel
  rw [hSentinel.1] at h
  exact absurd h (by decide)

/-- A token that opens a part is none of the words, also where it is passed on as a filler. -/
theorem readCode_opens (reader : Reader)
    (hOpens : lexis.opens? passed token rest = some enclosure) :
    (reader.readCode token rest).mode.Encloses enclosure token.span.start ∧
      ((reader.readCode token rest).events = reader.events ∨
        (reader.readCode token rest).events = reader.events.push (.filler token)) := by
  simp only [lexis] at hOpens
  rw [readCode]
  split at hOpens
  · next hLine =>
    obtain rfl := Option.some.inj hOpens
    rw [if_pos hLine]
    exact ⟨rfl, .inl rfl⟩
  next hLine =>
  split at hOpens
  · next hBlock =>
    obtain rfl := Option.some.inj hOpens
    rw [if_neg hLine, if_pos hBlock]
    exact ⟨rfl, .inl rfl⟩
  next hBlock =>
  split at hOpens
  · next hString =>
    obtain rfl := Option.some.inj hOpens
    rw [if_neg hLine, if_neg hBlock, if_pos hString]
    exact ⟨rfl, .inr rfl⟩
  next hString =>
  split at hOpens
  · next hDirective =>
    obtain rfl := Option.some.inj hOpens
    rw [if_neg hLine, if_neg hBlock, if_neg hString, isSentinel_of_directive hDirective,
      if_neg Bool.false_ne_true, if_pos hDirective]
    exact ⟨rfl, .inl rfl⟩
  · cases hOpens

/-- In code reading a token is `readCode`, apart from what is remembered of it. -/
theorem read_code (hMode : reader.mode = .code) (token : Token) (rest : List Token) :
    (reader.read token rest).mode = (reader.readCode token rest).mode ∧
      reader.emitted token rest = (reader.forget.readCode token rest).events.toList := by
  have hForget : reader.forget.mode = .code := hMode
  rw [emitted, read, read, hMode, hForget]
  exact ⟨rfl, rfl⟩

/-- Inside of a part nothing is marked until the part is closed. -/
theorem read_enclosed (hMode : reader.mode.Encloses enclosure start)
    (hPassed : reader.passed = some last) (token : Token) (rest : List Token) :
    (enclosure.closes last token = false → (reader.read token rest).mode = reader.mode ∧
      (reader.emitted token rest).filterMap Event.mark? = []) ∧
    (enclosure.closes last token = true → (reader.read token rest).mode = .code ∧
      (reader.emitted token rest).filterMap Event.mark? =
        enclosure.marks start (enclosure.stop token)) := by
  have hForget : reader.forget.mode = reader.mode := rfl
  rw [emitted, read, read, hForget]
  cases hCase : reader.mode with
  | code =>
      rw [hCase] at hMode
      cases hMode
  | lineComment opened =>
      rw [hCase] at hMode
      cases enclosure with
      | lineComment =>
          obtain rfl : opened = start := hMode
          by_cases hText : token.text = "\n" <;>
            simp [Enclosure.closes, Enclosure.marks, Enclosure.stop, hText, hCase, emit, forget,
              Event.mark?]
      | _ => cases hMode
  | blockComment opened =>
      rw [hCase] at hMode
      cases enclosure with
      | blockComment =>
          obtain rfl : opened = start := hMode
          by_cases hText : token.text = "*/" <;>
            simp [Enclosure.closes, Enclosure.marks, Enclosure.stop, hText, hCase, emit, forget,
              Event.mark?]
      | _ => cases hMode
  | directive opened =>
      rw [hCase] at hMode
      cases enclosure with
      | directive =>
          obtain rfl : opened = start := hMode
          rw [Enclosure.closes]
          cases hCloses : (token.text = "\n" || token.isSentinel : Bool) <;>
            simp [Enclosure.marks, Enclosure.stop, hCase, emit, forget, Event.mark?]
      | _ => cases hMode
  | string =>
      rw [hCase] at hMode
      cases enclosure with
      | string escapes =>
          obtain rfl : escapes = true := hMode
          have hEscaped : reader.isEscaped = decide (last.text.toList.getLast? = some '\\') := by
            rw [isEscaped, hPassed]
            rfl
          rw [Enclosure.closes, hEscaped]
          cases hCloses : (token.text =
            "\"" && ! decide (last.text.toList.getLast? = some '\\') : Bool) <;>
            simp [Enclosure.marks, hCloses, emit, forget, Event.mark?]
      | _ => cases hMode

/-- Reading keeps to what the tokens call for. -/
theorem guides (size : Nat) : lexis.Guides size (marks size) Inside where
  passes := by
    rintro reader passed token rest ⟨-, hMode⟩ hOpens
    obtain ⟨hRead, hEmitted⟩ := reader.read_code hMode token rest
    obtain ⟨hAfter, -⟩ := reader.readCode_passes hOpens
    obtain ⟨-, event, hEvents, hMark⟩ := reader.forget.readCode_passes hOpens
    refine ⟨reader.read token rest, ⟨rfl, hRead.trans (hAfter.trans hMode)⟩, ?_⟩
    rw [marks_cons, hEmitted, hEvents]
    cases hReserved : lexis.isReserved token.text <;>
      simp [forget, hMark, hReserved]
  opens := by
    rintro reader passed token rest enclosure ⟨-, hMode⟩ hOpens
    obtain ⟨hRead, hEmitted⟩ := reader.read_code hMode token rest
    obtain ⟨hAfter, -⟩ := reader.readCode_opens hOpens
    obtain ⟨-, hEvents⟩ := reader.forget.readCode_opens hOpens
    refine ⟨reader.read token rest, ⟨rfl, hRead ▸ hAfter⟩, ?_⟩
    rw [marks_cons, hEmitted]
    rcases hEvents with hEvents | hEvents <;> rw [hEvents] <;> simp [forget, Event.mark?]
  stays := by
    rintro reader passed last token rest enclosure start ⟨hPassed, hMode⟩ hCloses
    obtain ⟨hRead, hEmitted⟩ := (read_enclosed hMode hPassed token rest).1 hCloses
    refine ⟨reader.read token rest, ⟨rfl, hRead ▸ hMode⟩, ?_⟩
    rw [marks_cons, hEmitted, List.nil_append]
  closes := by
    rintro reader passed last token rest enclosure start ⟨hPassed, hMode⟩ hCloses
    obtain ⟨hRead, hEmitted⟩ := (read_enclosed hMode hPassed token rest).2 hCloses
    refine ⟨reader.read token rest, ⟨rfl, hRead⟩, ?_⟩
    rw [marks_cons, hEmitted]
  ends := by
    rintro reader passed ⟨-, hMode⟩
    have hForget : reader.forget.mode = .code := hMode
    rw [marks, upcoming, readAll, finish, hForget]
    rfl
  endsInside := by
    rintro reader passed enclosure start ⟨-, hMode⟩
    have hForget : reader.forget.mode = reader.mode := rfl
    rw [marks, upcoming, readAll, finish, hForget]
    cases hCase : reader.mode <;> rw [hCase] at hMode <;> cases enclosure <;>
      simp_all [Mode.Encloses, Enclosure.marks, forget, Event.mark?]

end Reader

theorem Event.comment?_eq (event : Event) : event.comment? = event.mark?.bind Mark.comment? := by
  cases event with
  | word here next =>
      cases hKeyword : here.symbol.isKeyword <;> simp [comment?, mark?, hKeyword, Mark.comment?]
  | _ => rfl

theorem Event.directive?_eq (event : Event) :
    event.directive? = event.mark?.bind Mark.directive? := by
  cases event with
  | word here next =>
      cases hKeyword : here.symbol.isKeyword <;> simp [directive?, mark?, hKeyword, Mark.directive?]
  | _ => rfl

theorem Event.keyword?_eq (event : Event) : event.keyword? = event.mark?.bind Mark.keyword? := by
  cases event with
  | word here next =>
      cases hKeyword : here.symbol.isKeyword <;> simp [keyword?, mark?, hKeyword, Mark.keyword?]
  | _ => rfl

/-- What an event marks is found among the marks of its text. -/
theorem filterMap_readEvents {α : Type} {find? : Event → Option α} {pick? : Mark → Option α}
    (hFind : ∀ event : Event, find? event = event.mark?.bind pick?) (size : Nat)
    (tokens : List Token) :
    (readEvents size tokens).filterMap find? = (lexis.marks size [] tokens).filterMap pick? := by
  have hMarks : (readEvents size tokens).filterMap Event.mark? = lexis.marks size [] tokens := by
    rw [readEvents_eq_upcoming]
    exact (Reader.guides size).marks_eq ⟨rfl, rfl⟩
  rw [← hMarks, List.filterMap_filterMap]
  exact List.filterMap_congr fun event _ => hFind event

end HdlIndex.Verilog

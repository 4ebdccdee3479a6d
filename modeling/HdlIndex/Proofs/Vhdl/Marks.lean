import HdlIndex.Proofs.Token.Marks
import HdlIndex.Proofs.Vhdl.WordOrder
import HdlIndex.Proofs.Vhdl.WordReading
import HdlIndex.Vhdl.Scan

/-! The marks of a VHDL text are those that its tokens call for. -/
namespace HdlIndex.Vhdl

/-- The token behind `passed` is the character of a literal: a tick stands on each side, with an
empty word between. -/
def isLiteral (passed rest : List Token) : Bool :=
  match passed, rest with
  | last :: earlier :: _, following :: closing :: _ =>
    earlier.text = "'" && last.isEmpty && following.isEmpty && closing.text = "'"
  | _, _ => false

/-- Comments, and strings that have no escapes. -/
def lexis : Lexis where
  opens? passed token rest :=
    if token.text = "--" then some .lineComment
    else if token.text = "/*" then some .blockComment
    else if token.text = "\"" && ! isLiteral passed rest then some (.string false)
    else none
  isReserved text := (Symbol.ofText text).isKeyword

/-- What an event marks. -/
def Event.mark? : Event → Option Mark
  | comment span => some (.comment span)
  | filler _ => none
  | word here _ _ => if here.symbol.isKeyword then some (.keyword here.span) else none

/-- The mode of an enclosed part that began at a byte offset. -/
def Mode.Encloses : Mode → Enclosure → Nat → Prop
  | .lineComment start, .lineComment, start' => start = start'
  | .blockComment start, .blockComment, start' => start = start'
  | .string, .string escapes, _ => escapes = false
  | _, _, _ => False

namespace Reader

variable {reader : Reader} {passed rest : List Token} {token last : Token} {size start : Nat}
  {enclosure : Enclosure}

/-- The marks that are to come. -/
def marks (size : Nat) (reader : Reader) (tokens : List Token) : List Mark :=
  (reader.upcoming size tokens).filterMap Event.mark?

/-- The reader has passed these tokens, the latest first, and this is open behind them. -/
def Inside (reader : Reader) (passed : List Token) (opened : Option (Enclosure × Nat)) : Prop :=
  reader.passed = (passed.head?, passed.tail.head?) ∧
    match opened with
    | none => reader.mode = .code
    | some (enclosure, start) => reader.mode.Encloses enclosure start

/-- The marks of a reading are those of its first token and those that are to come. -/
theorem marks_cons (reader : Reader) (token : Token) (rest : List Token) :
    reader.marks size (token :: rest) = (reader.emitted token rest).filterMap Event.mark? ++
      (reader.read token rest).marks size rest := by
  rw [marks, isReader.upcoming_eq, List.filterMap_append]
  rfl

theorem passed_of_read (h : reader.passed = (passed.head?, passed.tail.head?)) :
    (reader.read token rest).passed = ((token :: passed).head?, (token :: passed).tail.head?) :=
  congrArg (fun last => (some token, last)) (congrArg Prod.fst h)

/-- Two tokens are remembered, which is all that a character literal needs. -/
theorem isCharacter_of_passed (h : reader.passed = (passed.head?, passed.tail.head?)) :
    reader.isCharacter rest = isLiteral passed rest := by
  unfold isCharacter
  rw [h]
  rcases passed with _ | ⟨last, _ | ⟨earlier, passed⟩⟩ <;>
    rcases rest with _ | ⟨following, _ | ⟨closing, rest⟩⟩ <;> rfl

/-- What is read as a filler outside of strings is no reserved word. -/
theorem isReserved_filler
    (h : isPunctuation token.text = true ∨ token.isBlank = true ∨ token.text = "\"") :
    lexis.isReserved token.text = false := by
  rw [← Bool.not_eq_true]
  intro hKeyword
  have hName := Symbol.isNameLike_of_isKeyword hKeyword
  rcases h with hText | hBlank | hText
  · simp only [isPunctuation, Bool.or_eq_true, decide_eq_true_eq] at hText
    rcases hText with ((hText | hText) | hText) | hText <;>
      · rw [hText] at hName
        exact absurd hName (by decide)
  · exact absurd hBlank (by simp [isBlank_of_isNameLike hName])
  · rw [hText] at hName
    exact absurd hName (by decide)

/-- A token that opens nothing is a word or a filler. -/
theorem readCode_passes (hPassed : reader.passed = (passed.head?, passed.tail.head?))
    (hOpens : lexis.opens? passed token rest = none) :
    (reader.readCode token rest).mode = reader.mode ∧
      ∃ event, (reader.readCode token rest).events = reader.events.push event ∧
        event.mark? = if lexis.isReserved token.text then some (.keyword token.span) else none := by
  have hCharacter : reader.isCharacter rest = isLiteral passed rest := isCharacter_of_passed hPassed
  simp only [lexis] at hOpens
  split at hOpens
  · cases hOpens
  next hLine =>
  split at hOpens
  · cases hOpens
  next hBlock =>
  split at hOpens
  · cases hOpens
  next hString =>
  rw [readCode, if_neg hLine, if_neg hBlock, hCharacter]
  split
  · next hText =>
    have hLiteral : isLiteral passed rest = true := by simpa [hText] using hString
    rw [isReserved_filler (.inr (.inr hText)), hLiteral]
    exact ⟨rfl, _, rfl, rfl⟩
  split
  · next hFiller =>
    rw [Bool.or_eq_true, Bool.and_eq_true] at hFiller
    rw [isReserved_filler (hFiller.imp And.left .inl)]
    exact ⟨rfl, _, rfl, rfl⟩
  · exact ⟨rfl, _, rfl, rfl⟩

/-- A token that opens a part is none of the words, also where it is passed on as a filler. -/
theorem readCode_opens (hPassed : reader.passed = (passed.head?, passed.tail.head?))
    (hOpens : lexis.opens? passed token rest = some enclosure) :
    (reader.readCode token rest).mode.Encloses enclosure token.span.start ∧
      ((reader.readCode token rest).events = reader.events ∨
        (reader.readCode token rest).events = reader.events.push (.filler token)) := by
  have hCharacter : reader.isCharacter rest = isLiteral passed rest := isCharacter_of_passed hPassed
  simp only [lexis] at hOpens
  rw [readCode, hCharacter]
  split at hOpens
  · next hLine =>
    obtain rfl := Option.some.inj hOpens
    rw [if_pos hLine]
    exact ⟨rfl, .inl rfl⟩
  next hLine =>
  split at hOpens
  · next hBlock =>
    obtain rfl := Option.some.inj hOpens
    rw [if_neg hLine, if_pos hBlock]
    exact ⟨rfl, .inl rfl⟩
  next hBlock =>
  split at hOpens
  · next hString =>
    obtain rfl := Option.some.inj hOpens
    obtain ⟨hText, hLiteral⟩ : token.text = "\"" ∧ isLiteral passed rest = false := by
      simpa using hString
    rw [if_neg hLine, if_neg hBlock, if_pos hText, hLiteral]
    exact ⟨rfl, .inr rfl⟩
  · cases hOpens

theorem read_code (hMode : reader.mode = .code) (token : Token) (rest : List Token) :
    (reader.read token rest).mode = (reader.readCode token rest).mode ∧
      reader.emitted token rest = (reader.forget.readCode token rest).events.toList := by
  have hForget : reader.forget.mode = .code := hMode
  rw [emitted, read, read, hMode, hForget]
  exact ⟨rfl, rfl⟩

/-- Inside of a part nothing is marked until the part is closed. -/
theorem read_enclosed (hMode : reader.mode.Encloses enclosure start) (last token : Token)
    (rest : List Token) :
    (enclosure.closes last token = false → (reader.read token rest).mode = reader.mode ∧
      (reader.emitted token rest).filterMap Event.mark? = []) ∧
    (enclosure.closes last token = true → (reader.read token rest).mode = .code ∧
      (reader.emitted token rest).filterMap Event.mark? =
        enclosure.marks start (enclosure.stop token)) := by
  have hForget : reader.forget.mode = reader.mode := rfl
  rw [emitted, read, read, hForget]
  cases hCase : reader.mode with
  | code =>
      rw [hCase] at hMode
      cases hMode
  | lineComment opened =>
      rw [hCase] at hMode
      cases enclosure with
      | lineComment =>
          obtain rfl : opened = start := hMode
          by_cases hText : token.text = "\n" <;>
            simp [Enclosure.closes, Enclosure.marks, Enclosure.stop, hText, hCase, emit, forget,
              Event.mark?]
      | _ => cases hMode
  | blockComment opened =>
      rw [hCase] at hMode
      cases enclosure with
      | blockComment =>
          obtain rfl : opened = start := hMode
          by_cases hText : token.text = "*/" <;>
            simp [Enclosure.closes, Enclosure.marks, Enclosure.stop, hText, hCase, emit, forget,
              Event.mark?]
      | _ => cases hMode
  | string =>
      rw [hCase] at hMode
      cases enclosure with
      | string escapes =>
          obtain rfl : escapes = false := hMode
          by_cases hText : token.text = "\"" <;>
            simp [Enclosure.closes, Enclosure.marks, hText, emit, forget, Event.mark?]
      | _ => cases hMode

/-- Reading keeps to what the tokens call for. -/
theorem guides (size : Nat) : lexis.Guides size (marks size) Inside where
  passes := by
    rintro reader passed token rest ⟨hPassed, hMode⟩ hOpens
    obtain ⟨hRead, hEmitted⟩ := reader.read_code hMode token rest
    obtain ⟨hAfter, -⟩ := readCode_passes hPassed hOpens
    have hForget : reader.forget.passed = (passed.head?, passed.tail.head?) := hPassed
    obtain ⟨-, event, hEvents, hMark⟩ := readCode_passes hForget hOpens
    refine ⟨reader.read token rest, ⟨passed_of_read hPassed, hRead.trans (hAfter.trans hMode)⟩, ?_⟩
    rw [marks_cons, hEmitted, hEvents]
    cases hReserved : lexis.isReserved token.text <;>
      simp [forget, hMark, hReserved]
  opens := by
    rintro reader passed token rest enclosure ⟨hPassed, hMode⟩ hOpens
    obtain ⟨hRead, hEmitted⟩ := reader.read_code hMode token rest
    obtain ⟨hAfter, -⟩ := readCode_opens hPassed hOpens
    have hForget : reader.forget.passed = (passed.head?, passed.tail.head?) := hPassed
    obtain ⟨-, hEvents⟩ := readCode_opens hForget hOpens
    refine ⟨reader.read token rest, ⟨passed_of_read hPassed, hRead ▸ hAfter⟩, ?_⟩
    rw [marks_cons, hEmitted]
    rcases hEvents with hEvents | hEvents <;> rw [hEvents] <;> simp [forget, Event.mark?]
  stays := by
    rintro reader passed last token rest enclosure start ⟨hPassed, hMode⟩ hCloses
    obtain ⟨hRead, hEmitted⟩ := (read_enclosed hMode last token rest).1 hCloses
    refine ⟨reader.read token rest, ⟨passed_of_read hPassed, hRead ▸ hMode⟩, ?_⟩
    rw [marks_cons, hEmitted, List.nil_append]
  closes := by
    rintro reader passed last token rest enclosure start ⟨hPassed, hMode⟩ hCloses
    obtain ⟨hRead, hEmitted⟩ := (read_enclosed hMode last token rest).2 hCloses
    refine ⟨reader.read token rest, ⟨passed_of_read hPassed, hRead⟩, ?_⟩
    rw [marks_cons, hEmitted]
  ends := by
    rintro reader passed ⟨-, hMode⟩
    have hForget : reader.forget.mode = .code := hMode
    rw [marks, upcoming, readAll, finish, hForget]
    rfl
  endsInside := by
    rintro reader passed enclosure start ⟨-, hMode⟩
    have hForget : reader.forget.mode = reader.mode := rfl
    rw [marks, upcoming, readAll, finish, hForget]
    cases hCase : reader.mode <;> rw [hCase] at hMode <;> cases enclosure <;>
      simp_all [Mode.Encloses, Enclosure.marks, forget, Event.mark?]

end Reader

theorem Event.comment?_eq (event : Event) : event.comment? = event.mark?.bind Mark.comment? := by
  cases event with
  | word here before next =>
      cases hKeyword : here.symbol.isKeyword <;> simp [comment?, mark?, hKeyword, Mark.comment?]
  | _ => rfl

theorem Event.keyword?_eq (event : Event) : event.keyword? = event.mark?.bind Mark.keyword? := by
  cases event with
  | word here before next =>
      cases hKeyword : here.symbol.isKeyword <;> simp [keyword?, mark?, hKeyword, Mark.keyword?]
  | _ => rfl

/-- There are no directive lines. -/
theorem Event.directive?_mark (event : Event) : event.mark?.bind Mark.directive? = none := by
  cases event with
  | word here before next =>
      cases hKeyword : here.symbol.isKeyword <;> simp [mark?, hKeyword, Mark.directive?]
  | _ => rfl

/-- What an event marks is found among the marks of its text. -/
theorem filterMap_readEvents {α : Type} {find? : Event → Option α} {pick? : Mark → Option α}
    (hFind : ∀ event : Event, find? event = event.mark?.bind pick?) (size : Nat)
    (tokens : List Token) :
    (readEvents size tokens).filterMap find? = (lexis.marks size [] tokens).filterMap pick? := by
  have hMarks : (readEvents size tokens).filterMap Event.mark? = lexis.marks size [] tokens := by
    rw [readEvents_eq_upcoming]
    exact (Reader.guides size).marks_eq ⟨rfl, rfl⟩
  rw [← hMarks, List.filterMap_filterMap]
  exact List.filterMap_congr fun event _ => hFind event

end HdlIndex.Vhdl

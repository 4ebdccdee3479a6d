import HdlIndex.Proofs.Token.LookAhead
import HdlIndex.Proofs.Verilog.EnclosedList
import HdlIndex.Proofs.Verilog.WordReading

/-! The order of the words of a reading: a reserved word that was seen ahead of time is the word
that comes next. -/
namespace HdlIndex.Verilog

/-- The word that an event is. -/
def Event.word? : Event → Option Lexeme
  | .word here _ => some here
  | _ => none

/-- The first word of the events. -/
def firstWord? (events : List Event) : Option Lexeme := events.findSome? Event.word?

/-- A reserved word that is seen behind a word comes next. -/
def Heeds : List Event → Prop
  | [] => True
  | .word _ next :: events =>
    (∀ lexeme ∈ next, lexeme.symbol.isKeyword = true → firstWord? events = some lexeme) ∧
      Heeds events
  | _ :: events => Heeds events

/-- Events that heed what comes next do so from any of them on. -/
theorem Heeds.of_append {events others : List Event} (h : Heeds (events ++ others)) :
    Heeds others := by
  induction events with
  | nil => exact h
  | cons event events ih =>
      cases event with
      | word here next => exact ih h.2
      | _ => exact ih h

/-- Layout hides no word. -/
theorem firstWord?_append_of_isLayout {layout events : List Event}
    (h : ∀ event ∈ layout, event.IsLayout) : firstWord? (layout ++ events) = firstWord? events := by
  induction layout with
  | nil => rfl
  | cons event layout ih =>
      rw [List.forall_mem_cons] at h
      have hEvent : event.word? = none := by
        cases event with
        | word here next => exact h.1.elim
        | _ => rfl
      rw [List.cons_append, firstWord?, List.findSome?_cons, hEvent]
      exact ih h.2

/-- A reserved word opens no comment, string or directive, and it is not the sentinel. -/
theorem isPlainText_of_isKeyword {text : String} (h : (Symbol.ofText text).isKeyword = true) :
    isPlainText text = true := by
  have hEvery : ∀ word ∈ Keyword.every, isPlainText word.text = true := by decide +kernel
  cases hSymbol : Symbol.ofText text with
  | keyword word =>
      obtain rfl : text = word.text := Symbol.eq_of_spelling? (by rw [hSymbol]; rfl)
      exact hEvery word (by cases word <;> decide)
  | _ =>
      rw [hSymbol] at h
      cases h

namespace Reader

variable {reader : Reader} {token : Token} {tokens rest : List Token} {closer : Option String}

/-- A reserved word that is seen ahead comes next. -/
theorem firstWord?_upcoming (size : Nat) (hMode : reader.mode.resumes? = some closer)
    (hNext : Token.nextSignificant comments closer tokens = some token)
    (hKeyword : (Symbol.ofText token.text).isKeyword = true) :
    firstWord? (reader.upcoming size tokens) = some (.ofToken token) := by
  obtain ⟨lead, later, rfl, hPass, hBlank, -⟩ := Token.exists_of_nextSignificant hNext
  obtain ⟨hAfter, hLayout⟩ := readOver_of_passOver (token :: later) hMode hPass
  have hCode : (reader.readOver lead (token :: later)).mode = .code := by
    cases hCase : (reader.readOver lead (token :: later)).mode <;> rw [hCase] at hAfter <;> first
      | rfl
      | cases hAfter
  rw [isReader.upcoming_append, firstWord?_append_of_isLayout hLayout, isReader.upcoming_eq,
    (read_word hCode (isPlainText_of_isKeyword hKeyword) hBlank later).2]
  rfl

/-- A reader that sees a keyword ahead comes to that keyword as its next word. What it sees besides
keywords may be the start of a directive, which it then passes over. -/
theorem heeds_upcoming (size : Nat) (reader : Reader) (tokens : List Token) :
    Heeds (reader.upcoming size tokens) := by
  induction tokens generalizing reader with
  | nil =>
      rw [upcoming, readAll, finish]
      split <;> exact trivial
  | cons token rest ih =>
      obtain ⟨events, after, hTakes, hUpcoming⟩ := reader.upcoming_cons size token rest
      rw [hUpcoming]
      cases hTakes with
      | word hCode hBlank hSentinel hAfter =>
          refine ⟨fun lexeme hNext hKeyword => ?_, ih after⟩
          obtain ⟨next, hSeen, rfl⟩ := Option.map_eq_some_iff.1 hNext
          exact firstWord?_upcoming size (by rw [hAfter]; rfl) hSeen hKeyword
      | _ => exact ih after

end Reader

theorem heeds_readEvents (size : Nat) (tokens : List Token) : Heeds (readEvents size tokens) :=
  Reader.heeds_upcoming size {} tokens

end HdlIndex.Verilog

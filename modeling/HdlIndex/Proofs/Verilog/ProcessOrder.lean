import HdlIndex.Proofs.Symbols.Ledger
import HdlIndex.Proofs.Verilog.Turns
import HdlIndex.Proofs.Verilog.ReadingWords
import HdlIndex.Verilog.Scan

/-! The always blocks of a walk, event by event: how the ledger changes, and where its blocks stand
in the text. A block begins and ends with a word that is read, so it is enough that the words of a
reading follow each other. -/
namespace HdlIndex.Verilog

/-- From a byte offset on, the words follow each other up to another offset. -/
def Follows : Nat → List Event → Nat → Prop
  | offset, [], stop => offset ≤ stop
  | offset, .word here _ :: events, stop =>
    offset ≤ here.span.start ∧ here.span.start < here.span.stop ∧
    Follows here.span.stop events stop
  | offset, _ :: events, stop => Follows offset events stop

/-- Events that follow an offset follow every earlier one. -/
theorem Follows.mono {offset later stop : Nat} {events : List Event} (h : Follows later events stop)
    (hLe : offset ≤ later) : Follows offset events stop := by
  induction events with
  | nil => exact hLe.trans h
  | cons event events ih =>
      cases event with
      | word here next => exact ⟨hLe.trans h.1, h.2⟩
      | _ => exact ih h

/-- Words have text, and they follow each other as the tokens do. -/
theorem Reader.follows_upcoming {reader : Reader} {tokens : List Token} (size : Nat)
    {offset stop : Nat} (hContiguous : Contiguous offset tokens stop)
    (hTokens : ∀ token ∈ tokens, token.isSentinel = false →
      token.span.stop = token.span.start + token.text.utf8ByteSize) :
    Follows offset (reader.upcoming size tokens) stop := by
  induction tokens generalizing reader offset with
  | nil =>
      have hEnd : offset ≤ stop := Nat.le_of_eq hContiguous
      rw [upcoming, readAll, finish]
      split <;> exact hEnd
  | cons token rest ih =>
      obtain ⟨hStart, hStop, hRest⟩ := hContiguous
      rw [List.forall_mem_cons] at hTokens
      obtain ⟨events, after, hTakes, hUpcoming⟩ := reader.upcoming_cons size token rest
      rw [hUpcoming]
      have hAll : Follows token.span.stop (after.upcoming size rest) stop := ih hRest hTokens.2
      have hFrom := hAll.mono hStop
      cases hTakes with
      | word hCode hBlank hSentinel hAfter =>
          have hSize : token.text.utf8ByteSize ≠ 0 := by
            intro hEmpty
            rw [String.utf8ByteSize_eq_zero_iff] at hEmpty
            simp [Token.isBlank, hEmpty] at hBlank
          have hCovers := hTokens.1 hSentinel
          refine ⟨hStart.ge, ?_, hAll⟩
          show token.span.start < token.span.stop
          omega
      | _ => exact hFrom

/-- The words of a text follow each other up to where reading ended. -/
theorem follows_readEvents (limit : Option Nat) (text : String) (size : Nat) :
    Follows 0 (readEvents size (tokens limit text).list) (tokens limit text).scanned := by
  rw [readEvents_eq_upcoming]
  refine Reader.follows_upcoming size (tokenize_contiguous ..) fun token hToken hSentinel => ?_
  rcases tokenize_standsIn delimiters limit true text token hToken with hStands | ⟨-, rfl⟩
  · exact (standsIn_inherited _).stop_eq hStands
  · simp [Token.isSentinel, Token.sentinel, Span.empty, Span.isEmpty] at hSentinel

namespace Walk

variable {walk other : Walk} {here : Lexeme} {events : List Event} {offset stop size : Nat}

/-- The ledgers in front of the events and behind each of them. -/
def ledgers : Walk → List Event → List Ledger
  | walk, [] => [walk.ledger]
  | walk, event :: events => walk.ledger :: ledgers (walk.step event) events

theorem Keeps.ledger (h : walk.Keeps other) : other.ledger = walk.ledger := by
  rw [Walk.ledger, h.current, h.processes, Walk.ledger]

/-- Reading a word is a step of the ledger. -/
theorem Turn.ledgerStep (h : walk.Turn here other) : Ledger.Step walk.ledger other.ledger := by
  cases h with
  | keeps h => exact h.ledger ▸ .refl walk.ledger
  | opens h hOpens =>
      rw [ledger, ledger, h, hOpens.current, hOpens.processes]
      exact .opens _ hOpens.fresh
  | grows h hGrows =>
      rw [ledger, ledger, h, hGrows.current, hGrows.processes]
      exact .grows _ _ hGrows.continues
  | closes h hCloses =>
      rw [ledger, ledger, h, hCloses.current, hCloses.processes, Array.toList_push]
      exact .closes _ _ _

theorem absorb_ledger (walk : Walk) (token : Token) :
    Walk.ledger { walk with place := walk.place.absorb token } = walk.ledger := by
  rw [ledger, process?_absorb, ledger]

/-- One event opens a process, closes it or leaves the ledger alone, and keeps the place sound. -/
theorem step_ledger (h : walk.place.Sound) (event : Event) :
    Ledger.Step walk.ledger (walk.step event).ledger ∧ (walk.step event).place.Sound := by
  cases event with
  | comment span => exact ⟨.refl walk.ledger, h⟩
  | directive span => exact ⟨.refl walk.ledger, h⟩
  | filler token =>
      have hSame : (walk.step (.filler token)).ledger = walk.ledger := walk.absorb_ledger token
      exact ⟨hSame ▸ .refl walk.ledger, sound_absorb h token⟩
  | word here next =>
      have hTurn : walk.Turn here (walk.readWord here next) := Turn.readWord h
      exact ⟨hTurn.ledgerStep, hTurn.sound⟩
  | ended offset =>
      have hKeeps : walk.Keeps (walk.flushAt offset) := Keeps.flushAt h offset
      exact ⟨hKeeps.ledger ▸ .refl walk.ledger, hKeeps.sound⟩

/-- So the ledgers along a run form a chain of steps. -/
theorem isChain_ledgers (h : walk.place.Sound) (events : List Event) :
    (walk.ledgers events).IsChain Ledger.Step := by
  induction events generalizing walk with
  | nil => exact .singleton _
  | cons event events ih =>
      obtain ⟨hStep, hSound⟩ := step_ledger h event
      have hRest := ih hSound
      cases events with
      | nil => exact .cons_cons hStep hRest
      | cons second events => exact .cons_cons hStep hRest

/-- The last of the ledgers is that of the walk the run ends in. -/
theorem getLast?_ledgers (walk : Walk) (events : List Event) :
    (walk.ledgers events).getLast? = some (walk.run events).ledger := by
  induction events generalizing walk with
  | nil => rfl
  | cons event events ih =>
      have hRest := ih (walk.step event)
      rw [ledgers, List.getLast?_cons, hRest]
      rfl

/-- In front of a byte offset the blocks are in order. -/
structure Ordered (offset : Nat) (walk : Walk) : Prop where
  ledger : walk.ledger.Ordered offset
  sound : walk.place.Sound

theorem Ordered.keeps (h : walk.Ordered offset) (hKeeps : walk.Keeps other) :
    other.Ordered offset :=
  ⟨hKeeps.ledger ▸ h.ledger, hKeeps.sound⟩

/-- Behind a word the walk is in order up to the word's end. -/
theorem Turn.ordered (h : walk.Turn here other) (hWalk : walk.Ordered offset)
    (hBehind : offset ≤ here.span.start) (hOrder : here.span.start < here.span.stop) :
    other.Ordered here.span.stop := by
  have hLater : offset ≤ here.span.stop := hBehind.trans hOrder.le
  have hLedger := hWalk.ledger
  refine ⟨?_, h.sound⟩
  cases h with
  | keeps h => exact h.ledger ▸ hLedger.advance hLater
  | opens h hOpens =>
      rw [Walk.ledger, h] at hLedger
      rw [Walk.ledger, hOpens.current, hOpens.processes]
      refine hLedger.opens hOpens.fresh (hOpens.start ▸ hOrder) hLater fun block hMem => ?_
      rw [hOpens.start]
      exact (hLedger.ended block hMem).2.trans hBehind
  | grows h hGrows =>
      rw [Walk.ledger, h] at hLedger
      rw [Walk.ledger, hGrows.current, hGrows.processes]
      exact hLedger.grows hGrows.continues hBehind hOrder
  | closes h hCloses =>
      rw [Walk.ledger, h] at hLedger
      rw [Walk.ledger, hCloses.current, hCloses.processes, Array.toList_push]
      exact hLedger.closes hLater

/-- Words that follow each other lead the walk in order to where they end. -/
theorem Ordered.run (h : walk.Ordered offset) (hFollows : Follows offset events stop) :
    (walk.run events).Ordered stop := by
  induction events generalizing walk offset with
  | nil => exact ⟨h.ledger.advance hFollows, h.sound⟩
  | cons event events ih =>
      cases event with
      | comment span => exact ih h hFollows
      | directive span => exact ih h hFollows
      | filler token =>
          exact ih ⟨walk.absorb_ledger token ▸ h.ledger, sound_absorb h.sound token⟩ hFollows
      | word here next =>
          obtain ⟨hBehind, hOrder, hRest⟩ := hFollows
          exact ih (Turn.ordered (Turn.readWord h.sound) h hBehind hOrder) hRest
      | ended place => exact ih (h.keeps (Keeps.flushAt h.sound place)) hFollows

theorem ordered_start (region : Region) : (Walk.start region).Ordered 0 := by
  cases region <;> exact ⟨.empty 0, trivial⟩

/-- The end of the text closes what is open. -/
theorem Ordered.finish (h : walk.Ordered offset) (hSize : offset ≤ size) :
    Ledger.Ordered size ⟨none, (walk.finish size).found.processes.toList⟩ ∧
    Ledger.Step walk.ledger ⟨none, (walk.finish size).found.processes.toList⟩ := by
  have hKeeps : walk.Keeps (walk.flushAt size) := Keeps.flushAt h.sound size
  have hLedger := h.ledger
  rw [Walk.finish]
  rw [hKeeps.current]
  cases hOpen : walk.place.process? with
  | none =>
      rw [Walk.ledger, hOpen] at hLedger ⊢
      rw [hKeeps.processes]
      exact ⟨hLedger.advance hSize, .idle _⟩
  | some process =>
      have hClosed : ((walk.flushAt size).commitProcess process size).found.processes.toList =
          walk.found.processes.toList ++ [process.close size] := by
        rw [← hKeeps.processes]
        simp [commitProcess, collect, note]
      rw [hClosed]
      rw [Walk.ledger, hOpen] at hLedger ⊢
      exact ⟨hLedger.closes hSize, .closes process _ size⟩

end Walk

end HdlIndex.Verilog

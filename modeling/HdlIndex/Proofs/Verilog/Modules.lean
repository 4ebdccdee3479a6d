import HdlIndex.Proofs.Symbols.Moved
import HdlIndex.Proofs.Verilog.Alike
import HdlIndex.Proofs.Verilog.ElseIf
import HdlIndex.Proofs.Verilog.EnclosedList
import HdlIndex.Proofs.Verilog.LookedUpPorts
import HdlIndex.Proofs.Verilog.Truncated
import HdlIndex.Proofs.Verilog.UnitBoundary

/-! Modules one behind another. A text in front of another one is read as it is alone, but for the
word that is seen ahead of its last word, and a walk that stands between modules where the texts
meet does not ask for that word. So where one text ends between modules, another text behind it is
read as it is alone. Its parameters are added to those of the first text, and so are its ports and
objects as long as no declaration in one of its modules looks up a port of the first text. A
declaration that does so changes that port, and no other row of the first text. -/
namespace HdlIndex.Verilog

section Reading

open String (utf8Len)

/-- The event with another word ahead. -/
def Event.ahead (next : Option Lexeme) : Event → Event
  | .word here _ => .word here next
  | event => event

section Tokens

variable {text other : String}

/-- Behind a text that ends with a new-line the tokens of another text are its own, but for their
places. -/
theorem tokens_append {first : List Token} (h : SplitsUpTo delimiters 0 text.toList first false)
    (hLine : text.toList.getLast? = some '\n') :
    (tokens none (text ++ other)).list =
      first ++ (tokens none other).list.map (·.moved (text.utf8ByteSize + ·)) := by
  obtain ⟨second, opened, hSecond⟩ := SplitsUpTo.total delimiters 0 other.toList
  have hSeam : Seam text.toList other.toList := .of_newline hLine _
  have hSize : 0 + utf8Len text.toList = text.utf8ByteSize := by
    rw [Nat.zero_add, String.utf8Len_toList]
  have hBoth := h.append delimiters_areBroken hSeam (by simp) (hSecond.shifted _)
  rw [← String.toList_append, hSize] at hBoth
  rw [(list_tokens hBoth).1, (list_tokens hSecond).1, List.map_append, String.utf8ByteSize_append,
    List.append_assoc]
  rfl

end Tokens

variable {walk : Walk} {reader : Reader} {token : Token} {tokens rest rest' : List Token}

namespace Reader

/-- What is ahead of a token is handed on with a word. -/
theorem emitted_ahead (reader : Reader) (token : Token) (rest rest' : List Token) :
    reader.emitted token rest' = (reader.emitted token rest).map
      (·.ahead ((Token.nextSignificant comments none rest').map .ofToken)) := by
  rw [emitted, emitted, read, read]
  cases reader.forget.mode with
  | code =>
      dsimp only
      rw [readCode, readCode]
      repeat' split
      all_goals rfl
  | lineComment start =>
      dsimp only
      split <;> rfl
  | blockComment start =>
      dsimp only
      split <;> rfl
  | directive start =>
      dsimp only
      split <;> rfl
  | string => rfl

/-- Behind a new-line outside of comments and strings a text is read as it is alone. -/
theorem upcoming_behind_newline {move : Nat → Nat} (hText : token.text = "\n")
    (hCode : (reader.read token rest).mode = .code)
    (hTokens : ∀ token ∈ tokens, TokenAll (·.IsRigid move) token) (size : Nat) :
    (reader.read token rest).upcoming (move size) (tokens.map (·.moved move)) =
      (upcoming size {} tokens).map (·.moved move) := by
  have hFresh : Matches move {} (reader.read token rest).forget :=
    { mode := hCode
      escaped := by
        show decide (token.text.toList.getLast? = some '\\') = false
        rw [hText]
        rfl
      events := by simp [forget] }
  exact hFresh.upcoming_eq size hTokens

end Reader

namespace Walk

/-- Layout leads neither to where modules meet nor away from there. -/
theorem place_of_layout {events : List Event} (hEvents : ∀ event ∈ events, event.IsLayout) :
    (walk.run events).place = .moduleContext ↔ walk.place = .moduleContext := by
  induction events generalizing walk with
  | nil => rfl
  | cons event events ih =>
      rw [List.forall_mem_cons] at hEvents
      apply (ih hEvents.2).trans
      cases event with
      | comment span => rfl
      | filler token =>
          rw [step]
          cases walk.place <;> simp [Place.absorb]
      | _ => exact hEvents.1.elim

/-- A word behind which the walk stands between modules is taken alike whatever is ahead of it, and
so is every other word, as it sees the same ahead. -/
theorem run_emitted_ahead
    (hPlace : (walk.run (reader.emittedOver (token :: tokens) rest)).place = .moduleContext) :
    walk.run (reader.emitted token (tokens ++ rest')) =
      walk.run (reader.emitted token (tokens ++ rest)) := by
  rw [reader.emitted_ahead token (tokens ++ rest)]
  cases hPass : Token.passOver comments none tokens with
  | none =>
      rw [Token.nextSignificant_append_of_not_passOver hPass,
        ← Token.nextSignificant_append_of_not_passOver hPass rest, ← reader.emitted_ahead]
  | some after =>
      rw [Reader.emittedOver, run_append] at hPlace
      have hTakes := reader.takes token (tokens ++ rest)
      generalize reader.read token (tokens ++ rest) = later at hTakes hPlace
      generalize reader.emitted token (tokens ++ rest) = events at hTakes hPlace
      cases hTakes with
      | word hMode hBlank hSentinel hAfter =>
          have hCode : later.mode.resumes? = some none := by rw [hAfter]; rfl
          obtain ⟨-, hLayout⟩ := Reader.readOver_of_passOver rest hCode hPass
          exact readWord_next ((place_of_layout hLayout).1 hPlace)
      | _ => rfl

/-- A walk that stands between modules behind a text stands there if another text follows. -/
theorem run_over_ahead
    (hPlace : (walk.run (reader.emittedOver tokens rest)).place = .moduleContext) :
    walk.run (reader.emittedOver tokens rest') = walk.run (reader.emittedOver tokens rest) := by
  induction tokens generalizing walk reader with
  | nil => rfl
  | cons token tokens ih =>
      have hForget : (reader.read token (tokens ++ rest')).forget =
          (reader.read token (tokens ++ rest)).forget :=
        reader.forget_readOver_ahead [token] (tokens ++ rest) (tokens ++ rest')
      have hEmitted : walk.run (reader.emitted token (tokens ++ rest')) =
          walk.run (reader.emitted token (tokens ++ rest)) := run_emitted_ahead hPlace
      rw [Reader.emittedOver, run_append] at hPlace
      rw [Reader.emittedOver, Reader.emittedOver, run_append, run_append, hEmitted,
        Reader.isReader.emittedOver_eq, hForget, ← Reader.isReader.emittedOver_eq, ih hPlace]

end Walk

end Reading

/-- The text is a sequence of whole modules: it ends on a new-line outside of comments, strings and
directives, where the walk stands between modules. -/
structure EndsModule (text : String) : Prop where
  newline : text.toList.getLast? = some '\n'
  code : (Reader.readAll {} (tokens none text).proper).mode = .code
  place : (walkInside .moduleContext text).place = .moduleContext

section Rigid

variable {text : String}

/-- The words of a text are moved as a whole when the text is. -/
theorem tokens_areRigid (text : String) (offset : Nat) :
    ∀ token ∈ (tokens none text).list, TokenAll (·.IsRigid (offset + ·)) token := by
  intro token hMem
  refine ⟨Word.isRigid_absent _ _, Word.isRigid_absent _ _, fun hWord => ?_⟩
  rcases tokenize_standsIn delimiters none true text token hMem with hToken | ⟨-, rfl⟩
  · exact isRigid_of_standsIn hToken offset
  · rw [Token.isSentinel_sentinel] at hWord
    cases hWord

theorem events_areRigid (text : String) (offset : Nat) :
    ∀ event ∈ readEvents text.utf8ByteSize (tokens none text).list,
      event.All (·.IsRigid (offset + ·)) :=
  readEvents_all (tokens_areRigid text offset) (tokenize_contiguous delimiters none true _)
    (tokenize_scanned_le delimiters none true text)
    (Word.isRigid_absent _ _)

end Rigid

namespace EndsModule

variable {text : String}

/-- Nothing is left to be done at the end of a text that ends a module. -/
theorem walkThrough_eq (h : EndsModule text) :
    walkThrough .moduleContext (readEvents text.utf8ByteSize (tokens none text).list)
      text.utf8ByteSize = walkInside .moduleContext text := by
  obtain ⟨lead, last, hSplits, -⟩ := SplitsUpTo.of_newline delimiters_areBroken h.newline 0
  set first := lead ++ [last]
  have hCode := h.code
  have hPlace := h.place
  rw [proper_tokens hSplits, Reader.isReader.readAll_eq_readOver] at hCode
  rw [walkInside_eq hSplits] at hPlace ⊢
  set size := text.utf8ByteSize
  have hMode : (Reader.readOver {} first [.sentinel size]).mode = .code :=
    (congrArg Reader.mode (Reader.forget_readOver_ahead {} first [] [.sentinel size])).trans hCode
  rw [walkThrough, readEvents_eq_upcoming, (list_tokens hSplits).1, Reader.isReader.upcoming_append,
    Reader.upcoming_sentinel hMode, Walk.run_append, Walk.run_over_ahead hPlace]
  generalize (Walk.start .moduleContext).run _ = walk at hPlace
  have hEnd : walk.run [.ended size] = walk := by
    show walk.flushAt size = walk
    rw [Walk.flushAt, hPlace]
  rw [hEnd, Walk.finish_context hPlace]

/-- Behind the events of the first text come those of the second one, but for their places. -/
theorem events_append (h : EndsModule text) (other : String) : ∃ ahead,
    readEvents (text ++ other).utf8ByteSize (tokens none (text ++ other)).list =
        ahead ++ (readEvents other.utf8ByteSize (tokens none other).list).map
          (·.moved (text.utf8ByteSize + ·)) ∧
      (Walk.start .moduleContext).run ahead = walkInside .moduleContext text := by
  obtain ⟨lead, last, hSplits, hText⟩ := SplitsUpTo.of_newline delimiters_areBroken h.newline 0
  have hCode := h.code
  have hPlace := h.place
  rw [proper_tokens hSplits, Reader.isReader.readAll_eq_readOver] at hCode
  rw [walkInside_eq hSplits] at hPlace ⊢
  set rest := (tokens none other).list.map (·.moved (text.utf8ByteSize + ·)) with hRest
  have hMode : (Reader.readOver {} (lead ++ [last]) rest).mode = .code :=
    (congrArg Reader.mode (Reader.forget_readOver_ahead {} _ [] rest)).trans hCode
  refine ⟨Reader.emittedOver {} (lead ++ [last]) rest, ?_, Walk.run_over_ahead hPlace⟩
  rw [Reader.isReader.readOver_append] at hMode
  have hSecond := Reader.upcoming_behind_newline hText hMode
    (tokens_areRigid other text.utf8ByteSize) other.utf8ByteSize
  rw [readEvents_eq_upcoming, readEvents_eq_upcoming, tokens_append hSplits h.newline, ← hRest,
    Reader.isReader.upcoming_append, Reader.isReader.readOver_append, String.utf8ByteSize_append]
  exact congrArg _ hSecond

/-- Behind a module the walk goes on like one that begins there, and adds to what was found. -/
theorem alike_start (h : EndsModule text) (names : List String) :
    Walk.Alike False (Findings.Follows names (walkInside .moduleContext text).found)
      (Walk.start .moduleContext) (walkInside .moduleContext text) := by
  have hStart : Findings.Follows names (walkInside .moduleContext text).found {}
      (walkInside .moduleContext text).found := by
    have hLocated := walkThrough_located .moduleContext none text
    rw [h.walkThrough_eq] at hLocated
    exact .start hLocated.ports.settled hLocated.parameters.settled hLocated.objects.settled
  obtain ⟨ahead, hEvents, hRun⟩ := h.events_append ""
  have hPlace := h.place
  have hClear : (walkInside .moduleContext text).IsClear := by
    rw [← hRun]
    exact Walk.isClear_run (Walk.isClear_start .moduleContext) ahead
  have hChained : (walkInside .moduleContext text).chained = none := by
    have hHeeds := heeds_readEvents (text ++ "").utf8ByteSize (tokens none (text ++ "")).list
    rw [hEvents] at hHeeds
    have hWalk := Walk.isChained_run (.inl (Walk.chained_start .moduleContext)) hHeeds
    rw [hRun] at hWalk
    exact hWalk.none_of_outside (hPlace ▸ rfl)
  exact .between hPlace hClear hChained False.elim hStart

/-- What the walk through both texts finds is what it finds in the second one, behind what it has
found in the first one. -/
theorem follows_append (h : EndsModule text) (other : String) :
    (walkInside .moduleContext text).found.Follows (lookups other)
      ((walkThrough .moduleContext (readEvents other.utf8ByteSize (tokens none other).list)
        other.utf8ByteSize).found.moved (text.utf8ByteSize + ·))
      (walkThrough .moduleContext (readEvents (text ++ other).utf8ByteSize
        (tokens none (text ++ other)).list) (text ++ other).utf8ByteSize).found := by
  obtain ⟨ahead, hEvents, hRun⟩ := h.events_append other
  set move : Nat → Nat := (text.utf8ByteSize + ·)
  set events := readEvents other.utf8ByteSize (tokens none other).list
  have hMove : Monotone move := fun _ _ hLe => Nat.add_le_add_left hLe _
  have hRigid : ∀ event ∈ events ++ [.ended other.utf8ByteSize], event.All (·.IsRigid move) := by
    rw [List.forall_mem_append]
    exact ⟨events_areRigid other _, by simp [Event.All]⟩
  have hStart : (Walk.start .moduleContext).moved move = Walk.start .moduleContext := by
    simp [Walk.moved, Walk.start, Place.ofEntry?, Place.moved, Findings.moved, Words.moved_empty,
      Declarations.moved_empty, ClockedSignals.moved]
  have hMoved : (Walk.start .moduleContext).run (events.map (·.moved move)) =
      ((Walk.start .moduleContext).run events).moved move := by
    rw [← Walk.run_moved (.start .moduleContext) hMove (events_areRigid other _), hStart]
  -- The names that the second text looks up are the same at its other place.
  have hLookups : ∀ item ∈ (Walk.start .moduleContext).flushes
      (events.map (·.moved move) ++ [.ended (move other.utf8ByteSize)]),
      ∀ name ∈ item.lookup?, name ∈ lookups other := by
    have hFlushes := Walk.flushes_moved (.start .moduleContext) hMove hRigid
    rw [hStart, List.map_append] at hFlushes
    intro item hItem name hName
    obtain ⟨own, hOwn, rfl⟩ := List.mem_map.1 (hFlushes ▸ hItem)
    exact List.mem_filterMap.2 ⟨own, hOwn, by simpa using hName⟩
  rw [Walk.flushes_append, List.forall_mem_append] at hLookups
  have hKept := Findings.Follows.isKept (lookups other) (walkInside .moduleContext text).found
  have hAlike := (h.alike_start (lookups other)).run hKept hLookups.1
  have hEnd := hAlike.finish hKept (move other.utf8ByteSize) fun item hItem =>
    hLookups.2 item (by simpa [Walk.flushes] using hItem)
  have hSize : move other.utf8ByteSize = (text ++ other).utf8ByteSize :=
    String.utf8ByteSize_append.symm
  rw [hMoved, Walk.finish_moved hMove, hSize, ← hRun, ← Walk.run_append, ← hEvents] at hEnd
  rw [← hRun]
  exact hEnd.found

end EndsModule

/-- The parameters, ports and objects of a text that ends with a module compose with those of every
other text behind it, as long as that one looks up none of its ports. Parameters always do, objects
stay what they are, and so do the ports that are not looked up. -/
theorem scan_modules {text : String} (h : EndsModule text) (other : String) :
    let first := (scan .moduleContext none text).table
    let second := (scan .moduleContext none other).table
    let both := (scan .moduleContext none (text ++ other)).table
    let behind := Declarations.moved (text.utf8ByteSize + ·)
    both.parameters = first.parameters.followedBy (behind second.parameters) ∧
      first.objects.rows.toList <+: both.objects.rows.toList ∧
      first.ports.KeepsRows (lookups other) both.ports ∧
      ((∀ name ∈ lookups other, first.ports.find? name = none) →
        both.ports = first.ports.followedBy (behind second.ports) ∧
          both.objects = first.objects.followedBy (behind second.objects)) := by
  intro first second both behind
  have hFirst : first.toFindings = (walkInside .moduleContext text).found := by
    rw [← h.walkThrough_eq]
    exact (walkThrough_located .moduleContext none text).align_eq_self
  have hSecond := (walkThrough_located .moduleContext none other).align_eq_self
  have hBoth := (walkThrough_located .moduleContext none (text ++ other)).align_eq_self
  have hFollows := h.follows_append other
  rw [← hFirst, ← hSecond, ← hBoth] at hFollows
  exact ⟨hFollows.parameters, hFollows.objects, hFollows.ports, hFollows.apart⟩

/-- Both modules have a port of one name in their headers, and the second one declares a net. -/
theorem scan_modules_apart :
    let text := "module a(input x); endmodule\n"
    let other := "module b(input x); wire y; endmodule\n"
    let first := (scan .moduleContext none text).table
    let second := (scan .moduleContext none other).table
    let both := (scan .moduleContext none (text ++ other)).table
    EndsModule text ∧ lookups other = ["y"] ∧
      both.ports = first.ports.followedBy (second.ports.moved (text.utf8ByteSize + ·)) ∧
      both.objects = first.objects.followedBy (second.objects.moved (text.utf8ByteSize + ·)) := by
  intro text other first second both
  have hText : EndsModule text := ⟨by decide +kernel, by decide +kernel, by decide +kernel⟩
  have hLookups : lookups other = ["y"] := by decide +kernel
  obtain ⟨-, -, -, hApart⟩ := scan_modules hText other
  refine ⟨hText, hLookups, hApart ?_⟩
  rw [hLookups]
  decide +kernel

/-- The second module declares a net that has the name of a port of the first one. The net is not
recorded, and its range becomes that of the port. -/
theorem scan_modules_sameName :
    let text := "module a(input x); endmodule\n"
    let other := "module b; wire [3:0] x; endmodule\n"
    let first := (scan .moduleContext none text).table
    let second := (scan .moduleContext none other).table
    let both := (scan .moduleContext none (text ++ other)).table
    EndsModule text ∧ EndsModule other ∧
      first.ports.ranges = [""] ∧ both.ports.ranges = ["[3:0]"] ∧
      second.objects.names.map (·.text) = ["x"] ∧ both.objects.names = [] := by
  intro text other first second both
  have hText : EndsModule text := ⟨by decide +kernel, by decide +kernel, by decide +kernel⟩
  have hOther : EndsModule other := ⟨by decide +kernel, by decide +kernel, by decide +kernel⟩
  refine ⟨hText, hOther, ?_⟩
  decide +kernel

end HdlIndex.Verilog

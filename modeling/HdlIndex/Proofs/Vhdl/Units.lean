import HdlIndex.Proofs.Aligned
import HdlIndex.Proofs.Faithful
import HdlIndex.Proofs.Symbols.Moved
import HdlIndex.Proofs.Vhdl.PartReading
import HdlIndex.Proofs.Vhdl.Truncated
import HdlIndex.Proofs.Vhdl.UnitBoundary

/-! Design units compose. In a text that is followed by another one only the word that is seen ahead
of the last word changes, and in the second text only the word before the first word; a walk that
stands between units where the texts meet asks for neither. So the table of both is that of the
first extended by that of the second, whose places are moved behind it. -/
namespace HdlIndex.Vhdl

/-- The event without the words around it. -/
def Event.bare : Event → Event
  | .word here _ _ => .word here none none
  | event => event

theorem Event.bare_ahead (next : Option Lexeme) (event : Event) :
    (event.ahead next).bare = event.bare := by
  cases event <;> rfl

/-- The event is no word. -/
def Event.IsFiller : Event → Prop
  | .word .. => False
  | _ => True

theorem Event.IsLayout.isFiller {event : Event} (h : event.IsLayout) : event.IsFiller := by
  cases event <;> trivial

namespace Reader

variable {reader : Reader} {token : Token} {tokens rest rest' : List Token}

/-- The word passed last is handed on with the next word, and then forgotten. -/
theorem read_before (reader : Reader) (token : Token) (rest : List Token) (before : Option Lexeme) :
    ({ reader with before }.emitted token rest = reader.emitted token rest ∧
        ({ reader with before }.read token rest).forget =
          { reader.read token rest with before }.forget ∧
        ∀ event ∈ reader.emitted token rest, event.IsFiller) ∨
      ∃ here next, reader.emitted token rest = [.word here reader.before next] ∧
        { reader with before }.emitted token rest = [.word here before next] ∧
        ({ reader with before }.read token rest).forget = (reader.read token rest).forget := by
  obtain ⟨mode, passed, last, events⟩ := reader
  cases mode with
  | lineComment start =>
      by_cases hText : token.text = "\n"
      · simp [emitted, read, forget, hText, emit, Event.IsFiller]
      · simp [emitted, read, forget, hText]
  | blockComment start =>
      by_cases hText : token.text = "*/"
      · simp [emitted, read, forget, hText, emit, Event.IsFiller]
      · simp [emitted, read, forget, hText]
  | string => simp [emitted, read, forget, emit, Event.IsFiller]
  | code =>
      have hCharacter : ∀ before' events', isCharacter ⟨.code, passed, before', events'⟩ rest =
          isCharacter ⟨.code, passed, last, events⟩ rest := fun _ _ => rfl
      simp only [emitted, read, forget, readCode, hCharacter before events, hCharacter before #[],
        hCharacter last #[]]
      by_cases hLine : token.text = "--"
      · simp [hLine]
      by_cases hBlock : token.text = "/*"
      · simp [hBlock]
      by_cases hQuote : token.text = "\""
      · simp [hQuote, emit, Event.IsFiller]
      simp only [if_neg hLine, if_neg hBlock, if_neg hQuote]
      by_cases hFiller :
        (isPunctuation token.text && isCharacter ⟨.code, passed, last, events⟩ rest ||
          token.isBlank) = true
      · simp only [if_pos hFiller]
        simp [emit, Event.IsFiller]
      · simp only [if_neg hFiller]
        exact .inr ⟨_, _, rfl, rfl, rfl⟩

/-- What is ahead of a text is seen by none but its words. -/
theorem emittedOver_bare (hTick : leadsTick rest' = leadsTick rest)
    (hCloses : closesCharacter rest' = closesCharacter rest) :
    (reader.emittedOver tokens rest').map Event.bare =
      (reader.emittedOver tokens rest).map Event.bare := by
  induction tokens generalizing reader with
  | nil => rfl
  | cons token tokens ih =>
      have hHere := closesCharacter_append hTick hCloses tokens
      rw [emittedOver, emittedOver, List.map_append, List.map_append,
        emittedOver_congr (reader.forget_read_ahead token hHere),
        ih, emitted_ahead hHere, List.map_map]
      congr 2
      exact funext fun event => event.bare_ahead _

/-- What stands before a text is seen by none but its first word. -/
theorem upcoming_bare (reader : Reader) (before : Option Lexeme) (size : Nat)
    (tokens : List Token) : (upcoming size { reader with before } tokens).map Event.bare =
      (reader.upcoming size tokens).map Event.bare := by
  induction tokens generalizing reader with
  | nil => rfl
  | cons token tokens ih =>
      rw [isReader.upcoming_eq, isReader.upcoming_eq, List.map_append, List.map_append]
      rcases reader.read_before token tokens before with
        ⟨hEmitted, hForget, -⟩ | ⟨here, next, hWord, hEmitted, hForget⟩
      · rw [upcoming_congr hForget, hEmitted, ih]
      · rw [upcoming_congr hForget, hEmitted, hWord]
        rfl

/-- A new-line is read alike whatever is ahead. -/
theorem read_newline (reader : Reader) (hText : token.text = "\n") (rest : List Token) :
    reader.read token rest = reader.read token [] := by
  have hBlank : token.isBlank = true := by simp [Token.isBlank, hText, Text.isAsciiBlank]
  rw [read, read, readCode, readCode]
  simp [hText, hBlank]

theorem emitted_newline (reader : Reader) (hText : token.text = "\n") (rest : List Token) :
    reader.emitted token rest = reader.emitted token [] := by
  rw [emitted, emitted, reader.forget.read_newline hText]

/-- A line break is no word in any mode. -/
theorem filler_newline (reader : Reader) (hText : token.text = "\n") (rest : List Token) :
    ∀ event ∈ reader.emitted token rest, event.IsFiller := by
  have hTakes := reader.takes token rest
  generalize reader.read token rest = later at hTakes
  generalize reader.emitted token rest = events at hTakes
  cases hTakes with
  | word hMode hBlank =>
      simp [Token.isBlank, hText, Text.isAsciiBlank] at hBlank
  | _ => simp [Event.IsFiller]

/-- Outside of comments and strings nothing comes with the end of a text. -/
theorem upcoming_code (hCode : reader.mode = .code) (size : Nat) :
    reader.upcoming size [] = [] := by
  have hMode : reader.forget.mode = .code := hCode
  rw [upcoming, readAll, finish, hMode]
  rfl

/-- Behind a new-line outside of comments and strings a text is read as it is alone, apart from the
word that was passed before. -/
theorem upcoming_behind_newline (move : Nat → Nat) (hText : token.text = "\n")
    (hCode : (reader.read token rest).mode = .code) (size : Nat) (tokens : List Token) :
    upcoming (move size) { reader.read token rest with before := none }
        (tokens.map (·.moved move)) =
      (upcoming size {} tokens).map (·.moved move) := by
  have hFresh : Matches move {} { (reader.read token rest).forget with before := none } :=
    { mode := hCode
      before := rfl
      ticked := by
        show decide (token.text = "'") = false
        simp [hText]
      opens := by
        show (reader.read token rest).opensCharacter = false
        simp [opensCharacter_read, Token.isEmpty, hText]
      events := by simp [forget] }
  exact hFresh.upcoming_eq size tokens

end Reader

namespace Walk

variable {walk : Walk} {reader : Reader} {tokens rest rest' : List Token}

theorem run_append (walk : Walk) (events others : List Event) :
    walk.run (events ++ others) = (walk.run events).run others := List.foldl_append

/-- Only a word leads to where units meet, or away from there. -/
theorem place_of_filler {events : List Event} (hEvents : ∀ event ∈ events, event.IsFiller) :
    (walk.run events).place = .entityContext ↔ walk.place = .entityContext := by
  induction events generalizing walk with
  | nil => rfl
  | cons event events ih =>
      rw [List.forall_mem_cons] at hEvents
      refine (ih hEvents.2).trans ?_
      cases event with
      | comment span => rfl
      | filler token =>
          rw [step]
          cases walk.place <;> simp [Place.absorb]
      | word here before next => exact hEvents.1.elim

/-- Behind a last word nothing is ahead in its own text, whatever is ahead in both texts
together. -/
theorem run_emitted_ahead {token : Token}
    (hCloses : closesCharacter (tokens ++ rest') = closesCharacter (tokens ++ rest))
    (hNone : ∀ closer, ((reader.read token (tokens ++ rest)).readOver tokens rest).mode.resumes? =
      some closer → Token.nextSignificant comments closer rest = none)
    (hPlace : (walk.run (reader.emittedOver (token :: tokens) rest)).place = .entityContext) :
    walk.run (reader.emitted token (tokens ++ rest')) =
      walk.run (reader.emitted token (tokens ++ rest)) := by
  rw [Reader.emitted_ahead hCloses]
  cases hPass : Token.passOver comments none tokens with
  | none =>
      rw [Token.nextSignificant_append_of_not_passOver hPass,
        ← Token.nextSignificant_append_of_not_passOver hPass rest, ← Reader.emitted_ahead rfl]
  | some after =>
      rw [Reader.emittedOver, run_append] at hPlace
      have hTakes := reader.takes token (tokens ++ rest)
      generalize reader.read token (tokens ++ rest) = later at hTakes hNone hPlace
      generalize reader.emitted token (tokens ++ rest) = events at hTakes hPlace
      cases hTakes with
      | word hMode hBlank hText hAfter =>
          have hCode : later.mode.resumes? = some none := by rw [hAfter]; rfl
          obtain ⟨hLater, -, hLayout⟩ := Reader.readOver_of_passOver rest hCode hPass
          have hAhead : Token.nextSignificant comments none (tokens ++ rest) = none := by
            rw [Token.nextSignificant_append_of_passOver hPass]
            exact hNone after hLater
          have hHere := (place_of_filler fun event hMem => (hLayout event hMem).isFiller).1 hPlace
          rw [hAhead] at hHere ⊢
          exact read_next hHere
      | _ => rfl

/-- A walk that stands between units behind a text stands there if another text follows. -/
theorem run_over_ahead (hTick : leadsTick rest' = leadsTick rest)
    (hCloses : closesCharacter rest' = closesCharacter rest)
    (hNone : ∀ closer, (reader.readOver tokens rest).mode.resumes? = some closer →
      Token.nextSignificant comments closer rest = none)
    (hPlace : (walk.run (reader.emittedOver tokens rest)).place = .entityContext) :
    walk.run (reader.emittedOver tokens rest') = walk.run (reader.emittedOver tokens rest) := by
  induction tokens generalizing walk reader with
  | nil => rfl
  | cons token tokens ih =>
      have hHere := Reader.closesCharacter_append hTick hCloses tokens
      have hForget := reader.forget_read_ahead token hHere
      have hEmitted := run_emitted_ahead hHere hNone hPlace
      rw [Reader.emittedOver, run_append] at hPlace
      rw [Reader.emittedOver, Reader.emittedOver, run_append, run_append, hEmitted,
        Reader.emittedOver_congr hForget,
        ih hNone hPlace]

/-- Between units the word passed last is not asked for. -/
theorem run_upcoming_before (before : Option Lexeme) (size : Nat) (tokens : List Token)
    (hPlace : walk.place = .entityContext) :
    walk.run ({ reader with before }.upcoming size tokens) =
      walk.run (reader.upcoming size tokens) := by
  induction tokens generalizing walk reader with
  | nil => rfl
  | cons token tokens ih =>
      rw [Reader.isReader.upcoming_eq, Reader.isReader.upcoming_eq, run_append, run_append]
      rcases reader.read_before token tokens before with
        ⟨hEmitted, hForget, hFiller⟩ | ⟨here, next, hWord, hEmitted, hForget⟩
      · rw [Reader.upcoming_congr hForget, hEmitted]
        exact ih ((place_of_filler hFiller).2 hPlace)
      · have hStep : walk.run [.word here before next] =
            walk.run [.word here reader.before next] := by
          rw [run, List.foldl_cons, List.foldl_nil, run, List.foldl_cons,
            List.foldl_nil, step, step, read, read]
          have hNoted : (walk.note (.visited walk.place.region.name here.text)).place =
              .entityContext := hPlace
          rw [hNoted]
        rw [Reader.upcoming_congr hForget, hEmitted, hWord, hStep]

end Walk

section Composing

open String (utf8Len)

/-- The table of a text at another place. -/
def Table.moved (move : Nat → Nat) (table : Table) : Table :=
  { table with
    toFindings := table.toFindings.moved move
    comments := table.comments.moved move
    keywords := table.keywords.map (·.moved move) }

/-- A table, then that of a text behind it. The generic clause closed last is kept, and what is left
to be remarked at the end is what the second text leaves. -/
def Table.followedBy (table other : Table) : Table where
  toFindings := table.toFindings.followedBy other.toFindings
  genericDefinition :=
    if other.genericClause.isSome then other.genericDefinition else table.genericDefinition
  comments := table.comments.followedBy other.comments
  keywords := table.keywords ++ other.keywords
  diagnostics := other.diagnostics

/-- The walk through a text that starts between units, in front of its end. -/
def Walk.through (text : String) : Walk :=
  (Walk.start .entityContext).run (readEvents text.utf8ByteSize (tokens none text).list)

/-- The text ends behind a design unit: on a new-line outside of comments and strings, where the
walk stands between units and no label is pending. -/
structure EndsUnit (text : String) : Prop where
  newline : text.toList.getLast? = some '\n'
  code : (Reader.readAll {} (tokens none text).list).mode = .code
  place : (Walk.through text).place = .entityContext
  label : (Walk.through text).label = none

section Reading

variable {reader : Reader} {token : Token} {lead rest rest' : List Token} {text other : String}

/-- Folding keeps the new-line at the end of a text. -/
theorem newline_foldCase (hLine : text.toList.getLast? = some '\n') :
    (Text.foldCase text).toList.getLast? = some '\n' := by
  rw [Text.toList_foldCase, List.getLast?_map, hLine]
  rfl

/-- Behind a text that ends with a new-line the tokens of another text are its own, but for their
places. -/
theorem tokens_append {first : List Token}
    (h : SplitsUpTo delimiters 0 (Text.foldCase text).toList first false)
    (hLine : text.toList.getLast? = some '\n') :
    (tokens none (text ++ other)).list =
      first ++ (tokens none other).list.map (·.moved (text.utf8ByteSize + ·)) := by
  obtain ⟨second, opened, hSecond⟩ := SplitsUpTo.total delimiters 0 (Text.foldCase other).toList
  have hSeam : Seam (Text.foldCase text).toList (Text.foldCase other).toList :=
    .of_newline (newline_foldCase hLine) _
  have hSize : 0 + utf8Len (Text.foldCase text).toList = text.utf8ByteSize := by
    rw [Nat.zero_add, String.utf8Len_toList, Text.utf8ByteSize_foldCase]
  have hBoth := h.append delimiters_areBroken hSeam (by simp) (hSecond.shifted _)
  rw [← String.toList_append, ← Text.foldCase_append, hSize] at hBoth
  rw [list_tokens hBoth, list_tokens hSecond, List.map_append, String.utf8ByteSize_append]
  cases opened <;>
    simp [SplitsUpTo.closing, Token.moved, Token.placed, Span.moved]

section Ending

variable {last : Token} (hText : last.text = "\n")

include hText

/-- A new-line is no part of a character literal, whatever follows it. -/
theorem closesCharacter_newline (rest : List Token) :
    closesCharacter (last :: rest) = closesCharacter [last] := by
  have hEmpty : last.isEmpty = false := by
    rw [Token.isEmpty, hText]
    rfl
  rw [closesCharacter_cons, closesCharacter_cons, hEmpty, Bool.false_and, Bool.false_and]

theorem nextSignificant_newline (closer : Option String) :
    Token.nextSignificant comments closer [last] = none := by
  cases closer with
  | none => simp [Token.nextSignificant, Token.isBlank, hText, Text.isAsciiBlank]
  | some closer => simp [Token.nextSignificant]

omit hText

/-- Where the last token leaves the reader in code, it adds the last events of a text. -/
theorem readEvents_concat (size : Nat)
    (hCode : ((Reader.readOver {} lead [last]).read last []).mode = .code) :
    readEvents size (lead ++ [last]) =
      Reader.emittedOver {} lead [last] ++ (Reader.readOver {} lead [last]).emitted last [] := by
  rw [readEvents_eq_upcoming, Reader.isReader.upcoming_append, Reader.isReader.upcoming_eq,
    Reader.upcoming_code hCode, List.append_nil]

end Ending

/-- Behind a text that ends a unit the events of another text are its own, but for their places.
What a walk makes of both is what it makes of one after the other. -/
theorem readEvents_append (h : EndsUnit text) :
    let events := readEvents (text ++ other).utf8ByteSize (tokens none (text ++ other)).list
    let first := readEvents text.utf8ByteSize (tokens none text).list
    let second := (readEvents other.utf8ByteSize (tokens none other).list).map
      (·.moved (text.utf8ByteSize + ·))
    (Walk.start .entityContext).run events = (Walk.through text).run second ∧
      events.map Event.bare = (first ++ second).map Event.bare := by
  intro events first second
  obtain ⟨lead, last, hSplits, hText⟩ :=
    SplitsUpTo.of_newline delimiters_areBroken (newline_foldCase h.newline) 0
  have hTokens : (tokens none text).list = lead ++ [last] := by
    rw [list_tokens hSplits]
    exact List.append_nil _
  have hBoth : (tokens none (text ++ other)).list =
      lead ++ last :: (tokens none other).list.map (·.moved (text.utf8ByteSize + ·)) := by
    rw [tokens_append hSplits h.newline, List.append_assoc]
    rfl
  set rest := (tokens none other).list.map (·.moved (text.utf8ByteSize + ·)) with hRest
  -- What a reader is behind the words of the first text, and behind its new-line.
  set near := Reader.readOver {} lead [last] with hNear
  have hCode : (near.read last []).mode = .code := by
    have hEnd := h.code
    rw [hTokens, Reader.isReader.readAll_eq_readOver, Reader.isReader.readOver_append] at hEnd
    exact hEnd
  have hFirst : first = Reader.emittedOver {} lead [last] ++ near.emitted last [] := by
    rw [← readEvents_concat text.utf8ByteSize hCode, ← hTokens]
  have hSecond : second = Reader.upcoming (text ++ other).utf8ByteSize
      { near.read last [] with before := none } rest := by
    show (readEvents _ _).map _ = _
    rw [readEvents_eq_upcoming, String.utf8ByteSize_append]
    exact (Reader.upcoming_behind_newline _ hText hCode _ _).symm
  have hThrough : Walk.through text = ((Walk.start .entityContext).run
      (Reader.emittedOver {} lead [last])).run (near.emitted last []) := by
    rw [← Walk.run_append, ← hFirst]
    rfl
  have hPlace : ((Walk.start .entityContext).run (Reader.emittedOver {} lead [last])).place =
      .entityContext :=
    (Walk.place_of_filler (near.filler_newline hText [])).1 (hThrough ▸ h.place)
  -- In front of the new-line nothing is seen of what stands behind it.
  have hTick : leadsTick (last :: rest) = leadsTick [last] := rfl
  have hCloses := closesCharacter_newline hText rest
  have hRun := Walk.run_over_ahead hTick hCloses
    (fun closer _ => nextSignificant_newline hText closer) hPlace
  have hFar := Reader.forget_readOver_ahead hTick hCloses {} lead
  have hEvents : events = Reader.emittedOver {} lead (last :: rest) ++ (near.emitted last [] ++
      (near.read last []).upcoming (text ++ other).utf8ByteSize rest) := by
    show readEvents _ _ = _
    rw [readEvents_eq_upcoming, hBoth, Reader.isReader.upcoming_append, Reader.upcoming_congr hFar,
      Reader.isReader.upcoming_eq, near.emitted_newline hText, near.read_newline hText]
  constructor
  · rw [hEvents, Walk.run_append, hRun, Walk.run_append, ← hThrough, hSecond]
    exact (Walk.run_upcoming_before none _ _ h.place).symm
  · rw [hEvents, hFirst, hSecond]
    simp only [List.map_append, List.append_assoc, Reader.emittedOver_bare hTick hCloses,
      Reader.upcoming_bare]

end Reading

section Walking

variable {text other : String} {found base : Findings} {move : Nat → Nat}

/-- What is read of a text is moved as a whole when the text is. -/
theorem events_areRigid (text : String) (offset : Nat) :
    ∀ event ∈ readEvents text.utf8ByteSize (tokens none text).list,
      event.All (·.IsRigid (offset + ·)) := by
  have hScanned := scanned_tokens text
  refine readEvents_all (isRigid_inherited _) (fun token hMem => ?_)
    (tokenize_contiguous delimiters none false _) hScanned.le
    ⟨rfl, fun count _ => (Nat.add_assoc _ _ _).symm⟩
  have hStands := tokenize_standsIn delimiters none false (Text.foldCase text) token hMem
  exact isRigid_of_standsIn (by simpa using hStands) offset

/-- Where no name waits for its attributes, what was found is not changed by what is to be found. -/
theorem Findings.followedBy_empty (h : found.Settled none) (move : Nat → Nat) :
    found.followedBy (Findings.moved move {}) = found := by
  have hLists := h.pending
  simp only [Findings.lists, List.forall_mem_cons] at hLists
  obtain ⟨hPorts, hGenerics, hObjects, hComponentPorts, hComponentGenerics, hParameters, -⟩ :=
    hLists
  have hPackages : (if found.packages.isEmpty then {} else found.packages) = found.packages := by
    obtain ⟨⟨entries⟩⟩ := found.packages
    cases entries <;> simp [Words.isEmpty]
  simp [followedBy, moved, Words.moved_empty, Declarations.moved_empty,
    Words.followedBy_empty, hPackages, Declarations.followedBy_empty hPorts,
    Declarations.followedBy_empty hGenerics, Declarations.followedBy_empty hObjects,
    Declarations.followedBy_empty hComponentPorts, Declarations.followedBy_empty hComponentGenerics,
    Declarations.followedBy_empty hParameters, ClockedSignals.followedBy, ClockedSignals.moved]

theorem Findings.align_within (embedding : Embedding) (found : Findings) :
    (found.within embedding).align = found.align.within embedding := by
  simp [align, within, moved, followedBy, Declarations.align_followedBy, Declarations.align_moved]

/-- Behind a unit the walk stands as at the beginning of a text, but for what was found. -/
theorem EndsUnit.through_eq (h : EndsUnit text) (move : Nat → Nat) :
    Walk.through text = (Walk.start .entityContext).within
      ⟨move, (Walk.through text).found, (Walk.through text).notes⟩ := by
  have hSettled := Walk.settled_run (Walk.settled_start .entityContext)
    (readEvents text.utf8ByteSize (tokens none text).list)
  have hStart : (Walk.start .entityContext).IsClear := fun _ => rfl
  have hClear := Walk.isClear_run hStart (readEvents text.utf8ByteSize (tokens none text).list)
  have hPlace := h.place
  have hLabel := h.label
  rw [Walk.through] at hPlace hLabel ⊢
  generalize (Walk.start .entityContext).run _ = walk at hSettled hClear hPlace hLabel ⊢
  obtain ⟨place, generates, label, found, notes⟩ := walk
  obtain rfl : place = .entityContext := hPlace
  obtain rfl : label = none := hLabel
  obtain rfl : generates = [] := hClear rfl
  have hFound := Findings.followedBy_empty hSettled move
  simp [Walk.within, Findings.within, Walk.start, Place.ofEntry?, Place.moved, hFound]

/-- The walk through both texts ends as the walk through the second one. -/
theorem EndsUnit.walkThrough_append (h : EndsUnit text) (other : String) :
    walkThrough .entityContext (readEvents (text ++ other).utf8ByteSize
        (tokens none (text ++ other)).list) (text ++ other).utf8ByteSize =
      (walkThrough .entityContext (readEvents other.utf8ByteSize (tokens none other).list)
        other.utf8ByteSize).within
        ⟨(text.utf8ByteSize + ·), (Walk.through text).found, (Walk.through text).notes⟩ := by
  set embedding : Embedding :=
    ⟨(text.utf8ByteSize + ·), (Walk.through text).found, (Walk.through text).notes⟩ with hEmbedding
  have hMove : Monotone embedding.move := fun _ _ hLe => Nat.add_le_add_left hLe _
  have hEvents := events_areRigid other text.utf8ByteSize
  have hStart : (Walk.start .entityContext).All (·.IsRigid embedding.move) := .start .entityContext
  have hEnd := hStart.run (isRigid_inherited _) hEvents
  rw [walkThrough, (readEvents_append h).1, h.through_eq embedding.move,
    Walk.run_within hStart hMove hEvents, String.utf8ByteSize_append]
  exact Walk.finish_within hEnd hMove _

/-- Nothing is left to be done at the end of a text that ends a unit. -/
theorem EndsUnit.walkThrough_eq (h : EndsUnit text) :
    walkThrough .entityContext (readEvents text.utf8ByteSize (tokens none text).list)
      text.utf8ByteSize = Walk.through text := by
  have hFinish : (Walk.through text).finish text.utf8ByteSize = Walk.through text := by
    simp [Walk.finish, h.place, Place.process?]
  exact hFinish

/-- At the end of a unit no name is pending. -/
theorem EndsUnit.settled (h : EndsUnit text) : (Walk.through text).found.Settled none := by
  have hSettled := Walk.settled_run (Walk.settled_start .entityContext)
    (readEvents text.utf8ByteSize (tokens none text).list)
  have hPlace : ((Walk.start .entityContext).run
    (readEvents text.utf8ByteSize (tokens none text).list)).place = .entityContext := h.place
  rwa [hPlace] at hSettled

end Walking

section Tables

variable {text other : String} {events : List Event} {move : Nat → Nat}

theorem comments_bare (events : List Event) :
    (events.map Event.bare).filterMap Event.comment? = events.filterMap Event.comment? := by
  rw [List.filterMap_map]
  exact congrArg (List.filterMap · events) (funext fun event => by cases event <;> rfl)

theorem keywords_bare (events : List Event) :
    (events.map Event.bare).filterMap Event.keyword? = events.filterMap Event.keyword? := by
  rw [List.filterMap_map]
  exact congrArg (List.filterMap · events) (funext fun event => by cases event <;> rfl)

theorem comments_moved (move : Nat → Nat) (events : List Event) :
    (events.map (·.moved move)).filterMap Event.comment? =
      (events.filterMap Event.comment?).map (·.moved move) := by
  rw [List.filterMap_map, List.map_filterMap]
  exact congrArg (List.filterMap · events) (funext fun event => by cases event <;> rfl)

/-- The keywords of moved events are the moved keywords. -/
theorem keywords_moved (move : Nat → Nat) (events : List Event) :
    (events.map (·.moved move)).filterMap Event.keyword? =
      (events.filterMap Event.keyword?).map (·.moved move) := by
  rw [List.filterMap_map, List.map_filterMap]
  refine congrArg (List.filterMap · events) (funext fun event => ?_)
  cases event with
  | word here before next =>
      show (if (here.moved move).symbol.isKeyword then _ else _) = _
      rw [Lexeme.symbol_moved, Event.keyword?]
      split <;> rfl
  | _ => rfl

/-- Behind a text that ends a unit another text is read as by itself, up to where it stands. What
the last word of the first text sees ahead may differ, which `bare` leaves out. -/
theorem events_append (h : EndsUnit text) (other : String) :
    (readEvents (text ++ other).utf8ByteSize (tokens none (text ++ other)).list).map Event.bare =
      (readEvents text.utf8ByteSize (tokens none text).list ++
        (readEvents other.utf8ByteSize (tokens none other).list).map
          (·.moved (text.utf8ByteSize + ·))).map Event.bare :=
  (readEvents_append h).2

/-- The comments of both texts are those of the first, and then those of the second. -/
theorem comments_append (h : EndsUnit text) (other : String) :
    ((readEvents (text ++ other).utf8ByteSize (tokens none (text ++ other)).list).filterMap
        Event.comment?).map (commentAt (text ++ other)) =
      ((readEvents text.utf8ByteSize (tokens none text).list).filterMap Event.comment?).map
          (commentAt text) ++
        (((readEvents other.utf8ByteSize (tokens none other).list).filterMap Event.comment?).map
          (commentAt other)).map (·.moved (text.utf8ByteSize + ·)) := by
  rw [← comments_bare, events_append h, comments_bare, List.filterMap_append, comments_moved,
    List.map_append, List.map_map, List.map_map]
  refine congrArg₂ (· ++ ·) ?_ ?_
  · refine List.map_congr_left fun span hMem => ?_
    obtain ⟨event, hEvent, hSpan⟩ := List.mem_filterMap.1 hMem
    have hWithin := ((events_standIn none text event hEvent).comment? span hSpan).within
    have hStop := hWithin.stop_le
    rw [Text.utf8ByteSize_foldCase] at hStop
    rw [commentAt, commentAt, Span.slice_append_left (hWithin.ordered.trans hStop) hStop]
  · refine List.map_congr_left fun span _ => ?_
    rw [Function.comp_apply, Function.comp_apply, commentAt, commentAt, Span.slice_append_right]
    rfl

/-- So the keywords of both texts together are those of the first and, moved, those of the
second. -/
theorem keywords_append (h : EndsUnit text) (other : String) :
    (readEvents (text ++ other).utf8ByteSize (tokens none (text ++ other)).list).filterMap
        Event.keyword? =
      (readEvents text.utf8ByteSize (tokens none text).list).filterMap Event.keyword? ++
        ((readEvents other.utf8ByteSize (tokens none other).list).filterMap Event.keyword?).map
          (·.moved (text.utf8ByteSize + ·)) := by
  rw [← keywords_bare, events_append h, keywords_bare, List.filterMap_append, keywords_moved]

/-- What the second text leaves to be remarked is what both leave. -/
theorem diagnose_append (h : EndsUnit text) (other : String) :
    diagnose (walkThrough .entityContext (readEvents (text ++ other).utf8ByteSize
        (tokens none (text ++ other)).list) (text ++ other).utf8ByteSize)
        (tokens none (text ++ other)).scanned (text ++ other).utf8ByteSize =
      diagnose (walkThrough .entityContext (readEvents other.utf8ByteSize (tokens none other).list)
        other.utf8ByteSize) (tokens none other).scanned other.utf8ByteSize := by
  rw [diagnose, diagnose, (settled_walkThrough _ _ _).ragged_eq_nil,
    (settled_walkThrough _ _ _).ragged_eq_nil,
    scanned_tokens, scanned_tokens, h.walkThrough_append]
  simp [Walk.within]

/-- The generic clause of both texts is that of the second one, or else that of the first one. -/
theorem clause_append (text other : String) (clause : Option Span) :
    ((((clause.map (·.moved (text.utf8ByteSize + ·))).or
      (Walk.through text).found.genericClause).map (·.slice (text ++ other))).getD "") =
      if (clause.map (·.moved (text.utf8ByteSize + ·))).isSome then
        (clause.map (·.slice other)).getD ""
      else ((Walk.through text).found.genericClause.map (·.slice text)).getD "" := by
  cases clause with
  | some span => exact Span.slice_append_right
  | none =>
      have hClause := clause_le .entityContext text
      cases hFound : (Walk.through text).found.genericClause with
      | none => rfl
      | some span =>
          obtain ⟨hStart, hStop⟩ := hClause span hFound
          exact Span.slice_append_left hStart hStop

/-- A text that ends behind a design unit composes with every other text. -/
theorem scan_append (h : EndsUnit text) (other : String) :
    (scan .entityContext none (text ++ other)).table =
      (scan .entityContext none text).table.followedBy
        ((scan .entityContext none other).table.moved (text.utf8ByteSize + ·)) := by
  have hFirst : (Walk.through text).found.align = (Walk.through text).found :=
    h.settled.align_eq_self
  have hDiagnostics := diagnose_append h other
  have hComments := comments_append h other
  have hKeywords := keywords_append h other
  have hFound := Findings.align_within
    ⟨(text.utf8ByteSize + ·), (Walk.through text).found, (Walk.through text).notes⟩
    (walkThrough .entityContext (readEvents other.utf8ByteSize (tokens none other).list)
      other.utf8ByteSize).found
  have hClause := clause_append text other (walkThrough .entityContext
    (readEvents other.utf8ByteSize (tokens none other).list)
      other.utf8ByteSize).found.align.genericClause
  rw [scan, scan, scan, tabulate, tabulate, tabulate, hComments, hKeywords, hDiagnostics,
    h.walkThrough_append, h.walkThrough_eq, hFirst, Walk.within, hFound, Table.followedBy,
    Table.moved]
  simp only [Table.mk.injEq]
  refine ⟨rfl, hClause, ?_, trivial, trivial⟩
  simp [Words.followedBy, Words.moved]

/-- An entity with a generic clause ends in front of a comment, and a use clause follows. -/
theorem scan_append_entity :
    let first := "entity E is generic (N : bit); end; -- E\n"
    let second := "use work.p.all;"
    EndsUnit first ∧
      (scan .entityContext none (first ++ second)).table =
        (scan .entityContext none first).table.followedBy
          ((scan .entityContext none second).table.moved (first.utf8ByteSize + ·)) := by
  intro first second
  have hFirst : EndsUnit first :=
    ⟨by decide +kernel, by decide +kernel, by decide +kernel, by decide +kernel⟩
  exact ⟨hFirst, scan_append hFirst second⟩

end Tables

end Composing

end HdlIndex.Vhdl

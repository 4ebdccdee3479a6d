import HdlIndex.Proofs.Anchored
import HdlIndex.Proofs.Highlight
import HdlIndex.Proofs.Vhdl.LinkedWords
import HdlIndex.Proofs.Vhdl.SourceOrder

/-! Where the ranges of a VHDL table begin. A word is recorded as itself, as its stem, or as the
package or the unit that it names, and the place where it is read decides which it is. So all that
is recorded of a word begins together. -/
namespace HdlIndex.Vhdl

/-- The place of the comment or the word that an event is. -/
def Event.place? : Event → Option Span
  | comment span => some span
  | filler _ => none
  | word here _ _ => some here.span

theorem Event.place?_of_comment? {event : Event} {span : Span} (h : event.comment? = some span) :
    event.place? = some span := by
  cases event with
  | comment place => exact h
  | _ => cases h

/-- The span of a keyword is the place of its event. -/
theorem Event.place?_of_keyword? {event : Event} {span : Span} (h : event.keyword? = some span) :
    event.place? = some span := by
  cases event with
  | word here before next =>
      rw [keyword?] at h
      split at h
      · exact h
      · cases h
  | _ => cases h

/-- The places of events. -/
def places (events : List Event) : List Span := events.filterMap Event.place?

namespace Reader

variable {reader : Reader} {token : Token} {rest : List Token}

/-- The token opens the comment that is open behind it, or the comment was open before. -/
theorem opened?_read {start : Nat} (h : start ∈ (reader.read token rest).mode.opened?) :
    start = token.span.start ∨ start ∈ reader.mode.opened? := by
  rw [read] at h
  cases hMode : reader.mode with
  | code =>
      rw [hMode] at h
      dsimp only at h
      rw [readCode] at h
      split at h
      · exact .inl (Option.some.inj h).symm
      split at h
      · exact .inl (Option.some.inj h).symm
      split at h
      · dsimp only at h
        split at h
        · rw [hMode] at h
          cases h
        · cases h
      split at h
      · change start ∈ reader.mode.opened? at h
        rw [hMode] at h
        cases h
      · change start ∈ reader.mode.opened? at h
        rw [hMode] at h
        cases h
  | lineComment opened | blockComment opened =>
      rw [hMode] at h
      dsimp only at h
      split at h
      · cases h
      · rw [hMode] at h
        exact .inr h
  | string =>
      rw [hMode] at h
      dsimp only at h
      split at h <;> cases h

/-- A comment is a place from where it opens to where it closes, and a word is one by itself. -/
theorem addedBy_read (reader : Reader) (token : Token) (rest : List Token) :
    Span.AddedBy token reader.mode.opened? (reader.read token rest).mode.opened?
      (places (reader.emitted token rest)) := by
  have hIdle : Span.AddedBy token reader.mode.opened? (reader.read token rest).mode.opened? [] :=
    .idle fun _ => opened?_read
  have hTakes := reader.takes token rest
  generalize reader.emitted token rest = events at hTakes ⊢
  cases hTakes with
  | closesLine hMode _ hAfter =>
      rw [hMode, hAfter]
      exact .closes (.inl rfl)
  | closesBlock hMode _ hAfter =>
      rw [hMode, hAfter]
      exact .closes (.inr rfl)
  | word hMode _ _ hAfter =>
      rw [hMode, hAfter]
      exact .word
  | _ => exact hIdle

/-- The end of the text closes the comment that is open. -/
theorem places_finish (reader : Reader) (size : Nat) :
    places (reader.forget.finish size).toList = (reader.mode.opened?.map (⟨·, size⟩)).toList := by
  have hForget : reader.forget.mode = reader.mode := rfl
  rw [finish, hForget]
  cases reader.mode <;> rfl

end Reader

/-- The places of events follow one another in the text. -/
theorem follow_places (limit : Option Nat) (text : String) :
    Span.Follow 0 (places (readEvents text.utf8ByteSize (tokens limit text).list)) := by
  have hScanned := tokenize_scanned_le delimiters limit false (Text.foldCase text)
  rw [Text.utf8ByteSize_foldCase] at hScanned
  exact Reader.isReader.follow_upcoming Reader.addedBy_read (Reader.places_finish · _)
    {} (tokenize_contiguous ..) hScanned
    (by simp [Mode.opened?])

/-- No reserved word has a point. -/
theorem point_not_mem {token : Token} (h : (Lexeme.ofToken token).symbol.isKeyword = true) :
    '.' ∉ token.text.toList := by
  cases hSymbol : (Lexeme.ofToken token).symbol with
  | keyword word =>
      have hSpelling : (Lexeme.ofToken token).symbol.spelling? = some word.text := by
        rw [hSymbol]; rfl
      have hText : token.text = word.text := Symbol.eq_of_spelling? hSpelling
      rw [hText]
      cases word <;> decide
  | _ =>
      rw [hSymbol] at h
      cases h

/-- All that a word is taken for at a place begins together, and a reserved word is taken as a
whole. -/
theorem Place.exists_start (place : Place) (token : Token)
    (hSize : token.span.stop = token.span.start + token.text.utf8ByteSize) :
    ∃ offset, ((Lexeme.ofToken token).symbol.isKeyword = true → offset = token.span.start) ∧
      ∀ part ∈ place.taken (Lexeme.ofToken token).word, part.span.start = offset := by
  unfold taken
  split
  · cases hPackage : Walk.selectedPackage? (Lexeme.ofToken token).word with
    | none => exact ⟨token.span.start, fun _ => rfl, by simp⟩
    | some package =>
        refine ⟨package.span.start, fun hKeyword => ?_, by simp⟩
        have hNone : token.text.toList.dropWhile (· != '.') = [] := by
          rw [List.dropWhile_eq_nil_iff]
          intro c hMem
          rw [bne_iff_ne]
          rintro rfl
          exact point_not_mem hKeyword hMem
        have hText : (Lexeme.ofToken token).word.text = token.text := rfl
        rw [Walk.selectedPackage?, hText, hNone] at hPackage
        cases hPackage
  · refine ⟨(selectedUnit (Lexeme.ofToken token).word).span.start, fun hKeyword => ?_, by simp⟩
    have hWhole : token.text.toList.reverse.takeWhile (· != '.') = token.text.toList.reverse := by
      rw [List.takeWhile_eq_self_iff]
      intro c hMem
      rw [bne_iff_ne]
      rintro rfl
      exact point_not_mem hKeyword (List.mem_reverse.1 hMem)
    show token.span.stop -
      (String.ofList (token.text.toList.reverse.takeWhile (· != '.')).reverse).utf8ByteSize =
        token.span.start
    rw [hWhole, List.reverse_reverse, String.ofList_toList]
    omega
  · exact ⟨token.span.start, fun _ => rfl, by simp; rfl⟩

/-- If an event has a word, it is that of a token, and as long as its text. -/
def Event.IsRead (event : Event) : Prop :=
  ∀ here ∈ event.word?, here = .ofToken here.token ∧
    here.word.span.stop = here.word.span.start + here.word.text.utf8ByteSize

/-- Every event carries words whose meaning is that of their text. -/
theorem isRead_of_mem_readEvents (limit : Option Nat) (text : String) :
    ∀ event ∈ readEvents text.utf8ByteSize (tokens limit text).list, event.IsRead := by
  intro event hMem here hWord
  have hLinked := linked_readEvents text.utf8ByteSize (tokens limit text).list
  have hStands := events_standIn limit text event hMem
  obtain ⟨front, behind, hSplit⟩ := List.append_of_mem hMem
  rw [hSplit] at hLinked
  obtain ⟨last, hBehind⟩ := hLinked.exists_behind
  cases event with
  | word other before next =>
      obtain rfl := Option.some.inj hWord
      exact ⟨hBehind.1, (standsIn_inherited _).stop_eq hStands.1⟩
  | _ => cases hWord

namespace Event

variable {event : Event} {place : Span} {places : List Span}

/-- What a word is taken for lies where the word does. -/
theorem taken_liesIn (h : event.IsRead) (hPlace : ∀ span ∈ event.place?, span ∈ places)
    (home : Place) :
    event.Taken (Word.LiesIn places) home := by
  cases event with
  | word here before next =>
      obtain ⟨-, hSize⟩ := h here rfl
      refine ⟨fun part hPart =>
        Walk.All.isPartOf_taken hPart _ (Word.liesIn_inherited places) ⟨hSize, fun _ => ?_⟩,
        fun _ _ => Word.liesIn_absent ..⟩
      exact ⟨here.span, hPlace _ rfl, Nat.le_refl _, Nat.le_refl _⟩
  | _ => exact trivial

/-- What a word is taken for has no byte of a place that the word has none of. -/
theorem taken_of_isApart (h : event.IsRead) (hApart : ∀ span ∈ event.place?, span.IsApart place)
    (offset : Nat) (home : Place) : event.Taken (Word.EntersAt place offset) home := by
  cases event with
  | word here before next =>
      obtain ⟨-, hSize⟩ := h here rfl
      exact ⟨fun part hPart => (Walk.All.isPartOf_taken hPart).entersAt (hApart _ rfl) hSize offset,
        fun _ _ => Word.entersAt_absent ..⟩
  | _ => exact trivial

/-- All that an event is recorded as at a place of the walk begins together. -/
theorem exists_offset (h : event.IsRead) (hPlace : event.place? = some place) (home : Place) :
    ∃ offset, (∀ span ∈ event.comment?, span.start = offset) ∧
      (∀ span ∈ event.keyword?, span.start = offset) ∧
      event.Taken (Word.EntersAt place offset) home := by
  cases event with
  | filler token => cases hPlace
  | comment span => exact ⟨span.start, by simp [comment?], by simp [keyword?], trivial⟩
  | word here before next =>
      obtain ⟨hHere, hSize⟩ := h here rfl
      obtain ⟨offset, hReserved, hTaken⟩ := home.exists_start here.token hSize
      rw [← hHere] at hReserved hTaken
      refine ⟨offset, by simp [comment?], fun span hSpan => ?_, fun part hPart => ?_,
        fun _ _ => Word.entersAt_absent ..⟩
      · rw [keyword?] at hSpan
        split at hSpan
        · next hSymbol =>
          obtain rfl := Option.some.inj hSpan
          exact (hReserved hSymbol).symm
        · cases hSpan
      · have hLies := (@taken_liesIn _ [here.span] h (by simp [place?]) home).1 part hPart
        exact ⟨hLies.1, fun _ => .inr (hTaken part hPart)⟩

end Event

section Scan

variable (region : Region) (limit : Option Nat) (text : String)

theorem spans_comments : (scan region limit text).table.comments.spans =
    (readEvents text.utf8ByteSize (tokens limit text).list).filterMap Event.comment? := by
  simp [scan, tabulate, Words.spans, commentAt, Function.comp_def]

/-- What holds of all that a walk has at the end of a text, and passes to stems, holds of the
table's names. -/
theorem forall_names {P : Word → Prop} (hP : Rooted P) (hAbsent : ∀ offset, P (.absent offset))
    (h : ((Walk.start region).run (readEvents text.utf8ByteSize (tokens limit text).list)).All P) :
    ∀ word ∈ (scan region limit text).table.names, P word :=
  ((h.finish hP (hAbsent _)).found.align hP).names

/-- The ranges of a table are anchored in the words and comments of the text. -/
theorem scan_areAnchored :
    Span.AreAnchored (places (readEvents text.utf8ByteSize (tokens limit text).list))
      (scan region limit text).table.recorded := by
  have hNames {P : Word → Prop} := @forall_names region limit text P
  have hKeywords : (scan region limit text).table.keywords =
    (readEvents text.utf8ByteSize (tokens limit text).list).filterMap Event.keyword? := rfl
  have hFollow := follow_places limit text
  have hRead := isRead_of_mem_readEvents limit text
  rw [Table.recorded, spans_comments, hKeywords]
  generalize readEvents text.utf8ByteSize (tokens limit text).list = events at *
  constructor
  case taken =>
    intro span hSpan hText
    have hWhole {event : Event} (hEvent : event ∈ events) (hPlace : event.place? = some span) :
        ∃ place ∈ places events, place.start ≤ span.start ∧ span.stop ≤ place.stop :=
      ⟨span, List.mem_filterMap.2 ⟨event, hEvent, hPlace⟩, Nat.le_refl _, Nat.le_refl _⟩
    obtain (hComment | hName) | hKeyword := (List.mem_append.1 hSpan).imp_left List.mem_append.1
    · obtain ⟨event, hEvent, hSome⟩ := List.mem_filterMap.1 hComment
      exact hWhole hEvent (Event.place?_of_comment? hSome)
    · obtain ⟨word, hWord, rfl⟩ := List.mem_map.1 hName
      have hP := (Word.liesIn_inherited (places events)).rooted
      refine (hNames hP (Word.liesIn_absent _) ?_ word hWord).2 hText
      exact (Walk.All.start region).run_taken hP fun event hEvent =>
        Event.taken_liesIn (hRead event hEvent) fun place hPlace =>
          List.mem_filterMap.2 ⟨event, hEvent, hPlace⟩
    · obtain ⟨event, hEvent, hSome⟩ := List.mem_filterMap.1 hKeyword
      exact hWhole hEvent (Event.place?_of_keyword? hSome)
  case together =>
    intro place hPlace hText
    obtain ⟨event, hEvent, hSome⟩ := List.mem_filterMap.1 hPlace
    obtain ⟨front, behind, rfl⟩ := List.append_of_mem hEvent
    have hApart : ∀ other ∈ front ++ behind, ∀ span ∈ other.place?, span.IsApart place :=
      hFollow.isApart hSome
    obtain ⟨offset, hComment, hKeyword, hTaken⟩ :=
      Event.exists_offset (hRead event hEvent) hSome ((Walk.start region).run front).place
    have hP := Word.entersAt_rooted place offset
    -- What other words are taken for has no byte of the place.
    have hFront := (Walk.All.start region).run_taken hP fun other hMem =>
      Event.taken_of_isApart (hRead other (List.mem_append_left _ hMem))
        (hApart other (List.mem_append_left _ hMem)) offset
    have hWalk := (hFront.step_taken hP hTaken).run_taken hP fun other hMem =>
      Event.taken_of_isApart (hRead other (List.mem_append_right _ (List.mem_cons_of_mem _ hMem)))
        (hApart other (List.mem_append_right _ hMem)) offset
    refine ⟨offset, fun span hSpan hSpanText => ?_⟩
    obtain (hComments | hName) | hKeywords := (List.mem_append.1 hSpan).imp_left List.mem_append.1
    · exact (hFollow.isApart_or hSome Event.place?_of_comment? hComments).imp_right (hComment span)
    · obtain ⟨word, hWord, rfl⟩ := List.mem_map.1 hName
      refine (hNames hP (Word.entersAt_absent _ _) ?_ word hWord).2 hSpanText
      rw [Walk.run, List.foldl_append]
      exact hWalk
    · exact (hFollow.isApart_or hSome Event.place?_of_keyword? hKeywords).imp_right (hKeyword span)

end Scan

end HdlIndex.Vhdl

import HdlIndex.Proofs.Anchored
import HdlIndex.Proofs.Highlight
import HdlIndex.Proofs.Verilog.SourceOrder

/-! Where the ranges of a Verilog table begin. A name is recorded as itself or as its stem, and an
included file is taken from its directive line, so all that is recorded of a place begins together.
Only a type can reach from one word to another. -/
namespace HdlIndex.Verilog

open String (utf8Len)

/-- The place of the comment, the directive line or the word that an event is. -/
def Event.place? : Event → Option Span
  | comment span | directive span => some span
  | filler _ | ended _ => none
  | word here _ => some here.span

/-- The places of events. -/
def places (events : List Event) : List Span := events.filterMap Event.place?

namespace Reader

variable {reader : Reader} {token : Token} {rest : List Token}

/-- The token opens the comment or the directive that is open behind it, or it was open before. -/
theorem opened?_read {start : Nat} (h : start ∈ (reader.read token rest).mode.opened?) :
    start = token.span.start ∨ start ∈ reader.mode.opened? := by
  rw [read] at h
  cases hMode : reader.mode with
  | code =>
      rw [hMode] at h
      dsimp only at h
      rw [readCode] at h
      split at h
      · exact .inl (Option.some.inj h).symm
      split at h
      · exact .inl (Option.some.inj h).symm
      split at h
      · cases h
      split at h
      · change start ∈ reader.mode.opened? at h
        rw [hMode] at h
        cases h
      split at h
      · exact .inl (Option.some.inj h).symm
      split at h
      · change start ∈ reader.mode.opened? at h
        rw [hMode] at h
        cases h
      · change start ∈ reader.mode.opened? at h
        rw [hMode] at h
        cases h
  | lineComment opened | blockComment opened | directive opened =>
      rw [hMode] at h
      dsimp only at h
      split at h
      · cases h
      · rw [hMode] at h
        exact .inr h
  | string =>
      rw [hMode] at h
      dsimp only at h
      split at h <;> cases h

/-- A comment or a directive line is a place from where it opens to where it closes, and a word is one
by itself. -/
theorem addedBy_read (reader : Reader) (token : Token) (rest : List Token) :
    Span.AddedBy token reader.mode.opened? (reader.read token rest).mode.opened?
      (places (reader.emitted token rest)) := by
  have hIdle : Span.AddedBy token reader.mode.opened? (reader.read token rest).mode.opened? [] :=
    .idle fun _ => opened?_read
  have hTakes := reader.takes token rest
  generalize reader.emitted token rest = events at hTakes ⊢
  cases hTakes with
  | closesLine hMode _ hAfter | closesDirective hMode hAfter =>
      rw [hMode, hAfter]
      exact .closes (.inl rfl)
  | closesBlock hMode _ hAfter =>
      rw [hMode, hAfter]
      exact .closes (.inr rfl)
  | word hMode _ _ hAfter =>
      rw [hMode, hAfter]
      exact .word
  | _ => exact hIdle

/-- The end of the text closes the comment or the directive line that is open. -/
theorem places_finish (reader : Reader) (size : Nat) :
    places (reader.forget.finish size).toList = (reader.mode.opened?.map (⟨·, size⟩)).toList := by
  have hForget : reader.forget.mode = reader.mode := rfl
  rw [finish, hForget]
  cases reader.mode <;> rfl

end Reader

/-- The places of events follow one another in the text. -/
theorem follow_places (limit : Option Nat) (text : String) :
    Span.Follow 0 (places (readEvents text.utf8ByteSize (tokens limit text).list)) :=
  Reader.isReader.follow_upcoming Reader.addedBy_read (Reader.places_finish · _)
    {} (tokenize_contiguous ..) (tokenize_scanned_le delimiters limit true text)
    (by simp [Mode.opened?])

/-- An included file is taken from its directive line. -/
theorem includedFile?_within {text : String} {span : Span} {file : Word} (hSpan : span.Within text)
    (h : includedFile? text span = some file) :
    span.start ≤ file.span.start ∧ file.span.stop ≤ span.stop := by
  obtain ⟨lead, behind, hSlice, hStart, hStop⟩ := includedFile?_parts h
  have hLine : span.stop = span.start + (span.slice text).utf8ByteSize :=
    (standsIn_inherited text).stop_eq
      (show (⟨span.slice text, span⟩ : Word).StandsIn text from hSpan.covers_slice)
  have hSize : (span.slice text).utf8ByteSize =
      utf8Len (lead ++ ['"']) + file.text.utf8ByteSize + utf8Len behind := by
    rw [← String.utf8Len_toList, hSlice, String.utf8Len_append, String.utf8Len_append,
      String.utf8Len_toList]
  omega

/-- The ranges of the comment, the included file or the word that is taken from an event. -/
def Event.taken (text : String) : Event → List Span
  | comment span => [span]
  | directive line => ((includedFile? text line).map (·.span)).toList
  | word here _ => [here.span]
  | filler _ | ended _ => []

namespace Event

variable {event : Event} {span : Span} (text : String)

theorem taken_of_comment? (h : event.comment? = some span) : span ∈ event.taken text := by
  cases event with
  | comment place =>
      obtain rfl := Option.some.inj h
      exact List.mem_singleton_self _
  | _ => cases h

theorem taken_of_word? {here : Lexeme} (h : event.word? = some here) :
    here.span ∈ event.taken text := by
  cases event with
  | word other next =>
      obtain rfl := Option.some.inj h
      exact List.mem_singleton_self _
  | _ => cases h

/-- The span of a keyword is the span of its word, so that it is among what the events take from the
text. -/
theorem taken_of_keyword? (h : event.keyword? = some span) : span ∈ event.taken text := by
  cases event with
  | word here next =>
      rw [keyword?] at h
      split at h
      · obtain rfl := Option.some.inj h
        exact List.mem_singleton_self _
      · cases h
  | _ => cases h

/-- An included file is taken from the span of its directive. -/
theorem taken_of_directive? {file : Word} (h : event.directive? = some span)
    (hFile : includedFile? text span = some file) : file.span ∈ event.taken text := by
  cases event with
  | directive line =>
      obtain rfl := Option.some.inj h
      simp [taken, hFile]
  | _ => cases h

/-- All that is taken from an event begins together, as it is one range at most. -/
theorem exists_offset (event : Event) :
    ∃ offset, ∀ span ∈ event.taken text, span.start = offset := by
  cases event with
  | comment span => exact ⟨span.start, by simp [taken]⟩
  | directive line => cases hFile : includedFile? text line <;> simp [taken, hFile]
  | word here next => exact ⟨here.span.start, by simp [taken]⟩
  | filler token | ended offset => exact ⟨0, by simp [taken]⟩

/-- What is taken from an event lies in its place. -/
theorem taken_lies {text : String} (hStands : event.All fun word => word.StandsIn text)
    (h : span ∈ event.taken text) :
    ∃ place ∈ event.place?, place.start ≤ span.start ∧ span.stop ≤ place.stop := by
  cases event with
  | comment place =>
      obtain rfl := List.mem_singleton.1 h
      exact ⟨span, rfl, Nat.le_refl _, Nat.le_refl _⟩
  | directive line =>
      obtain ⟨file, hFile, rfl⟩ := Option.map_eq_some_iff.1 (Option.mem_toList.1 h)
      exact ⟨line, rfl, includedFile?_within (hStands.directive? line rfl).within hFile⟩
  | word here next =>
      obtain rfl := List.mem_singleton.1 h
      exact ⟨here.span, rfl, Nat.le_refl _, Nat.le_refl _⟩
  | filler token | ended offset => cases h

end Event

section Scan

variable (region : Region) (limit : Option Nat) (text : String)

theorem spans_comments : (scan region limit text).table.comments.spans =
    (readEvents text.utf8ByteSize (tokens limit text).list).filterMap Event.comment? := by
  simp [scan, tabulate, Words.spans, commentAt, Function.comp_def]

theorem spans_includeFiles : (scan region limit text).table.includeFiles.spans =
    (((readEvents text.utf8ByteSize (tokens limit text).list).filterMap Event.directive?).filterMap
      (includedFile? text)).map (·.span) := by
  simp [scan, tabulate, Words.spans]

/-- What holds of the words of a text and passes to stems holds of the names of its table. -/
theorem forall_names {P : Word → Prop} (hP : Rooted P) (hAbsent : ∀ offset, P (.absent offset))
    (hWords : ∀ word ∈ readWords (readEvents text.utf8ByteSize (tokens limit text).list), P word) :
    ∀ word ∈ (scan region limit text).table.names, P word := by
  have hPQ : Located P fun _ => True := .ofNames hP
  have hEvents : ∀ event ∈ readEvents text.utf8ByteSize (tokens limit text).list, event.All P := by
    intro event hEvent
    have hStands := events_standIn limit text event hEvent
    cases event with
    | word here next => exact hWords _ (List.mem_map_of_mem (List.mem_filterMap.2 ⟨_, hEvent, rfl⟩))
    | comment span | directive span => exact ⟨hStands.ordered, hAbsent _, hAbsent _⟩
    | filler token | ended offset => exact trivial
  have hFound : (walkThrough region (readEvents text.utf8ByteSize (tokens limit text).list)
      text.utf8ByteSize).found.All P fun _ => True :=
    (((Walk.All.start region).run hPQ hEvents).finish hPQ (hAbsent _)).found
  have hTable : (scan region limit text).table.toFindings.All P fun _ => True := by
    rwa [toFindings_scan]
  exact hTable.names

/-- The ranges of a table, and those of the words, are anchored in the words, comments and directive
lines of the text. -/
theorem scan_areAnchored :
    Span.AreAnchored (places (readEvents text.utf8ByteSize (tokens limit text).list))
      ((scan region limit text).table.recorded ++
        (readWords (readEvents text.utf8ByteSize (tokens limit text).list)).map (·.span)) := by
  have hComments := spans_comments region limit text
  have hIncludes := spans_includeFiles region limit text
  have hNames {P : Word → Prop} := @forall_names region limit text P
  have hKeywords : (scan region limit text).table.keywords =
    (readEvents text.utf8ByteSize (tokens limit text).list).filterMap Event.keyword? := rfl
  have hFollow := follow_places limit text
  have hStands := events_standIn limit text
  have hSizes {word : Word} := @size_of_mem_readWords limit text word
  rw [Table.recorded, hComments, hIncludes, hKeywords]
  generalize readEvents text.utf8ByteSize (tokens limit text).list = events at *
  have hTaken {event : Event} (hEvent : event ∈ events) {span : Span}
      (h : span ∈ event.taken text) :
      span ∈ events.flatMap (Event.taken text) := List.mem_flatMap.2 ⟨event, hEvent, h⟩
  have hWords : ∀ word ∈ readWords events, word.span ∈ events.flatMap (Event.taken text) ∧
      word.span.stop = word.span.start + word.text.utf8ByteSize := by
    intro word hWord
    refine ⟨?_, hSizes hWord⟩
    obtain ⟨here, hHere, rfl⟩ := List.mem_map.1 hWord
    obtain ⟨event, hEvent, hSome⟩ := List.mem_filterMap.1 hHere
    exact hTaken hEvent (Event.taken_of_word? text hSome)
  have hAnchored : Span.AreAnchored (places events) (events.flatMap (Event.taken text)) :=
    hFollow.areAnchored (fun event hEvent _ => Event.taken_lies (hStands event hEvent))
      (Event.exists_offset text)
  refine (hAnchored.append_names hWords hNames).mono fun span hSpan => ?_
  simp only [List.mem_append] at hSpan ⊢
  obtain (((hComment | hInclude) | hName) | hKeyword) | hWord := hSpan
  · obtain ⟨event, hEvent, hSome⟩ := List.mem_filterMap.1 hComment
    exact .inl (hTaken hEvent (Event.taken_of_comment? text hSome))
  · obtain ⟨file, hFiles, rfl⟩ := List.mem_map.1 hInclude
    obtain ⟨line, hLine, hFile⟩ := List.mem_filterMap.1 hFiles
    obtain ⟨event, hEvent, hDirective⟩ := List.mem_filterMap.1 hLine
    exact .inl (hTaken hEvent (Event.taken_of_directive? text hDirective hFile))
  · exact .inr hName
  · obtain ⟨event, hEvent, hSome⟩ := List.mem_filterMap.1 hKeyword
    exact .inl (hTaken hEvent (Event.taken_of_keyword? text hSome))
  · obtain ⟨word, hMem, rfl⟩ := List.mem_map.1 hWord
    exact .inl (hWords word hMem).1

end Scan

end HdlIndex.Verilog

import HdlIndex.Proofs.Token.Joined
import HdlIndex.Proofs.Vhdl.InterfaceRun
import HdlIndex.Proofs.Vhdl.LoneList
import HdlIndex.Proofs.Vhdl.RelaidTable
import HdlIndex.Proofs.Vhdl.Units

/-! An interface list by itself and in an entity. The walk through the list does not ask what the
list is part of, nor for the words around the one that it reads, until a parenthesis closes the
list. There the last element ends as it ends with the text of the list alone, so that both texts
give one table. -/
namespace HdlIndex.Vhdl

open String (utf8Len)

/-- The parentheses that are open inside of an element. -/
def Element.depth (element : Element) : Nat :=
  match element.part with
  | .range _ depth | .value depth => depth
  | _ => 0

/-- The place is in a list that is the whole text, and outside of the parentheses in it. -/
def Place.endsList : Place → Bool
  | .interfaceDeclaration list element => list.owner = .text && element.depth = 0
  | _ => false

/-- The text ends inside of the list that it begins in, outside of comments and strings, and with no
parenthesis open. -/
structure EndsInList (region : Region) (text : String) : Prop where
  code : (readerAt none text).mode = .code
  place : (walkAt region none text).place.endsList = true

instance (region : Region) (text : String) : Decidable (EndsInList region text) :=
  decidable_of_iff (_ ∧ _) ⟨fun ⟨code, place⟩ => ⟨code, place⟩, fun ⟨code, place⟩ => ⟨code, place⟩⟩

section Walking

variable {walk walk' : Walk} {kind : ListKind} {inside : Nat} {event event' : Event}
  {events events' : List Event}

/-- Outside of its parentheses, an element is ended by the one that closes the list. -/
theorem Element.read_endOfList {element : Element} {here : Lexeme} (h : element.depth = 0)
    (hSymbol : here.symbol = .parenClose) : element.read true here = .close := by
  rw [depth] at h
  rw [read]
  cases hPart : element.part with
  | range keyword depth =>
      rw [hPart] at h
      obtain rfl : depth = 0 := h
      simp [readRange, hSymbol]
  | value depth =>
      rw [hPart] at h
      obtain rfl : depth = 0 := h
      simp [readValue, hSymbol]
  | names => simp [readName, hSymbol]
  | mode => simp [readMode, readType, readSettled, hSymbol]
  | type => simp [readType, readSettled, hSymbol]
  | settled => simp [readSettled, hSymbol]

/-- The first walk stands in a list that is the whole text, and the second one at the same place of
an entity's list. -/
structure Walk.IsLent (kind : ListKind) (inside : Nat) (walk walk' : Walk) : Prop where
  place : ∃ element, walk.place = .interfaceDeclaration ⟨kind, .text, inside⟩ element ∧
    walk'.place = .interfaceDeclaration ⟨kind, .entity, inside⟩ element
  found : walk'.found = walk.found

namespace Walk.IsLent

/-- An element of the list is read as in an entity, as long as the list stays open. -/
theorem readInterface {element : Element} {here : Lexeme} (h : walk.IsLent kind inside walk')
    (hPlace : walk.place = .interfaceDeclaration ⟨kind, .text, inside⟩ element)
    (hPlace' : walk'.place = .interfaceDeclaration ⟨kind, .entity, inside⟩ element)
    (hAlone : (walk.readInterface ⟨kind, .text, inside⟩ element here).place.isAlone = true) :
    (walk.readInterface ⟨kind, .text, inside⟩ element here).IsLent kind inside
      (walk'.readInterface ⟨kind, .entity, inside⟩ element here) := by
  rw [Walk.readInterface] at hAlone ⊢
  rw [Walk.readInterface]
  cases hRead : element.read true here with
  | stay next => exact ⟨⟨next, rfl, rfl⟩, h.found⟩
  | name word =>
      exact ⟨⟨element, hPlace, hPlace'⟩, congrArg (·.modifyList kind (·.pushName word)) h.found⟩
  | done =>
      exact ⟨⟨{}, rfl, rfl⟩,
        congrArg (·.modifyList kind (element.complete kind.defaultMode)) h.found⟩
  | close =>
      rw [hRead] at hAlone
      cases (isAlone_closeList ⟨kind, .text, inside⟩ _).symm.trans hAlone

/-- As long as the list is open, both walks take the same words. -/
theorem step (h : walk.IsLent kind inside walk') (hBare : event'.bare = event.bare)
    (hAlone : (walk.step event).place.isAlone = true) :
    (walk.step event).IsLent kind inside (walk'.step event') := by
  obtain ⟨element, hPlace, hPlace'⟩ := h.place
  cases event with
  | comment span =>
      cases event' <;> cases hBare
      exact h
  | filler token =>
      cases event' <;> cases hBare
      refine ⟨⟨{ element with expr := element.expr.absorb token }, ?_, ?_⟩, h.found⟩
      · rw [Walk.step, hPlace]
        rfl
      · rw [Walk.step, hPlace']
        rfl
  | word here before next =>
      cases event' <;> cases hBare
      have hNoted : (walk.note (.visited walk.place.region.name here.text)).IsLent kind inside
          (walk'.note (.visited walk'.place.region.name here.text)) := ⟨h.place, h.found⟩
      have hHere : (walk.note (.visited walk.place.region.name here.text)).place =
          .interfaceDeclaration ⟨kind, .text, inside⟩ element := hPlace
      have hThere : (walk'.note (.visited walk'.place.region.name here.text)).place =
          .interfaceDeclaration ⟨kind, .entity, inside⟩ element := hPlace'
      rw [Walk.step, Walk.read, hHere] at hAlone ⊢
      rw [Walk.step, Walk.read, hThere]
      exact hNoted.readInterface hHere hThere hAlone

/-- A list that is open at the end of the events was open all the way. -/
theorem run (h : walk.IsLent kind inside walk')
    (hBare : events'.map Event.bare = events.map Event.bare)
    (hAlone : (walk.run events).place.isAlone = true) :
    (walk.run events).IsLent kind inside (walk'.run events') := by
  induction events generalizing walk walk' events' with
  | nil =>
      obtain rfl : events' = [] := by simpa using hBare
      exact h
  | cons event events ih =>
      cases events' with
      | nil => cases hBare
      | cons event' events' =>
          obtain ⟨hFirst, hRest⟩ := List.cons_eq_cons.1 hBare
          have hHere : (walk.step event).place.isAlone = true := by
            by_contra hLeft
            have hEnd := isAlone_run (Bool.not_eq_true _ ▸ hLeft) events
            cases hEnd.symm.trans hAlone
          have hStep := h.step hFirst hHere
          have hEnd : ((walk.step event).run events).IsLent kind inside
              ((walk'.step event').run events') := ih hStep hRest hAlone
          exact hEnd

end Walk.IsLent

end Walking

section Reading

variable {reader : Reader} {token : Token} {tokens rest rest' : List Token} {move : Nat → Nat}

/-- The word that stands before a text decides nothing but what its first word sees before it. -/
theorem Reader.readOver_before (reader : Reader) (before : Option Lexeme)
    (tokens rest : List Token) :
    ({ reader with before }.readOver tokens rest).mode = (reader.readOver tokens rest).mode ∧
      ({ reader with before }.emittedOver tokens rest).map Event.bare =
        (reader.emittedOver tokens rest).map Event.bare := by
  induction tokens generalizing reader with
  | nil => exact ⟨rfl, rfl⟩
  | cons token tokens ih =>
      have hMode : ∀ {first second : Reader}, first.forget = second.forget →
          (first.readOver tokens rest).mode = (second.readOver tokens rest).mode := by
        intro first second hForget
        have hBoth :=
          congrArg (fun reader : Reader => (reader.readOver tokens rest).forget.mode) hForget
        simp only [isReader.forget_readOver] at hBoth
        exact hBoth
      rw [readOver, readOver, emittedOver, emittedOver, List.map_append, List.map_append]
      rcases reader.read_before token (tokens ++ rest) before with
        ⟨hEmitted, hForget, -⟩ | ⟨here, next, hWord, hEmitted, hForget⟩
      · rw [hMode hForget, emittedOver_congr hForget, hEmitted]
        exact ⟨(ih _).1, congrArg _ (ih _).2⟩
      · rw [hMode hForget, emittedOver_congr hForget, hEmitted, hWord]
        exact ⟨rfl, rfl⟩

/-- A parenthesis is a word, unless it is the character of a literal. -/
theorem Reader.read_parenthesis (hCode : reader.mode = .code)
    (hText : token.text = "(" ∨ token.text = ")") (hCharacter : reader.isCharacter rest = false) :
    let next := (Token.nextSignificant comments none rest).map Lexeme.ofToken
    reader.read token rest = ⟨.code, (some token, reader.passed.1), some (.ofToken token),
        reader.events.push (.word (.ofToken token) reader.before next)⟩ ∧
      reader.emitted token rest = [.word (.ofToken token) reader.before next] := by
  obtain ⟨mode, passed, before, events⟩ := reader
  obtain rfl : mode = .code := hCode
  have hOther : token.text ≠ "--" ∧ token.text ≠ "/*" ∧ token.text ≠ "\"" := by
    rcases hText with hText | hText <;> rw [hText] <;> decide
  have hBlank : token.isBlank = false := by
    rcases hText with hText | hText <;> simp [Token.isBlank, hText, Text.isAsciiBlank]
  have hRead : ∀ events : Array Event, read ⟨.code, passed, before, events⟩ token rest =
      ⟨.code, (some token, passed.1), some (.ofToken token), events.push
        (.word (.ofToken token) before
          ((Token.nextSignificant comments none rest).map .ofToken))⟩ := by
    intro events
    have hHere : isCharacter ⟨.code, passed, before, events⟩ rest = false := hCharacter
    rw [read]
    dsimp only
    rw [readCode, if_neg hOther.1, if_neg hOther.2.1, if_neg hOther.2.2, hHere, hBlank]
    simp [emit]
  exact ⟨hRead events, congrArg (fun reader : Reader => reader.events.toList) (hRead #[])⟩

/-- Tokens without text change no mode, and they are nothing to a walk. -/
theorem Walk.run_empties (walk : Walk) (hCode : reader.mode = .code)
    (hEmpty : ∀ token ∈ tokens, token.isEmpty = true) (rest : List Token) :
    (reader.readOver tokens rest).mode = .code ∧
    walk.run (reader.emittedOver tokens rest) = walk := by
  refine Reader.isReader.foldl_emittedOver (P := (·.mode = .code))
    (fun token hMem reader rest hCode => ?_) hCode
  have hText : token.text = "" := String.isEmpty_iff.1 (hEmpty token hMem)
  have hBlank : token.isBlank = true := by simp [Token.isBlank, hText]
  have hMode : (reader.readOver [token] rest).mode = reader.mode :=
    Reader.mode_readOver_gaps (by simp [hText])
  refine ⟨hMode.trans hCode, ?_⟩
  rw [Reader.emitted_blank hCode hBlank]
  exact Walk.step_empty (hEmpty token hMem)

end Reading

section Entity

variable {kind : ListKind} {region : Region} {lead text : String} {entities : Words}

/-- The text leads to a list of an entity, of which it has the opening parenthesis. -/
structure OpensList (kind : ListKind) (lead : String) (entities : Words) : Prop where
  folded : Text.foldCase lead = lead
  last : lead.toList.getLast? = some '('
  reads (rest : List Token) : let reader := Reader.readOver {} (tokens none lead).list rest
    reader.mode = .code ∧ reader.isTicked = false ∧ reader.opensCharacter = false
  walks (rest : List Token) :
    let walk := (Walk.start .entityContext).run (Reader.emittedOver {} (tokens none lead).list rest)
    walk.place = .interfaceDeclaration ⟨kind, .entity, lead.utf8ByteSize⟩ {} ∧
    walk.found = { entities }

/-- It is enough to look at the tokens in front of the parenthesis. -/
theorem OpensList.of_front {front : List Token} {start : Nat} (hFolded : Text.foldCase lead = lead)
    (hList : (tokens none lead).list = front ++ [⟨"(", ⟨start, lead.utf8ByteSize⟩⟩])
    (hLast : lead.toList.getLast? = some '(')
    (hFront : ∀ rest,
      let reader := Reader.readOver {} front (⟨"(", ⟨start, lead.utf8ByteSize⟩⟩ :: rest)
      let walk := (Walk.start .entityContext).run
        (Reader.emittedOver {} front (⟨"(", ⟨start, lead.utf8ByteSize⟩⟩ :: rest))
      reader.mode = .code ∧ reader.opensCharacter = false ∧
        walk.place = .interfaceListOpen kind .entity ∧ walk.found = { entities }) :
    OpensList kind lead entities := by
  set parenthesis : Token := ⟨"(", ⟨start, lead.utf8ByteSize⟩⟩ with hParenthesis
  have hText : parenthesis.text = "(" ∨ parenthesis.text = ")" := .inl rfl
  refine ⟨hFolded, hLast, fun rest => ?_, fun rest => ?_⟩
  all_goals
    obtain ⟨hCode, hOpens, hPlace, hFound⟩ := hFront rest
    have hCharacter :
      (Reader.readOver {} front (parenthesis :: rest)).isCharacter rest = false := by
      rw [Reader.isCharacter_eq, hOpens, Bool.false_and]
    obtain ⟨hRead, hEmitted⟩ := Reader.read_parenthesis hCode hText hCharacter
  · have hReader : Reader.readOver {} (front ++ [parenthesis]) rest =
        (Reader.readOver {} front (parenthesis :: rest)).read parenthesis rest := by
      rw [Reader.isReader.readOver_append]
      rfl
    rw [hList, hReader]
    dsimp only
    rw [Reader.isTicked_read, Reader.opensCharacter_read, hRead]
    exact ⟨rfl, rfl, Bool.and_false _⟩
  · have hEvents : Reader.emittedOver {} (front ++ [parenthesis]) rest =
        Reader.emittedOver {} front (parenthesis :: rest) ++
          (Reader.readOver {} front (parenthesis :: rest)).emitted parenthesis rest := by
      rw [Reader.isReader.emittedOver_append]
      exact congrArg _ (List.append_nil _)
    rw [hList, hEvents, Walk.run_append, hEmitted]
    generalize (Walk.start .entityContext).run _ = walk at hPlace hFound
    obtain ⟨place, generates, label, found, notes⟩ := walk
    obtain rfl : place = .interfaceListOpen kind .entity := hPlace
    exact ⟨rfl, hFound⟩

theorem opensList_generics : OpensList .generics "entity e is generic (" ⟨#[⟨"e", ⟨7, 8⟩⟩]⟩ := by
  have hList : (tokens none "entity e is generic (").list =
      [⟨"entity", ⟨0, 6⟩⟩, ⟨" ", ⟨6, 7⟩⟩, ⟨"e", ⟨7, 8⟩⟩, ⟨" ", ⟨8, 9⟩⟩, ⟨"is", ⟨9, 11⟩⟩,
        ⟨" ", ⟨11, 12⟩⟩, ⟨"generic", ⟨12, 19⟩⟩, ⟨" ", ⟨19, 20⟩⟩, ⟨"", ⟨20, 20⟩⟩] ++
      [⟨"(", ⟨20, 21⟩⟩] := by
    decide +kernel
  exact .of_front (by decide +kernel) hList (by decide +kernel) fun _ => ⟨rfl, rfl, rfl, rfl⟩

theorem opensList_ports : OpensList .ports "entity e is port (" ⟨#[⟨"e", ⟨7, 8⟩⟩]⟩ := by
  have hList : (tokens none "entity e is port (").list =
      [⟨"entity", ⟨0, 6⟩⟩, ⟨" ", ⟨6, 7⟩⟩, ⟨"e", ⟨7, 8⟩⟩, ⟨" ", ⟨8, 9⟩⟩, ⟨"is", ⟨9, 11⟩⟩,
        ⟨" ", ⟨11, 12⟩⟩, ⟨"port", ⟨12, 16⟩⟩, ⟨" ", ⟨16, 17⟩⟩, ⟨"", ⟨17, 17⟩⟩] ++
      [⟨"(", ⟨17, 18⟩⟩] := by
    decide +kernel
  exact .of_front (by decide +kernel) hList (by decide +kernel) fun _ => ⟨rfl, rfl, rfl, rfl⟩

/-- The rest of an entity behind its list: a semicolon, and `end` with one behind it. -/
theorem Reader.upcoming_ending {passed : Option Token} (span : Span) (before : Option Lexeme)
    (events : Array Event) (size : Nat) (front semicolon back blank word last : Span) :
    let reader : Reader := ⟨.code, (some ⟨")", span⟩, passed), before, events⟩
    let ending : Lexeme := .ofToken ⟨"end", word⟩
    reader.upcoming size
        [⟨"", front⟩, ⟨";", semicolon⟩, ⟨"", back⟩, ⟨" ", blank⟩, ⟨"end", word⟩, ⟨";", last⟩] =
      [.filler ⟨"", front⟩, .word (.ofToken ⟨";", semicolon⟩) before ending, .filler ⟨"", back⟩,
        .filler ⟨" ", blank⟩,
        .word ending (some (.ofToken ⟨";", semicolon⟩)) (some (.ofToken ⟨";", last⟩)),
        .word (.ofToken ⟨";", last⟩) ending none] := by
  simp [upcoming, readAll, read, readCode, forget, finish, emit, isPunctuation, isCharacter,
    Token.isBlank, Text.isAsciiBlank, Token.nextSignificant, comments]

/-- The rest of an entity behind its list declares nothing. -/
theorem found_behind {walk : Walk} {passed : Option Token} (hPlace : walk.place = .entityHeader)
    (span : Span) (before : Option Lexeme) (events : Array Event) (move : Nat → Nat) (size : Nat) :
    let reader : Reader := ⟨.code, (some ⟨")", span⟩, passed), before, events⟩
    ((walk.run (reader.upcoming size ((tokens none "; end;").list.map (·.moved move)))).finish
      size).found = walk.found := by
  have hList : (tokens none "; end;").list =
      [⟨"", ⟨0, 0⟩⟩, ⟨";", ⟨0, 1⟩⟩, ⟨"", ⟨1, 1⟩⟩, ⟨" ", ⟨1, 2⟩⟩, ⟨"end", ⟨2, 5⟩⟩,
        ⟨";", ⟨5, 6⟩⟩] := by
    decide +kernel
  obtain ⟨place, generates, label, found, notes⟩ := walk
  obtain rfl : place = .entityHeader := hPlace
  rw [hList]
  simp only [List.map_cons, List.map_nil, Token.moved]
  rw [Reader.upcoming_ending]
  rfl
theorem closesCharacter_moved (move : Nat → Nat) (tokens : List Token) :
    closesCharacter (tokens.map (·.moved move)) = closesCharacter tokens := by
  cases tokens with
  | nil => rfl
  | cons token rest => cases rest <;> rfl

/-- The parenthesis behind the last element ends it. -/
theorem Walk.found_close {walk : Walk} {reader : Reader} {list : InterfaceList} {element : Element}
    (hCode : reader.mode = .code) (hPlace : walk.place = .interfaceDeclaration list element)
    (hOwner : list.owner = .entity) (hDepth : element.depth = 0) (move : Nat → Nat) (span : Span)
    (size : Nat) :
    ((walk.run (reader.upcoming size
        (⟨")", span⟩ :: (tokens none "; end;").list.map (·.moved move)))).finish size).found =
      ((walk.completeElement list element).closeList list span.start).found := by
  set parenthesis : Token := ⟨")", span⟩ with hParenthesis
  set behind := (tokens none "; end;").list.map (·.moved move) with hBehind
  have hCharacter : reader.isCharacter behind = false := by
    have hNone : closesCharacter (tokens none "; end;").list = false := by decide +kernel
    rw [Reader.isCharacter_eq, hBehind, closesCharacter_moved, hNone, Bool.and_false]
  have hText : parenthesis.text = "(" ∨ parenthesis.text = ")" := .inr rfl
  obtain ⟨hRead, hEmitted⟩ := Reader.read_parenthesis hCode hText hCharacter
  set next := (Token.nextSignificant comments none behind).map Lexeme.ofToken with hNext
  set closed := walk.step (.word (.ofToken parenthesis) reader.before next) with hClosed
  have hClose : closed.place = .entityHeader ∧
      closed.found = ((walk.completeElement list element).closeList list span.start).found := by
    have hSymbol : (Lexeme.ofToken parenthesis).symbol = .parenClose := rfl
    have hNoted :
        (walk.note (.visited walk.place.region.name (Lexeme.ofToken parenthesis).text)).place =
        .interfaceDeclaration list element := hPlace
    rw [hClosed, step, read, hNoted]
    dsimp only
    rw [readInterface, Element.read_endOfList hDepth hSymbol]
    refine ⟨by rw [place_closeList, hOwner]; rfl, ?_⟩
    rw [found_closeList, found_closeList]
    rfl
  rw [Reader.isReader.upcoming_eq, hEmitted, run_append, hRead]
  exact (found_behind hClose.1 span _ _ move size).trans hClose.2

theorem delimiters_areMarks :
    Delimiter.IsMark delimiters '(' ∧ Delimiter.IsMark delimiters ')' := by
  decide

/-- Between its parentheses a list has the tokens that it has alone, apart from an empty one at its
end. -/
theorem list_enclosed (h : OpensList kind lead entities) (text : String) : ∃ inner opened,
    SplitsUpTo delimiters 0 (Text.foldCase text).toList inner opened ∧
    ∀ stop, stop = lead.utf8ByteSize + text.utf8ByteSize →
      (tokens none (lead ++ text ++ "); end;")).list = (tokens none lead).list ++
        (inner.map (·.moved (lead.utf8ByteSize + ·)) ++ (SplitsUpTo.bridge opened stop ++
          ⟨")", ⟨stop, stop + 1⟩⟩ ::
            (tokens none "; end;").list.map (·.moved (stop + 1 + ·)))) := by
  obtain ⟨hOpen, hClose⟩ := delimiters_areMarks
  obtain ⟨first, opensFirst, hFirst⟩ := SplitsUpTo.total delimiters 0 (Text.foldCase lead).toList
  obtain ⟨inner, opened, hInner⟩ := SplitsUpTo.total delimiters 0 (Text.foldCase text).toList
  obtain ⟨last, opensLast, hLast⟩ :=
    SplitsUpTo.total delimiters 0 (Text.foldCase "; end;").toList
  have hBlank : .blank ∈ delimiters := by decide
  obtain rfl : opensLast = false :=
    hLast.opened_of_mark (show Delimiter.IsMark delimiters ';' by decide) (by decide +kernel)
  have hListFirst := list_tokens hFirst
  rw [h.folded] at hFirst
  obtain rfl := hFirst.opened_of_mark hOpen h.last
  refine ⟨inner, opened, hInner, ?_⟩
  rintro _ rfl
  have hLead : utf8Len lead.toList = lead.utf8ByteSize := String.utf8Len_toList lead
  have hText : utf8Len (Text.foldCase text).toList = text.utf8ByteSize := by
    rw [String.utf8Len_toList, Text.utf8ByteSize_foldCase]
  have hBoth := hFirst.enclosed hOpen hClose hBlank h.last (hInner.shifted _) (hLast.shifted _)
  have hWhole : (Text.foldCase (lead ++ text ++ "); end;")).toList =
      lead.toList ++ ((Text.foldCase text).toList ++ ')' :: (Text.foldCase "; end;").toList) := by
    have hBehind : (Text.foldCase "); end;").toList = ')' :: (Text.foldCase "; end;").toList := by
      decide +kernel
    rw [Text.foldCase_append, Text.foldCase_append, String.toList_append,
      String.toList_append, h.folded, hBehind, List.append_assoc]
  rw [← hWhole, hLead, hText, Nat.zero_add] at hBoth
  rw [list_tokens hBoth, hListFirst, list_tokens hLast]
  have hMark : Token.placed (lead.utf8ByteSize + text.utf8ByteSize) [')'] = ⟨")",
      ⟨lead.utf8ByteSize + text.utf8ByteSize, lead.utf8ByteSize + text.utf8ByteSize + 1⟩⟩ := rfl
  have hSize : ')'.utf8Size = 1 := rfl
  rw [hMark, hSize]
  simp [SplitsUpTo.closing]

/-- What is read of the inside of a list is read alike when the list is all of the text. -/
theorem Reader.readOver_enclosed {reader : Reader} {inner rest rest' : List Token}
    {move : Nat → Nat}
    (hReader : reader.mode = .code ∧ reader.isTicked = false ∧ reader.opensCharacter = false)
    (hRest : leadsTick rest = false ∧ closesCharacter rest = false)
    (hRest' : leadsTick rest' = false ∧ closesCharacter rest' = false) :
    (reader.readOver (inner.map (·.moved move)) rest').mode =
        (Reader.readOver {} inner rest).mode.moved move ∧
      (reader.emittedOver (inner.map (·.moved move)) rest').map Event.bare =
        ((Reader.emittedOver {} inner rest).map (·.moved move)).map Event.bare := by
  obtain ⟨hCode, hTicked, hOpens⟩ := hReader
  -- What is behind the tokens is not seen, and so they are read as if nothing was.
  have hAhead : ∀ (other : Reader) (tokens ahead : List Token),
      leadsTick ahead = false ∧ closesCharacter ahead = false →
      (other.readOver tokens ahead).mode = (other.readOver tokens []).mode ∧
        (other.emittedOver tokens ahead).map Event.bare =
          (other.emittedOver tokens []).map Event.bare := by
    rintro other tokens ahead ⟨hTick, hCloses⟩
    have hForget : (other.readOver tokens ahead).forget = (other.readOver tokens []).forget :=
      forget_readOver_ahead hTick hCloses other tokens
    have hMode : (other.readOver tokens ahead).forget.mode =
        (other.readOver tokens []).forget.mode := by
      rw [hForget]
    exact ⟨hMode, emittedOver_bare hTick hCloses⟩
  set plain : Reader := { reader with before := none } with hPlain
  have hMatches : Matches move {} plain.forget := ⟨hCode, rfl, hTicked, hOpens, by simp [forget]⟩
  have hSees : Sees move (readOver {} inner []).mode [] [] := .nil move _
  have hBefore := reader.readOver_before none (inner.map (·.moved move)) []
  constructor
  · have hForget : (plain.forget.readOver (inner.map (·.moved move)) []).forget.mode =
        (plain.readOver (inner.map (·.moved move)) []).forget.mode := by
      rw [isReader.forget_readOver]
    calc (reader.readOver (inner.map (·.moved move)) rest').mode
        = (plain.readOver (inner.map (·.moved move)) []).mode :=
          (hAhead _ _ _ hRest').1.trans hBefore.1.symm
      _ = (readOver {} inner []).mode.moved move :=
          hForget.symm.trans (hMatches.readOver hSees).mode
      _ = (readOver {} inner rest).mode.moved move := by rw [(hAhead _ _ _ hRest).1]
  · have hBare : Event.bare ∘ Event.moved move = Event.moved move ∘ Event.bare := by
      funext event
      cases event <;> rfl
    calc (reader.emittedOver (inner.map (·.moved move)) rest').map Event.bare
        = (plain.emittedOver (inner.map (·.moved move)) []).map Event.bare :=
          (hAhead _ _ _ hRest').2.trans hBefore.2.symm
      _ = ((emittedOver {} inner []).map (·.moved move)).map Event.bare := by
          have hForget : plain.forget.forget = plain.forget := rfl
          rw [← hMatches.emittedOver_eq hSees, emittedOver_congr hForget]
      _ = ((emittedOver {} inner rest).map (·.moved move)).map Event.bare := by
          rw [List.map_map, List.map_map, hBare, ← List.map_map, ← List.map_map,
            (hAhead _ _ _ hRest).2]

end Entity

section Tables

variable {kind : ListKind} {region : Region} {lead text : String} {entities : Words}
  {inner : List Token} {opened : Bool}

theorem Place.isAlone_of_endsList {place : Place} (h : place.endsList = true) :
    place.isAlone = true := by
  cases place with
  | interfaceDeclaration list element =>
      rw [endsList, Bool.and_eq_true] at h
      exact h.1
  | _ => cases h

/-- Where a list may end is not a matter of places. -/
theorem Place.endsList_moved (move : Nat → Nat) {place : Place} (h : place.endsList = true) :
    (place.moved move).endsList = true := by
  cases place with
  | interfaceDeclaration list element =>
      obtain ⟨kind, owner, inside⟩ := list
      rw [endsList, Bool.and_eq_true, decide_eq_true_eq, decide_eq_true_eq] at h
      obtain ⟨rfl, hDepth⟩ : owner = .text ∧ element.depth = 0 := h
      rw [Place.moved, endsList, Bool.and_eq_true, decide_eq_true_eq, decide_eq_true_eq]
      exact ⟨rfl, hDepth⟩
  | _ => cases h

/-- Nothing comes with the end of a text that ends in a list. -/
theorem EndsInList.readEvents_eq (h : EndsInList region text) :
    readEvents text.utf8ByteSize (tokens none text).list = (readerAt none text).events.toList := by
  have hMode : (Reader.readAll {} (tokens none text).list).mode = .code := h.code
  rw [readEvents, Reader.finish, hMode]
  rfl

/-- The walk through a text that ends in a list is that over the tokens of the list: an empty token
at the end is nothing. -/
theorem EndsInList.inside (h : EndsInList region text)
    (hInner : SplitsUpTo delimiters 0 (Text.foldCase text).toList inner opened) : ∃ rest,
    (leadsTick rest = false ∧ closesCharacter rest = false) ∧
    (Reader.readOver {} inner rest).mode = .code ∧
    walkAt region none text = (Walk.start region).run (Reader.emittedOver {} inner rest) ∧
    ∀ event ∈ Reader.emittedOver {} inner rest,
      event ∈ readEvents text.utf8ByteSize (tokens none text).list := by
  set last := SplitsUpTo.closing false opened text.utf8ByteSize with hLast
  have hAlone : (tokens none text).list = inner ++ last := list_tokens hInner
  obtain ⟨hEmpty, hRest⟩ : (∀ token ∈ last, token.isEmpty = true) ∧
      leadsTick last = false ∧ closesCharacter last = false := by
    rw [hLast, SplitsUpTo.closing]
    cases opened <;> simp [leadsTick, closesCharacter, Token.placed, Token.isEmpty]
  set near := Reader.readOver {} inner last with hNear
  have hReader : readerAt none text = near.readOver last [] := by
    rw [readerAt, hAlone, Reader.isReader.readAll_eq_readOver, Reader.isReader.readOver_append,
      List.append_nil]
  have hCode : near.mode = .code := by
    have hMode : (near.readOver last []).mode = near.mode := by
      refine Reader.mode_readOver_gaps fun token hMem c hChar => ?_
      rw [String.isEmpty_iff.1 (hEmpty token hMem)] at hChar
      cases hChar
    rw [← hMode, ← hReader]
    exact h.code
  have hEvents : (readerAt none text).events.toList =
      Reader.emittedOver {} inner last ++ near.emittedOver last [] := by
    have hAll := Reader.isReader.emittedOver_append {} inner last []
    rw [Reader.isReader.emittedOver_eq, ← hAlone, ← Reader.isReader.readAll_eq_readOver,
      List.append_nil] at hAll
    exact hAll
  refine ⟨last, hRest, hCode, ?_, fun event hMem => ?_⟩
  · rw [walkAt, hEvents, Walk.run_append]
    exact (Walk.run_empties _ hCode hEmpty []).2
  · rw [h.readEvents_eq, hEvents]
    exact List.mem_append_left _ hMem

/-- The walk through the list alone, and the walk over the list in the entity. -/
theorem EndsInList.isLent (h : EndsInList region text) (hLead : OpensList kind lead entities)
    (hStart : Place.ofEntry? region = some (.interfaceDeclaration ⟨kind, .text, 0⟩ {}))
    (hInner : SplitsUpTo delimiters 0 (Text.foldCase text).toList inner opened) {rest : List Token}
    (hRest : leadsTick rest = false ∧ closesCharacter rest = false) :
    let first := (tokens none lead).list
    let second := inner.map (·.moved (lead.utf8ByteSize + ·))
    let near := Reader.readOver {} first (second ++ rest)
    let walk := ((Walk.start .entityContext).run (Reader.emittedOver {} first (second ++ rest))).run
      (near.emittedOver second rest)
    (near.readOver second rest).mode = .code ∧
      ((walkAt region none text).within ⟨(lead.utf8ByteSize + ·), { entities }, []⟩).IsLent kind
        lead.utf8ByteSize walk := by
  intro first second near walk
  set embedding : Embedding := ⟨(lead.utf8ByteSize + ·), { entities }, []⟩ with hEmbedding
  obtain ⟨rest', hRest', hCode, hWalk, hEvents⟩ := h.inside hInner
  have hMove : Monotone embedding.move := fun _ _ hLe => Nat.add_le_add_left hLe _
  have hRigid : ∀ event ∈ Reader.emittedOver {} inner rest', event.All (·.IsRigid embedding.move) :=
    fun event hMem => events_areRigid text _ event (hEvents event hMem)
  have hInside := Walk.run_within (.start region) hMove hRigid
  rw [← hWalk] at hInside
  obtain ⟨hMode, hBare⟩ := Reader.readOver_enclosed (hLead.reads (second ++ rest)) hRest' hRest
  have hAlone : ((walkAt region none text).within embedding).place.isAlone = true :=
    Place.isAlone_of_endsList (Place.endsList_moved embedding.move h.place)
  refine ⟨hMode.trans (by rw [hCode]; rfl), ?_⟩
  have hBegin : ((Walk.start region).within embedding).IsLent kind lead.utf8ByteSize
      ((Walk.start .entityContext).run (Reader.emittedOver {} first (second ++ rest))) := by
    obtain ⟨hPlace, hFound⟩ := hLead.walks (second ++ rest)
    refine ⟨⟨{}, ?_, hPlace⟩, hFound.trans ?_⟩
    · rw [Walk.start, hStart]
      rfl
    · have hSettled : Findings.Settled { entities } none := by
        simp [Findings.Settled, Findings.lists]
      rw [Walk.start, hStart]
      exact (Findings.followedBy_empty hSettled _).symm
  rw [← hInside] at hAlone ⊢
  exact hBegin.run hBare hAlone

/-- What is found in the list is found in the entity behind its name. -/
theorem EndsInList.found_enclosed (h : EndsInList region text)
    (hLead : OpensList kind lead entities)
    (hStart : Place.ofEntry? region = some (.interfaceDeclaration ⟨kind, .text, 0⟩ {})) :
    let unit := lead ++ text ++ "); end;"
    (walkThrough .entityContext (readEvents unit.utf8ByteSize (tokens none unit).list)
        unit.utf8ByteSize).found =
      (walkThrough region (readEvents text.utf8ByteSize (tokens none text).list)
        text.utf8ByteSize).found.within ⟨(lead.utf8ByteSize + ·), { entities }, []⟩ := by
  intro unit
  set embedding : Embedding := ⟨(lead.utf8ByteSize + ·), { entities }, []⟩ with hEmbedding
  have hMove : Monotone embedding.move := fun _ _ hLe => Nat.add_le_add_left hLe _
  obtain ⟨inner, opened, hInner, hList⟩ := list_enclosed hLead text
  have hList := hList _ rfl
  set stop := lead.utf8ByteSize + text.utf8ByteSize with hStop
  set bridge := SplitsUpTo.bridge opened stop with hBridge
  set behind := Token.mk ")" ⟨stop, stop + 1⟩ ::
    (tokens none "; end;").list.map (·.moved (stop + 1 + ·)) with hBehind
  have hEmpty : ∀ token ∈ bridge, token.isEmpty = true := fun _ => SplitsUpTo.isEmpty_of_mem_bridge
  have hRest : leadsTick (bridge ++ behind) = false ∧
      closesCharacter (bridge ++ behind) = false := by
    rw [hBridge, hBehind, SplitsUpTo.bridge]
    cases opened <;> simp [leadsTick, closesCharacter_cons, Token.placed, Token.isEmpty]
  obtain ⟨hCode, hLent⟩ := h.isLent hLead hStart hInner hRest
  set first := (tokens none lead).list with hFirst
  set second := inner.map (·.moved (lead.utf8ByteSize + ·)) with hSecond
  set near := Reader.readOver {} first (second ++ (bridge ++ behind)) with hNear
  set there := ((Walk.start .entityContext).run
    (Reader.emittedOver {} first (second ++ (bridge ++ behind)))).run
      (near.emittedOver second (bridge ++ behind)) with hThere
  obtain ⟨hLater, hNothing⟩ := there.run_empties hCode hEmpty behind
  have hRun : (Walk.start .entityContext).run
      (readEvents unit.utf8ByteSize (tokens none unit).list) =
      there.run (((near.readOver second (bridge ++ behind)).readOver bridge behind).upcoming
        unit.utf8ByteSize behind) := by
    rw [readEvents_eq_upcoming, hList, Reader.isReader.upcoming_append,
      Reader.isReader.upcoming_append, Reader.isReader.upcoming_append, Walk.run_append,
      Walk.run_append, Walk.run_append, hNothing]
  -- The text of the list alone ends where the parenthesis stands in the entity.
  have hAll : (walkAt region none text).All (·.IsRigid embedding.move) := by
    have hRigid := events_areRigid text lead.utf8ByteSize
    rw [h.readEvents_eq] at hRigid
    exact Walk.All.run (.start region) (isRigid_inherited _) hRigid
  have hFinish := Walk.finish_within hAll hMove text.utf8ByteSize
  obtain ⟨element, hPlace, hPlace'⟩ := hLent.place
  have hDepth : element.depth = 0 := by
    have hEnds : ((walkAt region none text).within embedding).place.endsList = true :=
      Place.endsList_moved embedding.move h.place
    rw [hPlace, Place.endsList, Bool.and_eq_true, decide_eq_true_eq, decide_eq_true_eq] at hEnds
    exact hEnds.2
  rw [Walk.finish_interface hPlace rfl] at hFinish
  have hAlone := congrArg Walk.found hFinish
  have hClose := Walk.found_close hLater hPlace' rfl hDepth (stop + 1 + ·) ⟨stop, stop + 1⟩
    unit.utf8ByteSize
  rw [walkThrough_eq region none text, walkThrough, hRun]
  refine hClose.trans (Eq.trans ?_ hAlone)
  rw [Walk.found_closeList, Walk.found_closeList, Walk.completeElement, Walk.completeElement,
    Walk.collect, Walk.collect, hLent.found]

/-- Behind the name of an entity, what is declared is at other places. -/
theorem Findings.lists_within (found : Findings) (move : Nat → Nat) :
    (found.within ⟨move, { entities }, []⟩).lists =
      found.lists.map fun list => (list.1, list.2.moved move) := by
  simp [lists, within, followedBy, Findings.moved, Declarations.followedBy, Declarations.moved]

/-- The clause of a text that is nothing but generics is all of the text. -/
theorem EndsInList.clause (h : EndsInList region text) (hLead : OpensList .generics lead entities)
    (hStart : Place.ofEntry? region = some (.interfaceDeclaration ⟨.generics, .text, 0⟩ {})) :
    (walkThrough region (readEvents text.utf8ByteSize (tokens none text).list)
      text.utf8ByteSize).found.genericClause = some ⟨0, text.utf8ByteSize⟩ := by
  obtain ⟨inner, opened, hInner⟩ := SplitsUpTo.total delimiters 0 (Text.foldCase text).toList
  have hNil : leadsTick [] = false ∧ closesCharacter [] = false := ⟨rfl, rfl⟩
  obtain ⟨element, hPlace, -⟩ := (h.isLent hLead hStart hInner hNil).2.place
  have hMoved : (walkAt region none text).place.moved (lead.utf8ByteSize + ·) =
      .interfaceDeclaration ⟨.generics, .text, lead.utf8ByteSize⟩ element := hPlace
  have hEnds := h.place
  rw [walkThrough_eq]
  cases hHere : (walkAt region none text).place with
  | interfaceDeclaration list last =>
      rw [hHere] at hMoved hEnds
      rw [Place.endsList, Bool.and_eq_true, decide_eq_true_eq] at hEnds
      injection hMoved with hList
      have hKind : list.kind = .generics := congrArg (·.kind) hList
      have hInside : lead.utf8ByteSize + list.inside = lead.utf8ByteSize :=
        congrArg (·.inside) hList
      rw [Walk.finish_interface hHere hEnds.1, Walk.found_closeList, if_pos hKind,
        Nat.add_eq_left.1 hInside]
  | _ =>
      rw [hHere] at hEnds
      cases hEnds

/-- A list is read by itself as it is read in an entity, apart from its places. A generic clause is
the text in the parentheses. -/
theorem scan_listInEntity (h : EndsInList region text) (hLead : OpensList kind lead entities)
    (hStart : Place.ofEntry? region = some (.interfaceDeclaration ⟨kind, .text, 0⟩ {})) :
    let alone := (scan region none text).table
    let unit := (scan .entityContext none (lead ++ text ++ "); end;")).table
    unit.lists = alone.lists.map (fun list => (list.1, list.2.moved (lead.utf8ByteSize + ·))) ∧
      (kind = .generics → alone.genericDefinition = text ∧ unit.genericDefinition = text) := by
  intro alone unit
  have hFound := h.found_enclosed hLead hStart
  have hAlone := (settled_walkThrough region (readEvents text.utf8ByteSize (tokens none text).list)
    text.utf8ByteSize).align_eq_self
  have hUnit :=
    (settled_walkThrough .entityContext (readEvents (lead ++ text ++ "); end;").utf8ByteSize
      (tokens none (lead ++ text ++ "); end;")).list)
      (lead ++ text ++ "); end;").utf8ByteSize).align_eq_self
  constructor
  · show (Findings.align _).lists = (Findings.align _).lists.map _
    rw [hUnit, hAlone, hFound, Findings.lists_within]
  · rintro rfl
    have hClause := h.clause hLead hStart
    have hDefinition : alone.genericDefinition = ((Option.map (·.slice text)
        (Findings.genericClause (Findings.align _)))).getD "" := rfl
    have hDefinition' : unit.genericDefinition = ((Option.map (·.slice (lead ++ text ++ "); end;"))
        (Findings.genericClause (Findings.align _)))).getD "" := rfl
    have hAll : (⟨0, text.utf8ByteSize⟩ : Span).Covers text text := ⟨[], [], by simp, by simp⟩
    have hPart : (⟨lead.utf8ByteSize, lead.utf8ByteSize + text.utf8ByteSize⟩ : Span).Covers
        (lead ++ text ++ "); end;") text :=
      ⟨lead.toList, "); end;".toList, by simp, by simp [String.utf8Len_toList]⟩
    constructor
    · rw [hDefinition, hAlone, hClause]
      exact hAll.slice_eq
    · rw [hDefinition', hUnit, hFound, Findings.within, Findings.followedBy,
        Findings.moved, hClause]
      exact hPart.slice_eq

end Tables

end HdlIndex.Vhdl

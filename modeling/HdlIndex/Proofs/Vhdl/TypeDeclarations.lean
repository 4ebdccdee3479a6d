import HdlIndex.Proofs.Computed
import HdlIndex.Proofs.Token.Collected
import HdlIndex.Proofs.Vhdl.LexicalElements
import HdlIndex.Proofs.Vhdl.Passages

/-! Type declarations. The definition of a type is everything between `is` and the semicolon that
stands outside of parentheses, records, unit lists and protected types. -/
namespace HdlIndex.Vhdl

/-- The tokens of a reading are tokens that are read. -/
theorem Reader.mem_of_mem_upcoming {size : Nat} {reader : Reader} {tokens : List Token}
    {event : Event} {token : Token} (hEvent : event ∈ reader.upcoming size tokens)
    (hToken : event.token? = some token) :
    token ∈ tokens := by
  induction tokens generalizing reader with
  | nil =>
      rw [upcoming, readAll, finish] at hEvent
      split at hEvent
      all_goals simp only [forget, List.push_toArray, List.nil_append, List.mem_singleton,
        List.not_mem_nil] at hEvent
      all_goals
        rw [hEvent] at hToken
        cases hToken
  | cons read rest ih =>
      obtain ⟨events, after, hTakes, hUpcoming⟩ := reader.upcoming_cons size read rest
      rw [hUpcoming, List.mem_append] at hEvent
      obtain hHere | hLater := hEvent
      · cases hTakes with
        | opensLine | opensBlock | inLine | inBlock => cases hHere
        | closesLine | closesBlock =>
            rw [List.mem_singleton.1 hHere] at hToken
            cases hToken
        | inString | quote | character | blank | word =>
            rw [List.mem_singleton.1 hHere] at hToken
            obtain rfl := Option.some.inj hToken
            exact List.mem_cons_self
      · exact List.mem_cons_of_mem _ (ih hLater)

/-- The words that open a level of a definition. Behind `end` they close it. -/
def levelWords : List String := ["record", "units", "protected"]

/-- The words are the end of a definition, with `depth` parentheses and `level` levels open in front
of them and the word `end` right there if it is `ended`. Parentheses match, every level is closed,
and semicolons stand inside of levels only. -/
def isDefinition : (depth level : Nat) → (ended : Bool) → List String → Bool
  | depth, level, _, [] => depth == 0 && level == 0
  | depth, level, ended, word :: words =>
    if word = "(" then isDefinition (depth + 1) level false words
    else if word = ")" then depth != 0 && isDefinition (depth - 1) level false words
    else if levelWords.contains word then
      if ended then level != 0 && isDefinition depth (level - 1) false words
      else isDefinition depth (level + 1) false words
    else (word != ";" || level != 0) && isDefinition depth level (word == "end") words

/-- A type declaration as it is read: the words up to `is`, the definition, and the semicolon. -/
structure TypeDeclaration where
  name : String
  heading : List Event
  definition : List Event
  closing : Event
  isName : isNameLike name = true
  unquoted : ∀ event ∈ heading ++ definition, event.IsUnquoted
  opens : texts heading = ["type", name, "is"] ∨ texts heading = ["subtype", name, "is"]
  isDefinition : Vhdl.isDefinition 0 0 false (texts definition) = true
  closes : closing.word?.map (·.text) = some ";"

namespace TypeDeclaration

/-- The events of a declaration. -/
def events (declaration : TypeDeclaration) : List Event :=
  declaration.heading ++ (declaration.definition ++ [declaration.closing])

/-- The characters of the definition's tokens. Comments have none. -/
def chars (declaration : TypeDeclaration) : List Char :=
  (declaration.definition.filterMap Event.token?).flatMap (·.text.toList)

/-- The definition with one space for each run of white space, and none at its ends. -/
def text (declaration : TypeDeclaration) : String :=
  String.ofList (Text.trim (Text.collapse declaration.chars))

end TypeDeclaration

section Definition

variable {base walk : Walk} {home : Home} {name : Word} {depth level : Nat} {capture : Capture}
  {last after : Option Lexeme} {words : List Token} {word : Token} {events : List Event}

/-- The walk inside of a definition. -/
def Walk.Defines (base : Walk) (home : Home) (name : Word) (depth level : Nat) (capture : Capture) :
    Walk → Prop :=
  base.Stands (.typeDeclaration home ⟨some name, level, depth, capture⟩)

/-- The walk with one more type found. -/
def Walk.declareType (walk : Walk) (name : Word) (definition : String) : Walk :=
  walk.collect fun found => { found with types := found.types.push ⟨name, definition⟩ }

namespace Walk

/-- A word that opens a level of a definition closes it behind `end`. -/
theorem readType_level (walk : Walk) (hLevel : word.text ∈ levelWords) :
    walk.readType home ⟨some name, level, depth, capture⟩ (.ofToken word) last =
      walk.goto (.typeDeclaration home ⟨some name,
        if isNext last .end then level - 1 else level + 1, depth, capture.push word⟩) := by
  have hSymbol : (Lexeme.ofToken word).symbol = .ofText word.text := rfl
  rw [readType]
  simp only [hSymbol]
  generalize word.text = text at hLevel
  fin_cases hLevel <;> rfl

/-- A word other than these and parentheses is collected, also a semicolon inside of a level. -/
theorem readType_other (walk : Walk) (hActive : capture.active = true) (hOpen : word.text ≠ "(")
    (hClose : word.text ≠ ")") (hLevel : word.text ∉ levelWords)
    (hSemicolon : word.text = ";" → level ≠ 0) :
    walk.readType home ⟨some name, level, depth, capture⟩ (.ofToken word) last =
      walk.goto (.typeDeclaration home ⟨some name, level, depth, capture.push word⟩) := by
  have hText {spelling : String} (hSpelling : (Lexeme.ofToken word).symbol.spelling? =
      some spelling) : word.text = spelling := Symbol.eq_of_spelling? hSpelling
  rw [readType]
  dsimp only
  split
  · rw [if_pos hActive]
    rfl
  · next hSymbol => exact absurd (hText (by rw [hSymbol]; rfl)) hOpen
  · next hSymbol => exact absurd (hText (by rw [hSymbol]; rfl)) hClose
  · next hSymbol => exact absurd (by rw [hText (by rw [hSymbol]; rfl)]; decide) hLevel
  · next hSymbol => exact absurd (by rw [hText (by rw [hSymbol]; rfl)]; decide) hLevel
  · next hSymbol => exact absurd (by rw [hText (by rw [hSymbol]; rfl)]; decide) hLevel
  · next hSymbol =>
    rw [if_neg (by simp [hSemicolon (hText (by rw [hSymbol]; rfl))])]
    rfl
  · rfl

/-- A word of a definition is collected, and may open or close a parenthesis or a level. -/
theorem Defines.step_word (h : base.Defines home name depth level capture walk)
    (hActive : capture.active = true)
    (hWords : isDefinition depth level (isNext last .end) (word.text :: words.map (·.text)) = true)
    (next : Option Lexeme) :
    ∃ depth' level',
      isDefinition depth' level' (isNext (some (.ofToken word)) .end) (words.map (·.text)) = true ∧
      base.Defines home name depth' level' (capture.push word)
        (walk.step (.word (.ofToken word) last next)) := by
  rw [isNext_ofToken]
  have hNext {depth' level' : Nat} (hRead : ∀ other : Walk,
      other.readType home ⟨some name, level, depth, capture⟩ (.ofToken word) last =
        other.goto (.typeDeclaration home ⟨some name, level', depth', capture.push word⟩)) :
      base.Defines home name depth' level' (capture.push word)
        (walk.step (.word (.ofToken word) last next)) :=
    Stands.step_word h fun notes => ⟨notes, hRead _⟩
  rw [isDefinition] at hWords
  split at hWords
  · next hOpen =>
    have hSymbol : (Lexeme.ofToken word).symbol = .parenOpen := Lexeme.symbol_ofToken hOpen
    refine ⟨depth + 1, level, by rwa [hOpen], hNext fun other => ?_⟩
    simp only [readType, hSymbol]
    rfl
  split at hWords
  · next hClose =>
    have hSymbol : (Lexeme.ofToken word).symbol = .parenClose := Lexeme.symbol_ofToken hClose
    rw [Bool.and_eq_true] at hWords
    refine ⟨depth - 1, level, by rw [hClose]; exact hWords.2, hNext fun other => ?_⟩
    simp only [readType, hSymbol]
    rfl
  split at hWords
  · next hLevel =>
    rw [List.contains_iff_mem] at hLevel
    have hEnd : (word.text == "end") = false := by
      generalize word.text = text at hLevel
      fin_cases hLevel <;> rfl
    refine ⟨depth, if isNext last .end then level - 1 else level + 1, ?_,
      hNext fun other => other.readType_level hLevel⟩
    rw [show Keyword.end.text = "end" from rfl, hEnd]
    split at hWords
    · next hEnded =>
      rw [if_pos hEnded]
      exact (Bool.and_eq_true_iff.1 hWords).2
    · next hEnded => rwa [if_neg hEnded]
  · next hOpen hClose hLevel =>
    rw [List.contains_iff_mem] at hLevel
    obtain ⟨hSemicolon, hWords⟩ := Bool.and_eq_true_iff.1 hWords
    refine ⟨depth, level, hWords, hNext fun other => ?_⟩
    exact other.readType_other hActive hOpen hClose hLevel fun hText => by
      simpa [hText] using hSemicolon

end Walk

/-- A definition is collected as a whole, and leaves nothing open. -/
theorem Reads.run_definition (hReads : Reads last words after events)
    (hActive : capture.active = true)
    (hWords : isDefinition depth level (Walk.isNext last .end) (words.map (·.text)) = true)
    (h : base.Defines home name depth level capture walk) :
    base.Defines home name 0 0 (capture.pushAll (events.filterMap Event.token?))
      (walk.run events) := by
  induction hReads generalizing depth level capture walk with
  | nil last after =>
      simp only [List.map_nil, isDefinition, Bool.and_eq_true, beq_iff_eq] at hWords
      obtain ⟨rfl, rfl⟩ := hWords
      exact h
  | @layout last after words event events hEvent _ ih =>
      cases event with
      | comment span => exact ih hActive hWords h
      | filler token =>
          refine ih (Capture.active_push.trans hActive) hWords ?_
          rw [← Capture.absorb_of_active hActive]
          obtain ⟨notes, rfl⟩ := h
          exact ⟨notes, rfl⟩
      | word here before next => exact hEvent.elim
  | word hRest ih =>
      obtain ⟨depth', level', hWords, h⟩ := h.step_word hActive hWords _
      exact ih (Capture.active_push.trans hActive) hWords h

/-- The semicolon behind a definition ends the declaration. -/
theorem Walk.Defines.step_closing (h : base.Defines home name 0 0 capture walk) {here : Lexeme}
    (hSymbol : here.symbol = .semicolon) (before next : Option Lexeme) :
    (base.declareType name capture.text).Stands home.place
      (walk.step (.word here before next)) := by
  refine Stands.step_word h fun notes => ⟨notes, ?_⟩
  simp only [read, readType, hSymbol]
  rfl

end Definition

section Heading

variable {base : Walk} {home : Home} {keyword name is : Token} {after : Option Lexeme}

/-- The words in front of a definition bring the walk into it. -/
theorem Walk.passes_typeHeading (hHome : base.place.Declares home)
    (hKeyword : keyword.text = "type" ∨ keyword.text = "subtype")
    (hName : isNameLike name.text = true) (hIs : is.text = "is") :
    Passes [keyword, name, is] after (base.At base.place)
      (base.At (.typeDeclaration home ⟨some (Lexeme.ofToken name).word, 0, 0, .fresh⟩)) := by
  refine At.passes (Q := base.At (.typeDeclaration home {}))
    (fun token _ => hHome.absorb token) ?_ ?_
  · intro last notes
    refine ⟨notes, ?_⟩
    have hHere : ({ base with place := base.place, notes } : Walk).place.Declares home := hHome
    obtain hText | hText := hKeyword
    · have hSymbol := Lexeme.symbol_keyword .type hText
      refine (read_declaration hHere (by simp) hSymbol).trans ?_
      rw [readItem, hSymbol]
      rfl
    · have hSymbol := Lexeme.symbol_keyword .subtype hText
      refine (read_declaration hHere (by simp) hSymbol).trans ?_
      rw [readItem, hSymbol]
      rfl
  refine At.passes
    (Q := base.At (.typeDeclaration home { name := some (Lexeme.ofToken name).word }))
    (fun token _ => rfl) ?_ ?_
  · intro last notes
    have hWord : (Lexeme.ofToken name).symbol.isWord = true := by
      rw [Lexeme.symbol_ofToken rfl, Symbol.ofText_of_isNameLike hName]
      split <;> rfl
    exact ⟨notes, if_pos hWord⟩
  refine At.passes (fun token _ => rfl) ?_ (.nil (At.isIdle fun token hBlank => ?_))
  · intro last notes
    refine ⟨notes, ?_⟩
    have hSymbol := Lexeme.symbol_keyword .is hIs
    simp only [read, readType, hSymbol]
    rfl
  · simp only [Place.absorb]
    rw [Capture.absorb_of_active rfl, Capture.push_fresh hBlank]

end Heading

namespace TypeDeclaration

variable (declaration : TypeDeclaration)

/-- The name of the declaration, where it stands. -/
def named? : Option Lexeme := (declaration.heading.filterMap Event.word?)[1]?

/-- The words of the heading. -/
theorem exists_heading {last : Option Lexeme} {rest : List Event}
    (h : Linked last (declaration.heading ++ rest)) :
    ∃ keyword name is after, Reads last [keyword, name, is] after declaration.heading ∧
      (keyword.text = "type" ∨ keyword.text = "subtype") ∧ name.text = declaration.name ∧
      is.text = "is" := by
  obtain ⟨words, after, hReads, hWords, -⟩ :=
    h.exists_reads fun event hMem => declaration.unquoted event (List.mem_append_left _ hMem)
  obtain hOpens | hOpens := declaration.opens
  all_goals
    simp only [hOpens, List.map_eq_cons_iff, List.map_eq_nil_iff] at hWords
    obtain ⟨keyword, _, rfl, hKeyword, name, _, rfl, hName, is, _, rfl, hIs, rfl⟩ := hWords
  · exact ⟨keyword, name, is, after, hReads, .inl hKeyword, hName, hIs⟩
  · exact ⟨keyword, name, is, after, hReads, .inr hKeyword, hName, hIs⟩

/-- The definition is collected with one space for each run of white space. -/
theorem text_pushAll {limit : Option Nat} {size : Nat} {text : String} {front rest : List Event}
    (hText : readEvents size (tokens limit text).list = front ++ (declaration.events ++ rest))
    (hTab : '\x0b' ∉ declaration.chars) :
    (Capture.fresh.pushAll (declaration.definition.filterMap Event.token?)).text =
      declaration.text := by
  have hUniform : ∀ token ∈ declaration.definition.filterMap Event.token?,
      Text.IsUniform token.text.toList := by
    intro token hMem
    obtain ⟨event, hEvent, hToken⟩ := List.mem_filterMap.1 hMem
    have hRead : event ∈ Reader.upcoming size {} (tokens limit text).list := by
      rw [← readEvents_eq_upcoming, hText]
      simp [events, hEvent]
    exact tokenize_isUniform delimiters_areBroken limit _ token
      (Reader.mem_of_mem_upcoming hRead hToken)
      fun hChar => hTab (List.mem_flatMap_of_mem hMem hChar)
  rw [Capture.pushAll_eq_foldl hUniform, Capture.text_foldl_pushChar_trim]
  rfl

end TypeDeclaration

/-- Where declarations are read, a type declaration adds its name and its definition, and behind its
semicolon declarations are read again. -/
theorem run_typeDeclaration (start : Walk) (limit : Option Nat) (size : Nat) (text : String)
    (declaration : TypeDeclaration) (front rest : List Event) (home : Home)
    (hText : readEvents size (tokens limit text).list = front ++ (declaration.events ++ rest))
    (hHome : (start.run front).place.Declares home) (hTab : '\x0b' ∉ declaration.chars) :
    ∃ named ∈ declaration.named?, named.text = declaration.name ∧
      ((start.run front).declareType named.word declaration.text).Stands home.place
        (start.run (front ++ declaration.events)) := by
  have hLinked := linked_readEvents size (tokens limit text).list
  rw [hText] at hLinked
  obtain ⟨last, hLinked⟩ := hLinked.exists_behind
  rw [TypeDeclaration.events, List.append_assoc, List.append_assoc] at hLinked
  obtain ⟨keyword, name, is, after, hHeading, hKeyword, hName, hIs⟩ :=
    declaration.exists_heading hLinked
  replace hLinked := hLinked.behind hHeading
  obtain ⟨words, behind, hDefinition, hWords, -⟩ := hLinked.exists_reads fun event hMem =>
    declaration.unquoted event (List.mem_append_right _ hMem)
  replace hLinked := hLinked.behind hDefinition
  -- The walk through the heading, through the definition, and over the semicolon.
  have hIn := Walk.passes_typeHeading hHome hKeyword (hName ▸ declaration.isName) hIs _ _ _ hHeading
    ⟨(start.run front).notes, rfl⟩
  have hEnded : Walk.isNext (lastOf last [keyword, name, is]) .end = false := by
    refine (isNext_ofToken is .end).trans ?_
    rw [hIs]
    rfl
  have hOut :=
    hDefinition.run_definition rfl (by rw [hEnded, hWords]; exact declaration.isDefinition) hIn
  obtain ⟨here, before, next, hClosing⟩ : ∃ here before next, declaration.closing =
      .word here before next := by
    cases hEvent : declaration.closing with
    | word here before next => exact ⟨here, before, next, rfl⟩
    | comment | filler =>
        have hCloses := declaration.closes
        rw [hEvent] at hCloses
        cases hCloses
  rw [hClosing] at hLinked
  have hSemicolon : here.symbol = .semicolon := by
    have hCloses := declaration.closes
    rw [hClosing] at hCloses
    rw [hLinked.1, Lexeme.symbol_ofToken (Option.some.inj hCloses)]
    rfl
  have hHere := hOut.step_closing hSemicolon before next
  rw [declaration.text_pushAll hText hTab] at hHere
  refine ⟨.ofToken name, ?_, hName, ?_⟩
  · rw [TypeDeclaration.named?, hHeading.filterMap_word?]
    rfl
  · rw [TypeDeclaration.events, hClosing]
    simpa only [Walk.run, List.foldl_append, List.foldl_cons, List.foldl_nil] using hHere

/-- A record inside of a record. -/
def nestedText : String :=
  "package p is type t is  record a : record b : u; end\nrecord; end record ; end;"

/-- Its reading: three words of the package with the spaces behind them, and then the
declaration. -/
def nestedEvents : List Event := readEvents nestedText.utf8ByteSize (tokens none nestedText).list

/-- A record inside of a record, whose text goes up to the outer end. -/
theorem run_typeDeclaration_nested :
    ((Walk.start .entityContext).run (nestedEvents.take 6)).place = .packageDeclarations ∧
      (((Walk.start .entityContext).run (nestedEvents.take 6)).declareType ⟨"t", ⟨18, 19⟩⟩
        "record a : record b : u; end record; end record").Stands .packageDeclarations
        ((Walk.start .entityContext).run (nestedEvents.take 44)) := by
  let heading := (nestedEvents.drop 6).take 5
  let inside := (nestedEvents.drop 11).take 32
  let closing := (nestedEvents.drop 43).headD (.comment ⟨0, 0⟩)
  let chars := (inside.filterMap Event.token?).flatMap (·.text.toList)
  have hEvents : nestedEvents = readEvents nestedText.utf8ByteSize (computed nestedText).list := by
    rw [nestedEvents, tokens_computed]
  -- All of this is computed at once, from one reading of the text.
  obtain ⟨hPlace, hUnquoted, hOpens, hDefinition, hCloses, hNamed, hTab, hText, hAll, hFirst⟩ :
      ((Walk.start .entityContext).run (nestedEvents.take 6)).place = .packageDeclarations ∧
      (∀ event ∈ heading ++ inside, event.IsUnquoted) ∧ texts heading = ["type", "t", "is"] ∧
      isDefinition 0 0 false (texts inside) = true ∧ closing.word?.map (·.text) = some ";" ∧
      (heading.filterMap Event.word?)[1]?.map (·.word) = some ⟨"t", ⟨18, 19⟩⟩ ∧ '\x0b' ∉ chars ∧
      String.ofList (Text.trim (Text.collapse chars)) =
        "record a : record b : u; end record; end record" ∧
      nestedEvents = nestedEvents.take 6 ++
        ((heading ++ (inside ++ [closing])) ++ nestedEvents.drop 44) ∧
      nestedEvents.take 6 ++ (heading ++ (inside ++ [closing])) = nestedEvents.take 44 := by
    simp only [heading, inside, closing, chars, hEvents]
    decide +kernel
  let declaration : TypeDeclaration :=
    ⟨"t", heading, inside, closing, by decide, hUnquoted, .inl hOpens, hDefinition, hCloses⟩
  obtain ⟨named, hMem, -, hStands⟩ :=
    run_typeDeclaration (.start .entityContext) none nestedText.utf8ByteSize
      nestedText declaration (nestedEvents.take 6) (nestedEvents.drop 44) .packageDeclarations hAll
      (.inl ⟨hPlace, by decide⟩) hTab
  have hWord : declaration.named?.map (·.word) = some ⟨"t", ⟨18, 19⟩⟩ := hNamed
  rw [Option.mem_def.1 hMem, Option.map_some, Option.some.injEq] at hWord
  rw [hWord, show declaration.text = _ from hText, show _ ++ declaration.events =
    _ from hFirst] at hStands
  exact ⟨hPlace, hStands⟩

/-- A vertical tab is white space between two words, and it is no blank. So `record` does not stand
right behind `end`, opens one more level, and what follows is taken for the definition. -/
theorem scan_typeDeclaration_verticalTab :
    let table (gap : String) := (scan .entityContext none
      ("package p is type t is record a : b; end" ++ gap ++ "record; signal s : bit; end;")).table
    ((table " ").types = #[⟨⟨"t", ⟨18, 19⟩⟩, "record a : b; end record"⟩] ∧
      (table " ").objects.names.map (·.text) = ["s"]) ∧
    (table "\x0b").types = #[] ∧ (table "\x0b").objects.names = [] := by
  simp only [scan_computed]
  exact ⟨by decide +kernel, by decide +kernel⟩

end HdlIndex.Vhdl

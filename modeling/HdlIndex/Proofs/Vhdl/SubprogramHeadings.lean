import HdlIndex.Proofs.Vhdl.ReadingWords
import HdlIndex.Proofs.Vhdl.WordOrder

/-! The headings of subprograms. A heading begins with `function` or `procedure`, whose kind is
recorded at once, and its name is the first word behind that. So kinds and names are recorded side
by side, but for a text that ends in front of a name. Where a designator is no word but an operator
in quotes, the first word behind it is taken for the name. -/
namespace HdlIndex.Vhdl

/-- The first word of the events that starts like an identifier. -/
def firstName? (events : List Event) : Option Lexeme :=
  events.findSome? fun event => event.word?.filter (·.symbol.isWord)

/-- A word that begins the heading of a subprogram. -/
def Symbol.BeginsSubprogram (symbol : Symbol) : Prop :=
  symbol = .keyword .function ∨ symbol = .keyword .procedure

instance (symbol : Symbol) : Decidable symbol.BeginsSubprogram :=
  inferInstanceAs (Decidable (_ ∨ _))

/-- The heading of a subprogram: the word that it begins with, what stands directly behind that
apart from white space and comments, and the first word behind it. -/
structure Heading where
  kind : Lexeme
  next : Option Lexeme
  name : Option Lexeme

/-- What each `function` and each `procedure` of the events is the heading of. -/
def headings : List Event → List Heading
  | [] => []
  | .word here _ next :: events =>
    if here.symbol.BeginsSubprogram then ⟨here, next, firstName? events⟩ :: headings events
    else headings events
  | .comment _ :: events | .filler _ :: events => headings events

/-- If the first word may be a name, it is the first that may. -/
theorem firstName?_of_firstWord? {events : List Event} {lexeme : Lexeme}
    (h : firstWord? events = some lexeme) (hWord : lexeme.symbol.isWord = true) :
    firstName? events = some lexeme := by
  induction events with
  | nil => cases h
  | cons event events ih =>
      cases event with
      | comment span => exact ih h
      | filler token => exact ih h
      | word here before next =>
          obtain rfl := Option.some.inj h
          simp [firstName?, Event.word?, hWord]

/-- What stands behind an event stands behind it in all of them. -/
theorem headings_sublist_cons (event : Event) (events : List Event) :
    (headings events).Sublist (headings (event :: events)) := by
  cases event with
  | word here before next =>
      rw [headings]
      split
      · exact List.sublist_cons_self _ _
      · exact List.Sublist.refl _
  | _ => exact List.Sublist.refl _

/-- A word stands behind everything that a heading follows. -/
theorem isSome_firstName? {events : List Event} (h : headings events ≠ []) :
    (firstName? events).isSome = true := by
  induction events with
  | nil => exact absurd rfl h
  | cons event events ih =>
      cases event with
      | comment span => exact ih h
      | filler token => exact ih h
      | word here before next =>
          rw [firstName?, List.findSome?_cons]
          split
          · rfl
          · next hNone =>
            rw [headings, if_neg] at h
            · exact ih h
            · rintro (hKind | hKind) <;> simp [Event.word?, hKind, Symbol.isWord] at hNone

/-- What is met next behind a heading is its name, if that starts like an identifier. -/
theorem Reader.name_of_mem_headings {reader : Reader} {tokens : List Token} {size : Nat}
    {heading : Heading} (h : heading ∈ headings (reader.upcoming size tokens)) {lexeme : Lexeme}
    (hNext : heading.next = some lexeme) (hWord : lexeme.symbol.isWord = true) :
    heading.name = some lexeme := by
  induction tokens generalizing reader with
  | nil =>
      rw [upcoming, readAll, finish] at h
      split at h <;> simp [forget, headings] at h
  | cons token rest ih =>
      obtain ⟨events, after, hTakes, hUpcoming⟩ := reader.upcoming_cons size token rest
      rw [hUpcoming] at h
      cases hTakes with
      | word hCode hBlank hText hAfter =>
          rw [List.singleton_append, headings] at h
          split at h
          · rcases List.mem_cons.1 h with rfl | hLater
            · obtain ⟨next, hSeen, rfl⟩ := Option.map_eq_some_iff.1 hNext
              have hAhead : Token.nextSignificant comments after.mode.closer? rest = some next := by
                rw [hAfter]
                exact hSeen
              have hIsWord : ∀ token ∈ Token.nextSignificant comments after.mode.closer? rest,
                  (Lexeme.ofToken token).symbol.isWord = true := by
                rw [hAhead]
                rintro _ ⟨⟩
                exact hWord
              have hComes := firstWord?_upcoming size (by simp [hAfter]) hIsWord
              rw [hAhead] at hComes
              exact firstName?_of_firstWord? hComes hWord
            · exact ih hLater
          · exact ih h
      | _ => exact ih h

/-- The walk waits for the name of a subprogram. -/
def Place.awaitsName : Place → Bool
  | .subprogramName _ => true
  | _ => false

theorem Home.awaitsName_place (home : Home) : home.place.awaitsName = false := by cases home <;> rfl

theorem Owner.awaitsName_place (owner : Owner) : owner.place.awaitsName = false := by
  cases owner <;> rfl

theorem Place.awaitsName_absorb (place : Place) (token : Token) :
    (place.absorb token).awaitsName = place.awaitsName := by cases place <;> rfl

/-- Where every name stands directly behind its keyword, there are as many names as headings. -/
theorem names_of_next {found : List Heading}
    (h : ∀ heading ∈ found, ∃ lexeme, heading.next = some lexeme ∧ heading.name = some lexeme) :
    ((found.filterMap (·.name)).map (·.word)).map some =
      found.map fun heading => heading.next.map (·.word) := by
  induction found with
  | nil => rfl
  | cons heading found ih =>
      rw [List.forall_mem_cons] at h
      obtain ⟨lexeme, hNext, hName⟩ := h.1
      rw [List.filterMap_cons_some hName, List.map_cons, List.map_cons, List.map_cons,
        ih h.2, hNext]
      rfl

namespace Walk

/-- No heading is begun or named, and the walk does not wait for a name. -/
structure KeepsHeadings (walk other : Walk) : Prop where
  place : other.place.awaitsName = false
  kinds : other.found.subprogramKinds = walk.found.subprogramKinds
  names : other.found.subprograms = walk.found.subprograms

/-- What a word does to headings where none is begun: it leaves them alone or begins one. -/
inductive HeadingStep (here : Lexeme) (walk other : Walk) : Prop where
  | keeps (h : walk.KeepsHeadings other)
  | begins (hKind : here.symbol.BeginsSubprogram) (hPlace : other.place.awaitsName = true)
      (hKinds : other.found.subprogramKinds = walk.found.subprogramKinds.push here.text)
      (hNames : other.found.subprograms = walk.found.subprograms)

variable {walk base other : Walk} {home : Home} {owner : Owner} {here : Lexeme}
  {before next : Option Lexeme} {process : HdlProcess} {statement : Statement}

namespace KeepsHeadings

/-- What the walk does before it goes on may be left out. -/
theorem of_base (hKinds : base.found.subprogramKinds = walk.found.subprogramKinds)
    (hNames : base.found.subprograms = walk.found.subprograms) (h : base.KeepsHeadings other) :
    walk.KeepsHeadings other :=
  ⟨h.place, h.kinds.trans hKinds, h.names.trans hNames⟩

theorem goto {place : Place} (h : place.awaitsName = false) :
    walk.KeepsHeadings (walk.goto place) :=
  ⟨h, rfl, rfl⟩

theorem modifyGenerate (change : Generate → Generate) :
    (walk.modifyGenerate change).found = walk.found := by
  rw [Walk.modifyGenerate]
  split <;> rfl

theorem commitInstance (unit : Word) (library : String) :
    (walk.commitInstance unit library).found.subprogramKinds = walk.found.subprogramKinds ∧
      (walk.commitInstance unit library).found.subprograms = walk.found.subprograms := by
  rw [Walk.commitInstance]
  split <;> exact ⟨rfl, rfl⟩

theorem enterGenerate (kind : GenerateKind) (condition : String) :
    (walk.enterGenerate kind condition).found = walk.found := by
  unfold Walk.enterGenerate
  split
  · rfl
  · split <;> rfl
  · rfl
  · rfl

/-- The end of a list is no heading, and begins none. -/
theorem closeElement (list : InterfaceList) (element : Element) (offset : Nat) :
    walk.KeepsHeadings ((walk.completeElement list element).closeList list offset) := by
  refine ⟨?_, ?_, ?_⟩
  · unfold closeList
    dsimp only
    split <;> exact list.owner.awaitsName_place
  all_goals
    unfold closeList completeElement collect Findings.modifyList
    dsimp only
    split <;> split <;> rfl

section Handlers

variable (h : walk.place.awaitsName = false)

include h

theorem refl : walk.KeepsHeadings walk := ⟨h, rfl, rfl⟩

theorem readContext : walk.KeepsHeadings (walk.readContext here next) := by
  rw [Walk.readContext]
  split
  all_goals first
    | exact refl h
    | exact goto rfl
    | skip
  split <;> exact goto rfl

theorem readLibrary : walk.KeepsHeadings (walk.readLibrary here) := by
  rw [Walk.readLibrary]
  split
  · exact goto rfl
  · exact ⟨h, rfl, rfl⟩
  · exact ⟨h, rfl, rfl⟩
  · exact refl h

theorem readUse : walk.KeepsHeadings (walk.readUse home here) := by
  rw [Walk.readUse]
  split
  · exact goto home.awaitsName_place
  · split <;> exact ⟨h, rfl, rfl⟩
  · split <;> exact ⟨h, rfl, rfl⟩
  · exact refl h

theorem readConfiguration : walk.KeepsHeadings (walk.readConfiguration here next) := by
  rw [Walk.readConfiguration]
  split
  · split
    · exact refl h
    · exact goto rfl
  · exact refl h

theorem readEntityName : walk.KeepsHeadings (walk.readEntityName here) := by
  rw [Walk.readEntityName]
  split
  · exact ⟨rfl, rfl, rfl⟩
  · exact refl h

theorem readEntityStatements : walk.KeepsHeadings (walk.readEntityStatements here) := by
  rw [Walk.readEntityStatements]
  split
  · exact goto rfl
  · exact refl h

theorem readListOpen {kind : ListKind} :
    walk.KeepsHeadings (walk.readListOpen kind owner here) := by
  rw [Walk.readListOpen]
  split
  · exact goto rfl
  · exact goto owner.awaitsName_place
  · exact refl h

theorem readInterface {list : InterfaceList} {element : Element} :
    walk.KeepsHeadings (walk.readInterface list element here) := by
  have hList : ∀ change, (walk.found.modifyList list.kind change).subprogramKinds =
      walk.found.subprogramKinds ∧
      (walk.found.modifyList list.kind change).subprograms = walk.found.subprograms := by
    intro change
    cases list.kind <;> exact ⟨rfl, rfl⟩
  rw [Walk.readInterface]
  split
  · exact goto rfl
  · exact ⟨h, (hList _).1, (hList _).2⟩
  · exact ⟨rfl, (hList _).1, (hList _).2⟩
  · exact closeElement list _ _

theorem readObject {kind : ObjectKind} {element : Element} :
    walk.KeepsHeadings (walk.readObject kind home element here) := by
  rw [Walk.readObject]
  split
  · exact goto rfl
  · exact ⟨h, rfl, rfl⟩
  · exact ⟨home.awaitsName_place, rfl, rfl⟩
  · exact ⟨home.awaitsName_place, rfl, rfl⟩

/-- A type declaration begins no subprogram. -/
theorem readType {type : TypeText} : walk.KeepsHeadings (walk.readType home type here before) := by
  rw [Walk.readType]
  dsimp only
  split
  · split
    · exact goto rfl
    · exact refl h
  · split
    all_goals try exact goto rfl
    · split <;> exact goto rfl
    · split
      · exact ⟨home.awaitsName_place, rfl, rfl⟩
      · exact goto rfl

theorem readArchitectureName {named : Bool} :
    walk.KeepsHeadings (walk.readArchitectureName named here) := by
  rw [Walk.readArchitectureName]
  split
  · exact goto rfl
  · exact goto rfl
  · split
    · exact ⟨rfl, rfl, rfl⟩
    · exact ⟨h, rfl, rfl⟩
  · split
    · exact ⟨rfl, rfl, rfl⟩
    · exact ⟨h, rfl, rfl⟩
  · exact refl h

theorem readArchitectureHeader : walk.KeepsHeadings (walk.readArchitectureHeader here) := by
  rw [Walk.readArchitectureHeader]
  split
  · exact goto rfl
  · exact refl h

theorem readComponentName : walk.KeepsHeadings (walk.readComponentName home here) := by
  rw [Walk.readComponentName]
  split
  · exact ⟨rfl, rfl, rfl⟩
  · exact refl h

theorem readComponentHeader : walk.KeepsHeadings (walk.readComponentHeader home here) := by
  rw [Walk.readComponentHeader]
  split
  · exact goto rfl
  · exact goto rfl
  · exact goto rfl
  · exact refl h

theorem readSubprogramHeader : walk.KeepsHeadings (walk.readSubprogramHeader home here next) := by
  rw [Walk.readSubprogramHeader]
  split
  · exact goto rfl
  · exact goto home.awaitsName_place
  · split <;> exact goto rfl
  · exact refl h

/-- Headings inside of a body are passed over with it. -/
theorem readSubprogramBody {nest : BodyNest} :
    walk.KeepsHeadings (walk.readSubprogramBody home nest here before next) := by
  rw [Walk.readSubprogramBody]
  dsimp only
  split
  all_goals first
    | exact refl h
    | exact goto rfl
    | (split <;> first | exact refl h | exact goto rfl)
    | skip
  split
  · split <;> exact goto rfl
  · exact refl h

theorem readPackageName : walk.KeepsHeadings (walk.readPackageName here next) := by
  rw [Walk.readPackageName]
  split
  · split <;> exact goto rfl
  · split
    · exact ⟨h, rfl, rfl⟩
    · exact refl h
  · split
    · exact ⟨h, rfl, rfl⟩
    · exact refl h
  · exact refl h

theorem readPackageBodyName : walk.KeepsHeadings (walk.readPackageBodyName here) := by
  rw [Walk.readPackageBodyName]
  split
  · exact goto rfl
  · exact refl h

theorem readSkipped {depth : Nat} : walk.KeepsHeadings (walk.readSkipped home depth here) := by
  rw [Walk.readSkipped]
  split
  · exact goto rfl
  · exact goto rfl
  · split
    · exact goto home.awaitsName_place
    · exact refl h
  · exact refl h

theorem readInstance : walk.KeepsHeadings (walk.readInstance here) := by
  rw [Walk.readInstance]
  split
  · exact of_base (commitInstance _ _).1 (commitInstance _ _).2 (goto rfl)
  · exact refl h

theorem readMap {depth : Nat} : walk.KeepsHeadings (walk.readMap depth here) := by
  rw [Walk.readMap]
  split
  · exact goto rfl
  · exact goto rfl
  · split
    · exact goto rfl
    · exact refl h
  · exact refl h

/-- Nor does anything in a process begin one. -/
theorem readBody {depth : Nat} {sequential : Sequential} :
    walk.KeepsHeadings (walk.readBody process depth sequential here before next) := by
  have hStay : ∀ ticked,
      walk.KeepsHeadings (walk.readBodyWord process depth sequential here ticked) := by
    intro ticked
    rw [readBodyWord]
    dsimp only
    split <;> exact goto rfl
  have hMark : ∀ role, walk.KeepsHeadings (walk.markTarget process sequential role) := by
    intro role
    rw [markTarget]
    split
    · exact goto rfl
    · exact refl h
  unfold Walk.readBody
  dsimp only
  split
  all_goals first
    | exact goto rfl
    | exact hStay _
    | skip
  · split
    · exact goto rfl
    · exact hStay _
  · split
    · exact hMark _
    · exact hStay _
  · split
    · exact hMark _
    · exact hStay _
  · split
    · exact ⟨rfl, rfl, rfl⟩
    · exact hStay _

end Handlers

theorem readGenerate {kind : GenerateKind} {depth : Nat} {expr : Capture} :
    walk.KeepsHeadings (walk.readGenerate kind depth expr here) := by
  rw [Walk.readGenerate]
  split
  · exact goto rfl
  · exact goto rfl
  · split
    · have hFound : (walk.enterGenerate kind expr.text).found = walk.found :=
        enterGenerate kind expr.text
      exact ⟨rfl, congrArg Findings.subprogramKinds hFound, congrArg Findings.subprograms hFound⟩
    · exact goto rfl
  · exact goto rfl

theorem readChoice {expr : Capture} : walk.KeepsHeadings (walk.readChoice expr here) := by
  rw [Walk.readChoice]
  split
  · exact of_base (congrArg Findings.subprogramKinds (modifyGenerate _))
      (congrArg Findings.subprograms (modifyGenerate _)) (goto rfl)
  · exact goto rfl

theorem readEnd : walk.KeepsHeadings (walk.readEnd next) := by
  rw [Walk.readEnd]
  split
  · exact ⟨rfl, rfl, rfl⟩
  split
  · exact goto rfl
  split
  · exact of_base (congrArg Findings.subprogramKinds (modifyGenerate _))
      (congrArg Findings.subprograms (modifyGenerate _)) (goto rfl)
  · exact ⟨rfl, rfl, rfl⟩

theorem readOther : walk.KeepsHeadings (walk.readOther statement here next) := by
  rw [Walk.readOther]
  exact goto rfl

theorem readLater : walk.KeepsHeadings (walk.readLater statement here next) := by
  rw [Walk.readLater]
  split
  · split
    · unfold takeLabel
      split <;> exact ⟨rfl, rfl, rfl⟩
    · exact readOther
  · split
    · exact ⟨rfl, rfl, rfl⟩
    · exact readOther
  · exact readOther

end KeepsHeadings

namespace HeadingStep

theorem readItem : HeadingStep here walk (walk.readItem home here) := by
  rw [Walk.readItem]
  split
  all_goals try exact .keeps (.goto rfl)
  · next hSymbol => exact .begins (.inl hSymbol) rfl rfl rfl
  · next hSymbol => exact .begins (.inr hSymbol) rfl rfl rfl
  · exact .keeps (.goto home.awaitsName_place)

theorem readEntityHeader : HeadingStep here walk (walk.readEntityHeader here) := by
  rw [Walk.readEntityHeader]
  split
  all_goals first
    | exact .keeps (.goto rfl)
    | exact readItem

theorem readArchitectureDeclarations :
    HeadingStep here walk (walk.readArchitectureDeclarations here) := by
  rw [Walk.readArchitectureDeclarations]
  split
  · exact .keeps (.goto rfl)
  · exact readItem

theorem readPackage : HeadingStep here walk (walk.readPackage home here) := by
  rw [Walk.readPackage]
  split
  · exact .keeps (.goto rfl)
  · exact readItem

theorem readProcessDeclarations :
    HeadingStep here walk (walk.readProcessDeclarations process here) := by
  rw [Walk.readProcessDeclarations]
  split
  · exact .keeps (.goto rfl)
  · exact readItem

/-- Among the words that a statement may begin with those of subprograms begin a heading. -/
theorem readFirst : HeadingStep here walk (walk.readFirst here next) := by
  rw [Walk.readFirst]
  split
  all_goals first
    | exact .keeps (.goto rfl)
    | exact .keeps ⟨rfl, rfl, rfl⟩
    | exact .keeps .readEnd
    | exact .keeps .readOther
    | exact readItem
    | skip
  · exact .keeps ⟨rfl, congrArg Findings.subprogramKinds (KeepsHeadings.modifyGenerate _),
      congrArg Findings.subprograms (KeepsHeadings.modifyGenerate _)⟩
  · split
    · exact .keeps (.of_base (congrArg Findings.subprogramKinds (KeepsHeadings.modifyGenerate _))
        (congrArg Findings.subprograms (KeepsHeadings.modifyGenerate _)) (.goto rfl))
    · exact .keeps .readOther
  · exact .keeps (.of_base (congrArg Findings.subprogramKinds (KeepsHeadings.modifyGenerate _))
      (congrArg Findings.subprograms (KeepsHeadings.modifyGenerate _)) (.goto rfl))

/-- A statement begins one with its first word, or none. -/
theorem readStatement : HeadingStep here walk (walk.readStatement statement here next) := by
  rw [Walk.readStatement]
  split
  · exact .keeps (.of_base (KeepsHeadings.commitInstance _ _).1 (KeepsHeadings.commitInstance _ _).2
      (.goto rfl))
  · exact .keeps (.of_base (KeepsHeadings.commitInstance _ _).1 (KeepsHeadings.commitInstance _ _).2
      (.goto rfl))
  · exact .keeps (.of_base (KeepsHeadings.commitInstance _ _).1 (KeepsHeadings.commitInstance _ _).2
      (.goto rfl))
  · exact .keeps ⟨rfl, rfl, rfl⟩
  · exact .keeps ⟨rfl, rfl, rfl⟩
  · split
    · exact readFirst
    · exact .keeps .readLater

/-- Behind the sensitivity list a process may declare subprograms. -/
theorem readSensitivity {depth : Option Nat} (h : walk.place.awaitsName = false) :
    HeadingStep here walk (walk.readSensitivity process depth here) := by
  unfold Walk.readSensitivity
  dsimp only
  split
  all_goals first
    | exact .keeps (.goto rfl)
    | exact .keeps (.refl h)
    | exact readItem

/-- A word where no name is waited for begins a heading or leaves headings alone. -/
theorem read (h : walk.place.awaitsName = false) :
    HeadingStep here walk (walk.read here before next) := by
  rw [Walk.read]
  cases hPlace : walk.place with
  | entityContext => exact .keeps (.readContext h)
  | libraryClause => exact .keeps (.readLibrary h)
  | useClause home => exact .keeps (.readUse h)
  | configurationDeclaration => exact .keeps (.readConfiguration h)
  | entityName => exact .keeps (.readEntityName h)
  | entityHeader => exact readEntityHeader
  | entityStatements => exact .keeps (.readEntityStatements h)
  | interfaceListOpen kind owner => exact .keeps (.readListOpen h)
  | interfaceDeclaration list element => exact .keeps (.readInterface h)
  | objectDeclaration kind home element => exact .keeps (.readObject h)
  | typeDeclaration home type => exact .keeps (.readType h)
  | architectureName named => exact .keeps (.readArchitectureName h)
  | architectureHeader => exact .keeps (.readArchitectureHeader h)
  | architectureDeclarations => exact readArchitectureDeclarations
  | architectureBody statement => exact readStatement
  | componentName home => exact .keeps (.readComponentName h)
  | componentHeader home => exact .keeps (.readComponentHeader h)
  | subprogramName home =>
      rw [hPlace] at h
      cases h
  | subprogramHeader home => exact .keeps (.readSubprogramHeader h)
  | subprogramBody home nest => exact .keeps (.readSubprogramBody h)
  | packageName => exact .keeps (.readPackageName h)
  | packageDeclarations => exact readPackage
  | packageBodyName => exact .keeps (.readPackageBodyName h)
  | packageBody => exact readPackage
  | processSensitivity process depth => exact readSensitivity h
  | processDeclarations process => exact readProcessDeclarations
  | processBody process depth statement => exact .keeps (.readBody h)
  | instanceHeader => exact .keeps (.readInstance h)
  | instanceMap depth => exact .keeps (.readMap h)
  | generateHeader kind depth expr => exact .keeps .readGenerate
  | generateChoice expr => exact .keeps .readChoice
  | skipStatement home depth => exact .keeps (.readSkipped h)

end HeadingStep

/-- The name that the walk waits for in front of the events. -/
def awaited (walk : Walk) (events : List Event) : Option Lexeme :=
  if walk.place.awaitsName then firstName? events else none

/-- Where a name is waited for, the first word is the name. -/
theorem read_awaited {events : List Event} (h : walk.place.awaitsName = true) :
    (walk.read here before next).found.subprogramKinds = walk.found.subprogramKinds ∧
      (walk.read here before next).found.subprograms.entries.toList ++
          ((walk.read here before next).awaited events).toList.map (·.word) =
        walk.found.subprograms.entries.toList ++
          (walk.awaited (.word here before next :: events)).toList.map (·.word) := by
  obtain ⟨home, hPlace⟩ : ∃ home, walk.place = .subprogramName home := by
    cases hPlace : walk.place with
    | subprogramName home => exact ⟨home, rfl⟩
    | _ =>
        rw [hPlace] at h
        cases h
  have hRead : walk.read here before next = walk.readSubprogramName home here := by
    rw [read, hPlace]
  rw [hRead, readSubprogramName, awaited, awaited, if_pos h]
  split
  · next hWord => simp [goto, collect, Place.awaitsName, firstName?, Event.word?, Option.filter,
      hWord, Words.push]
  · next hOther => simp [firstName?, Event.word?, Option.filter, hOther]

/-- What a run records of headings: the name that is waited for, and then those of the headings that
it begins. All of these but the last have a name. -/
theorem run_headings (walk : Walk) (events : List Event) : ∃ found : List Heading,
    found.Sublist (headings events) ∧
    (walk.run events).found.subprogramKinds.toList =
      walk.found.subprogramKinds.toList ++ found.map (·.kind.text) ∧
    (walk.run events).found.subprograms.entries.toList = walk.found.subprograms.entries.toList ++
      (walk.awaited events).toList.map (·.word) ++ (found.filterMap (·.name)).map (·.word) ∧
    ∀ heading ∈ found.dropLast, heading.name.isSome = true := by
  induction events generalizing walk with
  | nil =>
      have hNone : walk.awaited [] = none := ite_self none
      exact ⟨[], List.Sublist.refl _, by simp [run], by simp [run, hNone], by simp⟩
  | cons event events ih =>
      cases event with
      | comment span => exact ih walk
      | filler token =>
          have hRest := ih (walk.step (.filler token))
          rw [awaited, step, Place.awaitsName_absorb] at hRest
          exact hRest
      | word here before next =>
          set noted := walk.note (.visited walk.place.region.name here.text)
          have hRun : walk.run (.word here before next :: events) =
              (noted.read here before next).run events := rfl
          obtain ⟨found, hSublist, hKinds, hNames, hNamed⟩ := ih (noted.read here before next)
          rw [hRun]
          have hLonger := hSublist.trans (headings_sublist_cons (.word here before next) events)
          cases hAwaits : walk.place.awaitsName with
          | true =>
              have hNoted : noted.place.awaitsName = true := hAwaits
              obtain ⟨hSame, hWaits⟩ := read_awaited hNoted
              rw [hSame] at hKinds
              rw [hWaits] at hNames
              exact ⟨found, hLonger, hKinds, hNames, hNamed⟩
          | false =>
              have hNone : ∀ events, walk.awaited events = none := fun events => by
                rw [awaited, hAwaits, if_neg Bool.false_ne_true]
              rw [hNone]
              have hStep : HeadingStep here noted (noted.read here before next) := .read hAwaits
              cases hStep with
              | keeps hKeeps =>
                  rw [hKeeps.kinds] at hKinds
                  rw [hKeeps.names, awaited, hKeeps.place, if_neg Bool.false_ne_true] at hNames
                  exact ⟨found, hLonger, hKinds, hNames, hNamed⟩
              | begins hKind hPlace hKinds' hNames' =>
                  rw [hKinds', Array.toList_push, List.append_assoc] at hKinds
                  rw [hNames', awaited, hPlace, if_pos rfl] at hNames
                  refine ⟨⟨here, next, firstName? events⟩ :: found, ?_, hKinds, ?_, ?_⟩
                  · rw [headings, if_pos hKind]
                    exact hSublist.cons_cons _
                  · rw [hNames]
                    cases firstName? events <;> simp [noted, note]
                  · cases found with
                    | nil => simp
                    | cons heading found =>
                        have hMore : headings events ≠ [] := fun hNil => by
                          rw [hNil] at hSublist
                          cases hSublist
                        rw [List.dropLast_cons_cons, List.forall_mem_cons]
                        exact ⟨isSome_firstName? hMore, hNamed⟩

/-- The end of the text adds neither a kind nor a name, so that a heading without a name keeps its
kind. -/
theorem subprograms_finish (walk : Walk) (size : Nat) :
    (walk.finish size).found.subprogramKinds = walk.found.subprogramKinds ∧
      (walk.finish size).found.subprograms = walk.found.subprograms := by
  have hFlushed : (walk.flushed size).found.subprogramKinds = walk.found.subprogramKinds ∧
      (walk.flushed size).found.subprograms = walk.found.subprograms := by
    rw [flushed]
    cases walk.place with
    | interfaceDeclaration list element =>
        have hKeeps : walk.KeepsHeadings
            ((walk.completeElement list element).closeList list size) :=
          .closeElement list element size
        exact ⟨hKeeps.kinds, hKeeps.names⟩
    | _ => exact ⟨rfl, rfl⟩
  exact finish_of_flushed (P := fun other => other.found.subprogramKinds =
    walk.found.subprogramKinds ∧
    other.found.subprograms = walk.found.subprograms) hFlushed fun _ _ => hFlushed

end Walk

/-- Over every text, start and limit, kinds and names are those of headings that stand in the text.
Every heading but the last has a name, the first word behind its keyword. That is what stands
directly behind the keyword, wherever this is a word; and where it always is, every kind has the
name that stands behind it. -/
theorem scan_headings (region : Region) (limit : Option Nat) (text : String) :
    let table := (scan region limit text).table
    ∃ found : List Heading,
      found.Sublist (headings (readEvents text.utf8ByteSize (tokens limit text).list)) ∧
      table.subprogramKinds.toList = found.map (·.kind.text) ∧
      table.subprograms.entries.toList = (found.filterMap (·.name)).map (·.word) ∧
      (∀ heading ∈ found.dropLast, heading.name.isSome = true) ∧
      (∀ heading ∈ found, ∀ lexeme, heading.next = some lexeme → lexeme.symbol.isWord = true →
        heading.name = some lexeme) ∧
      ((∀ heading ∈ found, ∃ lexeme, heading.next = some lexeme ∧ lexeme.symbol.isWord = true) →
        table.subprograms.entries.size = table.subprogramKinds.size ∧
        table.subprograms.entries.toList.map some =
          found.map fun heading => heading.next.map (·.word)) := by
  intro table
  obtain ⟨found, hSublist, hKinds, hNames, hNamed⟩ := (Walk.start region).run_headings
    (readEvents text.utf8ByteSize (tokens limit text).list)
  obtain ⟨hKindsEnd, hNamesEnd⟩ := Walk.subprograms_finish
    ((Walk.start region).run (readEvents text.utf8ByteSize (tokens limit text).list))
    text.utf8ByteSize
  have hStart : (Walk.start region).place.awaitsName = false ∧ (Walk.start region).found = {} := by
    cases region <;> exact ⟨rfl, rfl⟩
  have hTableKinds : table.subprogramKinds.toList = found.map (·.kind.text) := by
    rw [hStart.2] at hKinds
    exact (congrArg Array.toList hKindsEnd).trans hKinds
  have hTableNames :
      table.subprograms.entries.toList = (found.filterMap (·.name)).map (·.word) := by
    rw [hStart.2, Walk.awaited, hStart.1] at hNames
    exact (congrArg (·.entries.toList) hNamesEnd).trans hNames
  have hMet : ∀ heading ∈ found, ∀ lexeme, heading.next = some lexeme →
      lexeme.symbol.isWord = true → heading.name = some lexeme := by
    rw [readEvents_eq_upcoming] at hSublist
    intro heading hMem lexeme
    exact Reader.name_of_mem_headings (hSublist.subset hMem)
  refine ⟨found, hSublist, hTableKinds, hTableNames, hNamed, hMet, fun hWords => ?_⟩
  have hAll : table.subprograms.entries.toList.map some =
      found.map fun heading => heading.next.map (·.word) := by
    rw [hTableNames]
    refine names_of_next fun heading hMem => ?_
    obtain ⟨lexeme, hNext, hWord⟩ := hWords heading hMem
    exact ⟨lexeme, hNext, hMet heading hMem lexeme hNext hWord⟩
  have hNames := congrArg List.length hAll
  have hKinds := congrArg List.length hTableKinds
  rw [List.length_map, List.length_map] at hNames
  rw [List.length_map] at hKinds
  exact ⟨hNames.trans hKinds.symm, hAll⟩

/-- A name in quotes is no word, so the parameter is taken for the name. A text can end in front of
a name. -/
theorem scan_headings_operator :
    (let table := (scan .packageDeclarations none "function \"+\" (a : t) return t;").table
    table.subprogramKinds = #["function"] ∧ table.subprograms.texts = ["a"] ∧
      table.parameters.rows = #[]) ∧
    (let table := (scan .packageDeclarations none "function").table
    table.subprogramKinds = #["function"] ∧ table.subprograms.texts = []) := by
  decide +kernel

end HdlIndex.Vhdl

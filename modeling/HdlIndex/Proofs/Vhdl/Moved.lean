import HdlIndex.Proofs.Symbols.Moved
import HdlIndex.Proofs.Vhdl.StatementWords

/-! A walk whose text is part of another one. There the words stand at other places, and something
may have been found in front of them. Reading a word before or after such a change comes to the
same: no decision of the walk depends on where a word stands or on what was found, apart from what
keeps the first of several packages. -/
namespace HdlIndex.Vhdl

open String (utf8Len)

/-- The lexeme at another place. -/
def Lexeme.moved (move : Nat → Nat) (lexeme : Lexeme) : Lexeme :=
  ⟨lexeme.token.moved move, lexeme.symbol⟩

/-- The home with its process at another place. -/
def Home.moved (move : Nat → Nat) : Home → Home
  | .processDeclarations process => .processDeclarations (process.moved move)
  | home => home

/-- The owner with its home at another place. -/
def Owner.moved (move : Nat → Nat) : Owner → Owner
  | .component home => .component (home.moved move)
  | .subprogram home => .subprogram (home.moved move)
  | owner => owner

/-- The list at another place. -/
def InterfaceList.moved (move : Nat → Nat) (list : InterfaceList) : InterfaceList :=
  ⟨list.kind, list.owner.moved move, move list.inside⟩

/-- The element with its type at another place. -/
def Element.moved (move : Nat → Nat) (element : Element) : Element :=
  { element with type := element.type.map (·.moved move) }

/-- The move with its words at other places. -/
def Move.moved (move : Nat → Nat) : Move → Move
  | .stay element => .stay (element.moved move)
  | .name word => .name (word.moved move)
  | .done => .done
  | .close => .close

/-- The declaration with its name at another place. -/
def TypeText.moved (move : Nat → Nat) (type : TypeText) : TypeText :=
  { type with name := type.name.map (·.moved move) }

/-- The statement with its words at other places. -/
def Statement.moved (move : Nat → Nat) (statement : Statement) : Statement :=
  { statement with
    first := statement.first.map (·.moved move)
    unit := statement.unit.map (·.moved move) }

/-- The place with its words at other places. -/
def Place.moved (move : Nat → Nat) : Place → Place
  | .useClause home => .useClause (home.moved move)
  | .interfaceListOpen kind owner => .interfaceListOpen kind (owner.moved move)
  | .interfaceDeclaration list element =>
    .interfaceDeclaration (list.moved move) (element.moved move)
  | .objectDeclaration kind home element =>
    .objectDeclaration kind (home.moved move) (element.moved move)
  | .typeDeclaration home type => .typeDeclaration (home.moved move) (type.moved move)
  | .architectureBody statement => .architectureBody (statement.moved move)
  | .componentName home => .componentName (home.moved move)
  | .componentHeader home => .componentHeader (home.moved move)
  | .subprogramName home => .subprogramName (home.moved move)
  | .subprogramHeader home => .subprogramHeader (home.moved move)
  | .subprogramBody home nest => .subprogramBody (home.moved move) nest
  | .processSensitivity process depth => .processSensitivity (process.moved move) depth
  | .processDeclarations process => .processDeclarations (process.moved move)
  | .processBody process depth statement => .processBody (process.moved move) depth statement
  | .skipStatement home depth => .skipStatement (home.moved move) depth
  | place => place

/-- The definition with its name at another place. -/
def TypeDefinition.moved (move : Nat → Nat) (type : TypeDefinition) : TypeDefinition :=
  { type with name := type.name.moved move }

/-- The instance with its words at other places. -/
def Instance.moved (move : Nat → Nat) (entry : Instance) : Instance :=
  { entry with label := entry.label.moved move, unit := entry.unit.moved move }

/-- What was found, at other places. -/
def Findings.moved (move : Nat → Nat) (found : Findings) : Findings where
  entities := found.entities.moved move
  architectures := found.architectures.moved move
  architectureEntities := found.architectureEntities.moved move
  packages := found.packages.moved move
  libraries := found.libraries.moved move
  usedPackages := found.usedPackages.moved move
  ports := found.ports.moved move
  generics := found.generics.moved move
  objects := found.objects.moved move
  genericClause := found.genericClause.map (·.moved move)
  components := found.components.moved move
  componentPorts := found.componentPorts.moved move
  componentGenerics := found.componentGenerics.moved move
  subprograms := found.subprograms.moved move
  subprogramKinds := found.subprogramKinds
  parameters := found.parameters.moved move
  types := found.types.map (·.moved move)
  clocked := found.clocked.moved move
  instances := found.instances.map (·.moved move)
  labels := found.labels.moved move
  processes := found.processes.map (·.moved move)

/-- What was found, then what is found behind it. The first package and the last generic clause are
kept. -/
def Findings.followedBy (found other : Findings) : Findings where
  entities := found.entities.followedBy other.entities
  architectures := found.architectures.followedBy other.architectures
  architectureEntities := found.architectureEntities.followedBy other.architectureEntities
  packages := if found.packages.isEmpty then other.packages else found.packages
  libraries := found.libraries.followedBy other.libraries
  usedPackages := found.usedPackages.followedBy other.usedPackages
  ports := found.ports.followedBy other.ports
  generics := found.generics.followedBy other.generics
  objects := found.objects.followedBy other.objects
  genericClause := other.genericClause.or found.genericClause
  components := found.components.followedBy other.components
  componentPorts := found.componentPorts.followedBy other.componentPorts
  componentGenerics := found.componentGenerics.followedBy other.componentGenerics
  subprograms := found.subprograms.followedBy other.subprograms
  subprogramKinds := found.subprogramKinds ++ other.subprogramKinds
  parameters := found.parameters.followedBy other.parameters
  types := found.types ++ other.types
  clocked := found.clocked.followedBy other.clocked
  instances := found.instances ++ other.instances
  labels := found.labels.followedBy other.labels
  processes := found.processes ++ other.processes

/-- How a text is part of another one: where its places are moved to, and what was found and noted
in front of it. -/
structure Embedding where
  move : Nat → Nat
  found : Findings := {}
  notes : List Note := []

/-- The words of the event at other places. -/
def Event.moved (move : Nat → Nat) : Event → Event
  | .comment span => .comment (span.moved move)
  | .filler token => .filler (token.moved move)
  | .word here before next =>
    .word (here.moved move) (before.map (·.moved move)) (next.map (·.moved move))

/-- What was found, in the text around it. -/
def Findings.within (embedding : Embedding) (found : Findings) : Findings :=
  embedding.found.followedBy (found.moved embedding.move)

/-- The walk, in the text around it. -/
def Walk.within (embedding : Embedding) (walk : Walk) : Walk where
  place := walk.place.moved embedding.move
  generates := walk.generates
  label := walk.label.map (·.moved embedding.move)
  found := walk.found.within embedding
  notes := walk.notes.map (·.moved embedding.move) ++ embedding.notes

section

variable {move : Nat → Nat} {embedding : Embedding} (here : Lexeme) (home : Home) (owner : Owner)

@[simp]
theorem Lexeme.symbol_moved : (here.moved move).symbol = here.symbol := rfl

@[simp]
theorem Lexeme.text_moved : (here.moved move).text = here.text := rfl

@[simp]
theorem Lexeme.word_moved : (here.moved move).word = here.word.moved move := rfl

theorem Lexeme.span_moved : (here.moved move).span = here.span.moved move := rfl

@[simp]
theorem Capture.push_moved (capture : Capture) (token : Token) :
    capture.push (token.moved move) = capture.push token := rfl

@[simp]
theorem Capture.absorb_moved (capture : Capture) (token : Token) :
    capture.absorb (token.moved move) = capture.absorb token := rfl

@[simp]
theorem Home.place_moved : (home.moved move).place = home.place.moved move := by cases home <;> rfl

@[simp]
theorem Owner.place_moved : (owner.moved move).place = owner.place.moved move := by
  cases owner <;> simp [Owner.moved, Owner.place, Place.moved]

@[simp]
theorem isNext_moved (next : Option Lexeme) (word : Keyword) :
    Walk.isNext (next.map (·.moved move)) word = Walk.isNext next word := by
  cases next <;> rfl

end

namespace Element

variable {move : Nat → Nat} {element : Element} {here : Lexeme} {inList keyword : Bool}
  {depth : Nat}

theorem readName_moved :
    (element.moved move).readName inList (here.moved move) =
      (element.readName inList here).moved move := by
  rw [readName, readName, Lexeme.symbol_moved]
  split
  case h_3 => split <;> rfl
  all_goals rfl

theorem readSettled_moved (element : Element) :
    (element.moved move).readSettled inList (here.moved move) =
      (element.readSettled inList here).moved move := by
  rw [readSettled, readSettled, Lexeme.symbol_moved]
  split
  case h_5 => split <;> rfl
  all_goals rfl

/-- Whether a word goes into the type is asked of its text. -/
theorem readType_moved (element : Element) :
    (element.moved move).readType inList (here.moved move) =
      (element.readType inList here).moved move := by
  rw [readType, readType, Lexeme.symbol_moved]
  split
  case h_4 => rfl
  case h_5 => rfl
  all_goals exact readSettled_moved { element with part := .settled }

theorem readMode_moved :
    (element.moved move).readMode inList (here.moved move) =
      (element.readMode inList here).moved move := by
  rw [readMode, readMode, Lexeme.symbol_moved]
  split
  · split
    · rfl
    · exact readType_moved { element with part := .type }
  · exact readType_moved { element with part := .type }

theorem readRange_moved :
    (element.moved move).readRange inList keyword depth (here.moved move) =
      (element.readRange inList keyword depth here).moved move := by
  unfold readRange
  rw [Lexeme.symbol_moved]
  split
  case h_2 => split <;> rfl
  all_goals rfl

theorem readValue_moved :
    (element.moved move).readValue inList depth (here.moved move) =
      (element.readValue inList depth here).moved move := by
  unfold readValue
  rw [Lexeme.symbol_moved]
  split
  case h_2 => split <;> rfl
  all_goals rfl

/-- An element reads the text of a word, and keeps its place. -/
theorem read_moved :
    (element.moved move).read inList (here.moved move) = (element.read inList here).moved move := by
  have hPart : (element.moved move).part = element.part := rfl
  rw [read, read, hPart]
  split
  · exact readName_moved
  · exact readMode_moved
  · exact readType_moved element
  · exact readSettled_moved element
  · exact readRange_moved
  · exact readValue_moved

end Element

namespace Findings

variable {embedding : Embedding} {found : Findings}

theorem modifyList_within {change change' : Declarations → Declarations} (kind : ListKind)
    (hChange : ∀ list base : Declarations,
      base.followedBy ((change list).moved embedding.move) =
        change' (base.followedBy (list.moved embedding.move))) :
    (found.modifyList kind change).within embedding =
      (found.within embedding).modifyList kind change' := by
  cases kind <;> simp [modifyList, within, moved, followedBy, hChange]

end Findings

namespace Walk

variable {embedding : Embedding} {walk : Walk} {here : Lexeme} {next : Option Lexeme} {home : Home}

@[simp]
theorem goto_within (place : Place) :
    (walk.goto place).within embedding =
      (walk.within embedding).goto (place.moved embedding.move) := rfl

@[simp]
theorem skip_within (home : Home) :
    (walk.skip home).within embedding = (walk.within embedding).skip (home.moved embedding.move) :=
  rfl

@[simp]
theorem nextStatement_within :
    walk.nextStatement.within embedding = (walk.within embedding).nextStatement := rfl

theorem note_within (note : Note) :
    (walk.note note).within embedding =
      (walk.within embedding).note (note.moved embedding.move) := rfl

theorem collect_within {change change' : Findings → Findings}
    (h : (change walk.found).within embedding = change' (walk.found.within embedding)) :
    (walk.collect change).within embedding = (walk.within embedding).collect change' := by
  rw [collect, collect, within, h]
  rfl

/-- What is collected in a text is collected in the text around it. -/
theorem collect_goto_within {change change' : Findings → Findings} {place place' : Place}
    (h : (change walk.found).within embedding = change' (walk.found.within embedding))
    (hPlace : place.moved embedding.move = place') :
    ((walk.within embedding).collect change').goto place' =
      ((walk.collect change).goto place).within embedding := by
  rw [goto_within, collect_within h, hPlace]

theorem readItem_within (home : Home) :
    (walk.within embedding).readItem (home.moved embedding.move) (here.moved embedding.move) =
      (walk.readItem home here).within embedding := by
  rw [readItem, readItem, Lexeme.symbol_moved, Home.place_moved]
  split
  case h_8 =>
    exact collect_goto_within (by simp [Findings.within, Findings.moved, Findings.followedBy]) rfl
  case h_9 =>
    exact collect_goto_within (by simp [Findings.within, Findings.moved, Findings.followedBy]) rfl
  all_goals rfl

theorem readContext_within :
    (walk.within embedding).readContext (here.moved embedding.move)
        (next.map (·.moved embedding.move)) =
      (walk.readContext here next).within embedding := by
  rw [readContext, readContext, Lexeme.symbol_moved, isNext_moved]
  split
  case h_5 => split <;> rfl
  all_goals rfl

theorem readLibrary_within :
    (walk.within embedding).readLibrary (here.moved embedding.move) =
      (walk.readLibrary here).within embedding := by
  rw [readLibrary, readLibrary, Lexeme.symbol_moved]
  have hLibrary : (walk.within embedding).collect (fun found =>
        { found with libraries := found.libraries.push (here.moved embedding.move).word }) =
      (walk.collect fun found =>
        { found with libraries := found.libraries.push here.word }).within embedding := by
    rw [collect_within]
    simp [Findings.within, Findings.moved, Findings.followedBy]
  split
  · rfl
  · exact hLibrary
  · exact hLibrary
  · rfl

/-- The package of a selected name is moved with it. -/
theorem selectedPackage?_moved {move : Nat → Nat} {selected : Word} (h : selected.IsRigid move) :
    selectedPackage? (selected.moved move) = (selectedPackage? selected).map (·.moved move) := by
  have hBase : (selected.moved move).base = selected.base := rfl
  rw [selectedPackage?, selectedPackage?, hBase, Word.moved]
  dsimp only
  split
  · rfl
  next point rest hRest =>
  split
  · rfl
  have hPackage : (baseName (String.ofList rest)).utf8ByteSize ≤ utf8Len rest := by
    have hParts := congrArg utf8Len (rest.takeWhile_append_dropWhile (p := (· != '.')))
    rw [String.utf8Len_append] at hParts
    rw [baseName, String.utf8ByteSize_ofList, String.toList_ofList]
    omega
  have hSize : selected.text.utf8ByteSize =
      selected.base.utf8ByteSize + (point.utf8Size + utf8Len rest) := by
    rw [← String.ofList_toList (s := selected.text), String.utf8ByteSize_ofList,
      ← selected.text.toList.takeWhile_append_dropWhile (p := (· != '.')), hRest]
    simp [Word.base, baseName, String.utf8ByteSize_ofList, Nat.add_comm]
  have hPoint : 0 < point.utf8Size := point.utf8Size_pos
  rw [Option.map_some, Word.moved, Span.moved, Span.moved, Nat.add_assoc selected.span.start,
    Nat.add_assoc selected.span.start, h.together _ (by omega), h.together _ (by omega)]
  simp [Nat.add_assoc]

/-- The package that a use clause selects is recorded at its place in the embedding text. -/
theorem usePackage_within (walk : Walk) (hHere : here.word.IsRigid embedding.move) :
    (match selectedPackage? (here.word.moved embedding.move) with
      | some package => (walk.within embedding).collect fun found =>
        { found with usedPackages := found.usedPackages.push package }
      | none => walk.within embedding) =
      (match selectedPackage? here.word with
      | some package => walk.collect fun found =>
        { found with usedPackages := found.usedPackages.push package }
      | none => walk).within embedding := by
  rw [selectedPackage?_moved hHere]
  cases selectedPackage? here.word with
  | none => rfl
  | some package =>
      symm
      exact collect_within (by simp [Findings.within, Findings.moved, Findings.followedBy])

/-- What a use clause selects is cut out of its word, so that the word has to keep its length. -/
theorem readUse_within (hHere : here.word.IsRigid embedding.move) :
    (walk.within embedding).readUse (home.moved embedding.move) (here.moved embedding.move) =
      (walk.readUse home here).within embedding := by
  have hPackage := walk.usePackage_within hHere
  rw [readUse, readUse, Lexeme.symbol_moved, Lexeme.word_moved, Home.place_moved]
  split
  · rfl
  · exact hPackage
  · exact hPackage
  · rfl

theorem readConfiguration_within :
    (walk.within embedding).readConfiguration (here.moved embedding.move)
        (next.map (·.moved embedding.move)) =
      (walk.readConfiguration here next).within embedding := by
  rw [readConfiguration, readConfiguration, Lexeme.symbol_moved, isNext_moved]
  split
  · split <;> rfl
  · rfl

theorem readEntityName_within :
    (walk.within embedding).readEntityName (here.moved embedding.move) =
      (walk.readEntityName here).within embedding := by
  rw [readEntityName, readEntityName, Lexeme.symbol_moved]
  split
  · rw [goto_within, note_within, collect_within]
    · rfl
    · simp [Findings.within, Findings.moved, Findings.followedBy]
  · rfl

theorem readEntityHeader_within :
    (walk.within embedding).readEntityHeader (here.moved embedding.move) =
      (walk.readEntityHeader here).within embedding := by
  rw [readEntityHeader, readEntityHeader, Lexeme.symbol_moved]
  split
  case h_5 => exact readItem_within .entityHeader
  all_goals rfl

theorem readEntityStatements_within :
    (walk.within embedding).readEntityStatements (here.moved embedding.move) =
      (walk.readEntityStatements here).within embedding := by
  rw [readEntityStatements, readEntityStatements, Lexeme.symbol_moved]
  split <;> rfl

theorem readListOpen_within {kind : ListKind} {owner : Owner} :
    (walk.within embedding).readListOpen kind (owner.moved embedding.move)
        (here.moved embedding.move) =
      (walk.readListOpen kind owner here).within embedding := by
  rw [readListOpen, readListOpen, Lexeme.symbol_moved, Owner.place_moved]
  split <;> rfl

section

variable {list : InterfaceList} {element : Element}

theorem completeElement_within :
    (walk.within embedding).completeElement (list.moved embedding.move)
        (element.moved embedding.move) =
      (walk.completeElement list element).within embedding := by
  symm
  refine collect_within (Findings.modifyList_within list.kind fun rows base => ?_)
  simp only [Element.complete, Declarations.complete_moved, Declarations.complete_followedBy]
  rfl

theorem completeObject_within {kind : ObjectKind} :
    (walk.within embedding).completeObject kind (element.moved embedding.move) =
      (walk.completeObject kind element).within embedding := by
  symm
  refine collect_within ?_
  simp only [Findings.within, Findings.moved, Findings.followedBy, Element.complete,
    Declarations.complete_moved, Declarations.complete_followedBy]
  rfl

/-- The list that closes gives its clause at the place it is moved to. -/
theorem closeList_within (offset : Nat) :
    (walk.within embedding).closeList (list.moved embedding.move) (embedding.move offset) =
      (walk.closeList list offset).within embedding := by
  have hKind : (list.moved embedding.move).kind = list.kind := rfl
  have hOwner : (list.moved embedding.move).owner = list.owner.moved embedding.move := rfl
  rw [closeList, closeList, hKind, hOwner, Owner.place_moved]
  split
  · symm
    exact collect_within (by simp [Findings.within, Findings.moved, Findings.followedBy]; rfl)
  · rfl

/-- An element of a list is completed among the findings of the part, behind all that was found
before. -/
theorem readInterface_within :
    (walk.within embedding).readInterface (list.moved embedding.move)
        (element.moved embedding.move) (here.moved embedding.move) =
      (walk.readInterface list element here).within embedding := by
  rw [readInterface, readInterface, Element.read_moved]
  cases element.read true here with
  | stay element => rfl
  | name word =>
      symm
      refine collect_within (Findings.modifyList_within list.kind fun rows base => ?_)
      rw [Declarations.pushName_moved, Declarations.pushName_followedBy]
  | done =>
      show ((walk.within embedding).completeElement (list.moved embedding.move)
        (element.moved embedding.move)).goto _ = _
      rw [completeElement_within]
      rfl
  | close =>
      show ((walk.within embedding).completeElement (list.moved embedding.move)
        (element.moved embedding.move)).closeList _ _ = _
      rw [completeElement_within]
      exact closeList_within _

/-- The same for object declarations. -/
theorem readObject_within {kind : ObjectKind} :
    (walk.within embedding).readObject kind (home.moved embedding.move)
        (element.moved embedding.move) (here.moved embedding.move) =
      (walk.readObject kind home element here).within embedding := by
  have hEnd : ((walk.within embedding).completeObject kind (element.moved embedding.move)).goto
      (home.moved embedding.move).place =
      ((walk.completeObject kind element).goto home.place).within embedding := by
    rw [completeObject_within, Home.place_moved]
    rfl
  rw [readObject, readObject, Element.read_moved]
  cases element.read false here with
  | stay element => rfl
  | name word =>
      symm
      exact collect_within (by simp [Findings.within, Findings.moved, Findings.followedBy])
  | done => exact hEnd
  | close => exact hEnd

end

/-- The text of a type is collected, and no place is part of it. -/
theorem readType_within {type : TypeText} {before : Option Lexeme} :
    (walk.within embedding).readType (home.moved embedding.move) (type.moved embedding.move)
        (here.moved embedding.move) (before.map (·.moved embedding.move)) =
      (walk.readType home type here before).within embedding := by
  have hExpr : (type.moved embedding.move).expr = type.expr := rfl
  have hDepth : (type.moved embedding.move).depth = type.depth := rfl
  have hNest : (type.moved embedding.move).nest = type.nest := rfl
  have hName : (type.moved embedding.move).name = type.name.map (·.moved embedding.move) := rfl
  rw [readType, readType, hExpr, hDepth, hNest, hName, Lexeme.symbol_moved, Home.place_moved,
    isNext_moved]
  dsimp only
  cases type.name with
  | none =>
      dsimp only [Option.map_none]
      split <;> rfl
  | some name =>
      dsimp only [Option.map_some]
      split
      case h_1 => split <;> rfl
      case h_7 =>
        split
        · exact collect_goto_within
            (by simp [Findings.within, Findings.moved, Findings.followedBy, TypeDefinition.moved])
            rfl
        · rfl
      all_goals rfl

theorem readArchitectureName_within {named : Bool} :
    (walk.within embedding).readArchitectureName named (here.moved embedding.move) =
      (walk.readArchitectureName named here).within embedding := by
  have hName : (if named then
        ((walk.within embedding).collect fun found =>
          { found with
            architectureEntities :=
              found.architectureEntities.push (here.moved embedding.move).word }).goto
          .architectureHeader
      else (walk.within embedding).collect fun found =>
        { found with architectures := found.architectures.push (here.moved embedding.move).word }) =
      (if named then
        (walk.collect fun found =>
          { found with architectureEntities := found.architectureEntities.push here.word }).goto
          .architectureHeader
      else walk.collect fun found =>
        { found with architectures := found.architectures.push here.word }).within embedding := by
    split
    · exact collect_goto_within (by simp [Findings.within, Findings.moved, Findings.followedBy]) rfl
    · symm
      exact collect_within (by simp [Findings.within, Findings.moved, Findings.followedBy])
  rw [readArchitectureName, readArchitectureName, Lexeme.symbol_moved]
  split
  · rfl
  · rfl
  · exact hName
  · exact hName
  · rfl

theorem readArchitectureHeader_within :
    (walk.within embedding).readArchitectureHeader (here.moved embedding.move) =
      (walk.readArchitectureHeader here).within embedding := by
  rw [readArchitectureHeader, readArchitectureHeader, Lexeme.symbol_moved]
  split <;> rfl

theorem readArchitectureDeclarations_within :
    (walk.within embedding).readArchitectureDeclarations (here.moved embedding.move) =
      (walk.readArchitectureDeclarations here).within embedding := by
  rw [readArchitectureDeclarations, readArchitectureDeclarations, Lexeme.symbol_moved]
  split
  · rfl
  · exact readItem_within .architectureDeclarations

theorem readComponentName_within :
    (walk.within embedding).readComponentName (home.moved embedding.move)
        (here.moved embedding.move) =
      (walk.readComponentName home here).within embedding := by
  rw [readComponentName, readComponentName, Lexeme.symbol_moved]
  split
  · exact collect_goto_within (by simp [Findings.within, Findings.moved, Findings.followedBy]) rfl
  · rfl

theorem readComponentHeader_within :
    (walk.within embedding).readComponentHeader (home.moved embedding.move)
        (here.moved embedding.move) =
      (walk.readComponentHeader home here).within embedding := by
  rw [readComponentHeader, readComponentHeader, Lexeme.symbol_moved]
  split <;> rfl

theorem readSubprogramName_within :
    (walk.within embedding).readSubprogramName (home.moved embedding.move)
        (here.moved embedding.move) =
      (walk.readSubprogramName home here).within embedding := by
  rw [readSubprogramName, readSubprogramName, Lexeme.symbol_moved]
  split
  · exact collect_goto_within (by simp [Findings.within, Findings.moved, Findings.followedBy]) rfl
  · rfl

theorem readSubprogramHeader_within :
    (walk.within embedding).readSubprogramHeader (home.moved embedding.move)
        (here.moved embedding.move) (next.map (·.moved embedding.move)) =
      (walk.readSubprogramHeader home here next).within embedding := by
  rw [readSubprogramHeader, readSubprogramHeader, Lexeme.symbol_moved, isNext_moved,
    Home.place_moved]
  split
  case h_3 => split <;> rfl
  all_goals rfl

/-- What ends a body is asked of texts, and the body records nothing. -/
theorem readSubprogramBody_within {nest : BodyNest} {before : Option Lexeme} :
    (walk.within embedding).readSubprogramBody (home.moved embedding.move) nest
        (here.moved embedding.move) (before.map (·.moved embedding.move))
        (next.map (·.moved embedding.move)) =
      (walk.readSubprogramBody home nest here before next).within embedding := by
  have hCloses : closesUnit (next.map (·.moved embedding.move)) = closesUnit next := by
    cases next with
    | none => rfl
    | some lexeme => obtain ⟨token, symbol⟩ := lexeme; cases symbol <;> rfl
  unfold readSubprogramBody
  dsimp only
  rw [Lexeme.symbol_moved, isNext_moved, hCloses]
  split
  case h_7 =>
    split
    · split <;> rfl
    · rfl
  all_goals first
    | rfl
    | (split <;> rfl)

/-- A package that stands in front of the text keeps those in the text from being recorded. -/
theorem pushPackage_within :
    (if (walk.within embedding).found.packages.isEmpty then
        (walk.within embedding).collect fun found =>
          { found with packages := found.packages.push (here.word.moved embedding.move) }
      else walk.within embedding) =
      (if walk.found.packages.isEmpty then
        walk.collect fun found => { found with packages := found.packages.push here.word }
      else walk).within embedding := by
  by_cases hFront : embedding.found.packages.isEmpty = true
  · have hEmpty : (walk.within embedding).found.packages.isEmpty = walk.found.packages.isEmpty := by
      rw [within, Findings.within, Findings.followedBy]
      dsimp only
      rw [if_pos hFront, Findings.moved, Words.isEmpty_moved]
    rw [hEmpty]
    split
    · symm
      exact collect_within (by simp [Findings.within, Findings.moved, Findings.followedBy, hFront])
    · rfl
  · have hEmpty : (walk.within embedding).found.packages.isEmpty = false := by
      simp [within, Findings.within, Findings.followedBy, hFront]
    rw [hEmpty, if_neg Bool.false_ne_true]
    split
    · simp [within, Findings.within, Findings.followedBy, Findings.moved, hFront, collect]
    · rfl

theorem readPackageName_within :
    (walk.within embedding).readPackageName (here.moved embedding.move)
        (next.map (·.moved embedding.move)) =
      (walk.readPackageName here next).within embedding := by
  rw [readPackageName, readPackageName, Lexeme.symbol_moved, isNext_moved]
  split
  · split <;> rfl
  · exact pushPackage_within
  · exact pushPackage_within
  · rfl

theorem readPackageBodyName_within :
    (walk.within embedding).readPackageBodyName (here.moved embedding.move) =
      (walk.readPackageBodyName here).within embedding := by
  rw [readPackageBodyName, readPackageBodyName, Lexeme.symbol_moved]
  split <;> rfl

theorem readPackage_within (home : Home) :
    (walk.within embedding).readPackage (home.moved embedding.move) (here.moved embedding.move) =
      (walk.readPackage home here).within embedding := by
  rw [readPackage, readPackage, Lexeme.symbol_moved]
  split
  · rfl
  · exact readItem_within home

theorem readSkipped_within {depth : Nat} :
    (walk.within embedding).readSkipped (home.moved embedding.move) depth
        (here.moved embedding.move) =
      (walk.readSkipped home depth here).within embedding := by
  rw [readSkipped, readSkipped, Lexeme.symbol_moved, Home.place_moved]
  split
  case h_3 => split <;> rfl
  all_goals rfl

end Walk

end HdlIndex.Vhdl

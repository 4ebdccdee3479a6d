import HdlIndex.Proofs.Symbols.Ledger
import HdlIndex.Verilog.Walk

/-! What reading a word does to always blocks. Outside of them every word leaves them alone, apart
from those that open one. Inside of one a word changes it or closes it, and an assignment under a
clock records the names that it makes targets. -/
namespace HdlIndex

section Outside

namespace HdlProcess

variable {process : HdlProcess} {index : Nat} {word : Word}

/-- A signal target of a process is a body word with the role of a target. -/
theorem mem_signalTargets :
    word ∈ process.signalTargets ↔
      ∃ index : Nat, process.body[index]? = some (⟨word, .target⟩ : BodyWord) := by
  simp only [signalTargets, List.mem_map, List.mem_filter, Array.mem_toList_iff,
    Array.mem_iff_getElem?]
  constructor
  · rintro ⟨⟨other, role⟩, ⟨⟨index, hIndex⟩, hRole⟩, rfl⟩
    obtain rfl : role = .target := by simpa using hRole
    exact ⟨index, hIndex⟩
  · rintro ⟨index, hIndex⟩
    exact ⟨⟨word, .target⟩, ⟨⟨index, hIndex⟩, by simp⟩, rfl⟩

theorem signalTargets_mark (h : word ∈ process.signalTargets) :
    word ∈ (process.mark index .target).signalTargets := by
  rw [mem_signalTargets] at h ⊢
  obtain ⟨place, hPlace⟩ := h
  refine ⟨place, ?_⟩
  rw [mark, Array.getElem?_modify, hPlace]
  split <;> rfl

theorem bodyWord?_mark (index place : Nat) (role : Role) :
    (process.mark index role).bodyWord? place = process.bodyWord? place := by
  rw [bodyWord?, bodyWord?, mark, Array.getElem?_modify]
  split
  · cases process.body[place]? <;> rfl
  · rfl

/-- A word that is marked as a target is one. -/
theorem mem_signalTargets_mark (h : process.bodyWord? index = some word) :
    word ∈ (process.mark index .target).signalTargets := by
  obtain ⟨entry, hEntry, rfl⟩ := Option.map_eq_some_iff.1 h
  rw [mem_signalTargets]
  refine ⟨index, ?_⟩
  rw [mark, Array.getElem?_modify, if_pos rfl, hEntry]
  rfl

/-- Marked words become targets, and targets stay targets. -/
theorem signalTargets_mark_foldl (process : HdlProcess) (indices : List Nat) :
    (∀ word ∈ process.signalTargets,
      word ∈ (indices.foldl (·.mark · .target) process).signalTargets) ∧
    ∀ word ∈ indices.filterMap process.bodyWord?,
      word ∈ (indices.foldl (·.mark · .target) process).signalTargets := by
  induction indices generalizing process with
  | nil => simp
  | cons index indices ih =>
      obtain ⟨hKept, hMarked⟩ := ih (process.mark index .target)
      refine ⟨fun word hMem => hKept word (signalTargets_mark hMem), fun word hMem => ?_⟩
      obtain ⟨place, hPlace, hWord⟩ := List.mem_filterMap.1 hMem
      rcases List.mem_cons.1 hPlace with rfl | hPlace
      · exact hKept word (mem_signalTargets_mark hWord)
      · exact hMarked word (List.mem_filterMap.2 ⟨place, hPlace, by rwa [bodyWord?_mark]⟩)

/-- Marking targets goes on with the process: no word is lost or moved. -/
theorem Continues.mark_foldl (here : Word) (process : HdlProcess) (indices : List Nat) :
    process.Continues here (indices.foldl (·.mark · .target) process) := by
  induction indices generalizing process with
  | nil => exact .refl here process
  | cons index indices ih =>
      have hRest := ih (process.mark index .target)
      exact ⟨hRest.label, hRest.span, by simpa [words_mark] using hRest.words, hRest.clocked⟩

theorem signalTargets_pushBody (h : word ∈ process.signalTargets) (here : Word) (role : Role) :
    word ∈ (process.pushBody here role).signalTargets := by
  rw [signalTargets, pushBody, Array.toList_push, List.filter_append, List.map_append]
  exact List.mem_append_left _ h

end HdlProcess

namespace Verilog

/-- A block whose event control is read has no body yet, and the blocks that are walked under a
clock are clocked. -/
def Place.Sound : Place → Prop
  | .alwaysHeader process | .sensitivityList process _ => process.body = #[]
  | .alwaysBlock true block => ∀ process ∈ block.process, process.clocked = true
  | _ => True

/-- Where no process is open there is nothing to be sound. -/
theorem Place.sound_of_none {place : Place} (h : place.process? = none) : place.Sound := by
  cases place with
  | alwaysBlock clocked block =>
      have hNone : block.process = none := h
      cases clocked with
      | false => trivial
      | true => simp [Sound, hNone]
  | alwaysHeader process => cases h
  | sensitivityList process depth => cases h
  | _ => trivial

/-- The place is not in a block, be it an always block or another one. -/
def Place.IsBlockFree : Place → Prop
  | .alwaysHeader _ | .sensitivityList .. | .alwaysBlock .. => False
  | _ => True

theorem Place.IsBlockFree.process?_eq_none {place : Place} (h : place.IsBlockFree) :
    place.process? = none := by
  cases place <;> first
    | rfl
    | cases h

namespace Walk

/-- The always blocks as the walk has them. -/
def ledger (walk : Walk) : Ledger := ⟨walk.place.process?, walk.found.processes.toList⟩

/-- Only what the walk knows of conditions, blocks and labels changes, and the notes do. -/
structure Idles (walk base : Walk) : Prop where
  place : base.place = walk.place
  found : base.found = walk.found

namespace Idles

variable {walk base other : Walk}

theorem refl (walk : Walk) : walk.Idles walk := ⟨rfl, rfl⟩

theorem trans (h : walk.Idles base) (h' : base.Idles other) : walk.Idles other :=
  ⟨h'.place.trans h.place, h'.found.trans h.found⟩

theorem endItem (walk : Walk) : walk.Idles walk.endItem := by
  unfold Walk.endItem
  dsimp only
  split
  · exact ⟨rfl, rfl⟩
  · split <;> exact ⟨rfl, rfl⟩

theorem expectLabel (walk : Walk) (recorded : Bool) (next : Option Lexeme) :
    walk.Idles (walk.expectLabel recorded next) := by
  rw [Walk.expectLabel]
  split
  · exact ⟨rfl, rfl⟩
  · exact refl walk

theorem closeBlock (walk : Walk) : walk.Idles walk.closeBlock := by
  have hFrames : ∀ ends : Frame → Bool,
      walk.Idles ({ walk with blocks := walk.blocks - 1 }.leaveFrames ends) := fun _ => ⟨rfl, rfl⟩
  exact (hFrames _).trans (endItem _)

theorem closeCase (walk : Walk) : walk.Idles walk.closeCase := by
  rw [Walk.closeCase]
  split
  · exact endItem walk
  · next outer _ =>
    have hFrames : walk.Idles { walk with frames := outer } := ⟨rfl, rfl⟩
    exact hFrames.trans (endItem _)

theorem readElse (walk : Walk) (next : Option Lexeme) : walk.Idles (walk.readElse next) := by
  rw [Walk.readElse]
  dsimp only
  split <;> exact ⟨rfl, rfl⟩

theorem enterGenerate (walk : Walk) (kind : GenerateKind) (header : String) (next : Option Lexeme) :
    walk.Idles (walk.enterGenerate kind header next) := by
  unfold Walk.enterGenerate
  split <;> exact ⟨rfl, rfl⟩

end Idles

/-- The walk is still at its place, and it has recorded neither blocks nor clocked signals. -/
structure Stays (walk base : Walk) : Prop where
  place : base.place = walk.place
  processes : base.found.processes = walk.found.processes
  clocked : base.found.clocked = walk.found.clocked

/-- Always blocks and clocked signals are as before. -/
structure Keeps (walk other : Walk) : Prop where
  current : other.place.process? = walk.place.process?
  processes : other.found.processes = walk.found.processes
  clocked : other.found.clocked = walk.found.clocked
  sound : other.place.Sound

/-- A block is opened at the word. -/
structure Opens (here : Lexeme) (process : HdlProcess) (walk other : Walk) : Prop where
  current : other.place.process? = some process
  fresh : process.IsFresh
  start : process.span.start = here.span.start
  processes : other.found.processes = walk.found.processes
  clocked : other.found.clocked = walk.found.clocked
  sound : other.place.Sound

/-- The open block goes on as another one. Clocked signals may be added, which are targets of it. -/
structure Grows (here : Word) (process next : HdlProcess) (walk other : Walk) : Prop where
  current : other.place.process? = some next
  continues : process.Continues here next
  targets : ∀ word ∈ process.signalTargets, word ∈ next.signalTargets
  processes : other.found.processes = walk.found.processes
  clocked : ∃ targets conditions,
    other.found.clocked =
      targets.foldl (fun signals target => signals.record target.stem conditions)
      walk.found.clocked ∧
    (targets ≠ [] → next.clocked = true) ∧ ∀ target ∈ targets, target ∈ next.signalTargets
  sound : other.place.Sound

/-- The open block is closed behind the word, and none is open then. -/
structure Closes (here : Lexeme) (process : HdlProcess) (walk other : Walk) : Prop where
  current : other.place.process? = none
  processes : other.found.processes = walk.found.processes.push (process.close here.span.stop)
  clocked : other.found.clocked = walk.found.clocked

/-- What reading a word does to always blocks. -/
inductive Turn (here : Lexeme) (walk : Walk) : Walk → Prop where
  | keeps {other : Walk} (h : walk.Keeps other) : Turn here walk other
  | opens {process : HdlProcess} {other : Walk} (h : walk.place.process? = none)
      (hOpens : Opens here process walk other) : Turn here walk other
  | grows {process next : HdlProcess} {other : Walk} (h : walk.place.process? = some process)
      (hGrows : Grows here.word process next walk other) : Turn here walk other
  | closes {process : HdlProcess} {other : Walk} (h : walk.place.process? = some process)
      (hCloses : Closes here process walk other) : Turn here walk other

theorem Idles.stays {walk base : Walk} (h : walk.Idles base) : walk.Stays base := by
  obtain ⟨hPlace, hFound⟩ := h
  exact ⟨hPlace, congrArg Findings.processes hFound, congrArg Findings.clocked hFound⟩

namespace Stays

variable {walk base other : Walk} {item : Item} {owner : Owner} {home : Home} {place : Place}
  {next : Option Lexeme} {kind : GenerateKind}

theorem refl (walk : Walk) : walk.Stays walk := ⟨rfl, rfl, rfl⟩

/-- What an item completes is no process and no clocked signal. -/
theorem flush (walk : Walk) (item : Item) : walk.Stays (walk.flush item) := by
  have hPort : ∀ found name, (declarePort found item name).processes = found.processes ∧
      (declarePort found item name).clocked = found.clocked := by
    intro found name
    rw [declarePort]
    split <;> exact ⟨rfl, rfl⟩
  have hNet : ∀ found name, (declareNet found item name).processes = found.processes ∧
      (declareNet found item name).clocked = found.clocked := by
    intro found name
    rw [declareNet]
    split <;> exact ⟨rfl, rfl⟩
  have hItem : (declare walk.found item).processes = walk.found.processes ∧
      (declare walk.found item).clocked = walk.found.clocked := by
    rw [declare]
    split
    · exact ⟨rfl, rfl⟩
    · split
      all_goals try exact ⟨rfl, rfl⟩
      · exact hPort _ _
      · exact hNet _ _
  exact ⟨rfl, hItem.1, hItem.2⟩

theorem commitInstance (walk : Walk) (type name : Word) :
    walk.Stays (walk.commitInstance type name) :=
  ⟨rfl, rfl, rfl⟩

/-- Outside of blocks the walk may go on at any place that is outside of them too. -/
theorem goto (h : walk.Stays base) (hNone : walk.place.process? = none)
    (hPlace : place.process? = none) : walk.Keeps (base.goto place) :=
  ⟨hPlace.trans hNone.symm, h.processes, h.clocked, Place.sound_of_none hPlace⟩

theorem gotoOwner (h : walk.Stays base) (hNone : walk.place.process? = none) :
    walk.Keeps (base.goto owner.place) :=
  h.goto hNone (by cases owner <;> rfl)

theorem keeps (h : walk.Stays base) (hNone : walk.place.process? = none) : walk.Keeps base :=
  ⟨congrArg Place.process? h.place, h.processes, h.clocked,
    Place.sound_of_none (h.place ▸ hNone)⟩

/-- Returning to the module's body leaves the block that was open. -/
theorem backToBody (h : walk.Stays base) (hNone : walk.place.process? = none) :
    walk.Keeps base.backToBody := by
  have hBody : walk.Keeps (base.goto .moduleBody) := h.goto hNone rfl
  have hEnd := (Idles.endItem (base.goto .moduleBody)).stays
  exact ⟨(congrArg Place.process? hEnd.place).trans hBody.current,
    hEnd.processes.trans hBody.processes, hEnd.clocked.trans hBody.clocked,
    hEnd.place ▸ hBody.sound⟩

theorem resume (h : walk.Stays base) (hNone : walk.place.process? = none) :
    walk.Keeps (base.resume home) := by
  cases home with
  | moduleContext => exact h.goto hNone rfl
  | moduleHeader announced => exact h.goto hNone rfl
  | moduleBody => exact h.backToBody hNone

end Stays

namespace Keeps

variable {walk : Walk} {item : Item} {owner : Owner} {home : Home} {here : Lexeme} {place : Place}
  {next : Option Lexeme} {depth : Nat} {expr : Capture} {statement : Instantiation}
  {kind : GenerateKind}

theorem refl (h : walk.place.process? = none) : walk.Keeps walk := (Stays.refl walk).keeps h

theorem goto (h : walk.place.process? = none) (hPlace : place.process? = none) :
    walk.Keeps (walk.goto place) :=
  (Stays.refl walk).goto h hPlace

theorem closeParameters {base : Walk} (hBase : walk.Stays base) (h : walk.place.process? = none)
    (inside offset : Nat) : walk.Keeps (base.closeParameters owner inside offset) := by
  have hClause : walk.Stays (base.collect fun found =>
      { found with genericClause := some ⟨inside, offset⟩ }) :=
    ⟨hBase.place, hBase.processes, hBase.clocked⟩
  exact hClause.gotoOwner h

theorem readParameters (h : walk.place.process? = none) (inside : Nat) :
    walk.Keeps (walk.readParameters owner inside item here) := by
  rw [Walk.readParameters]
  split
  · exact goto h rfl
  · exact (Stays.flush walk item).goto h rfl
  · exact (Stays.flush walk item).goto h rfl
  · exact closeParameters (.flush walk item) h _ _

theorem readPorts (h : walk.place.process? = none) :
    walk.Keeps (walk.readPorts owner item here) := by
  rw [Walk.readPorts]
  split
  · exact goto h rfl
  · exact (Stays.flush walk item).goto h rfl
  · exact (Stays.flush walk item).goto h rfl
  · exact (Stays.flush walk item).gotoOwner h

theorem readDeclaration (h : walk.place.process? = none) :
    walk.Keeps (walk.readDeclaration item here) := by
  rw [Walk.readDeclaration]
  split
  · exact goto h rfl
  · exact (Stays.flush walk item).goto h rfl
  · exact (Stays.flush walk item).backToBody h
  · exact (Stays.flush walk item).backToBody h

theorem readContext (h : walk.place.process? = none) : walk.Keeps (walk.readContext here) := by
  rw [Walk.readContext]
  split
  all_goals try exact goto h rfl
  exact refl h

theorem readModuleName (h : walk.place.process? = none) :
    walk.Keeps (walk.readModuleName here) := by
  rw [Walk.readModuleName]
  split
  · have hFound : walk.Stays ((walk.note (.moduleFound here.text)).collect fun found =>
        { found with modules := found.modules.push here.word }) := ⟨rfl, rfl, rfl⟩
    exact hFound.goto h rfl
  · exact refl h

/-- Without an open process nothing in a header touches one. -/
theorem readModuleHeader (h : walk.place.process? = none) (announced : Bool) :
    walk.Keeps (walk.readModuleHeader announced here) := by
  rw [Walk.readModuleHeader]
  split
  · exact goto h rfl
  · split <;> exact goto h rfl
  · have hBlocks : walk.Stays { walk with blocks := 0 } := ⟨rfl, rfl, rfl⟩
    exact hBlocks.backToBody h
  · exact goto h rfl
  · exact refl h

theorem readImport (h : walk.place.process? = none) :
    walk.Keeps (walk.readImport home here next) := by
  have hPackage : walk.Stays (walk.collect fun found =>
      { found with packages := found.packages.push here.word }) := ⟨rfl, rfl, rfl⟩
  rw [Walk.readImport]
  split
  · exact (Stays.refl walk).resume h
  · split
    · exact hPackage.keeps h
    · exact refl h
  · split
    · exact hPackage.keeps h
    · exact refl h
  · exact refl h

theorem readSkippedBlock (h : walk.place.process? = none) (closer : Keyword) :
    walk.Keeps (walk.readSkippedBlock closer home here) := by
  rw [Walk.readSkippedBlock]
  split
  · exact (Stays.refl walk).resume h
  · exact refl h

theorem readSkipped (h : walk.place.process? = none) :
    walk.Keeps (walk.readSkipped depth here) := by
  rw [Walk.readSkipped]
  split
  · exact goto h rfl
  split
  · exact goto h rfl
  split
  · exact (Stays.refl walk).backToBody h
  · exact refl h

theorem readChoice (h : walk.place.process? = none) :
    walk.Keeps (walk.readChoice depth expr here) := by
  rw [Walk.readChoice]
  dsimp only
  split
  · exact ⟨h.symm, rfl, rfl, trivial⟩
  split
  · exact goto h rfl
  split
  · exact goto h rfl
  · exact goto h rfl

theorem readGenerate (h : walk.place.process? = none) :
    walk.Keeps (walk.readGenerate kind depth expr here next) := by
  rw [Walk.readGenerate]
  dsimp only
  split
  · exact goto h rfl
  split
  · exact goto h rfl
  split
  · exact (Idles.enterGenerate walk kind _ next).stays.goto h rfl
  split
  · exact goto h rfl
  split
  · exact goto h rfl
  · exact refl h

theorem readInstanceName (h : walk.place.process? = none) :
    walk.Keeps (walk.readInstanceName statement here) := by
  rw [Walk.readInstanceName]
  dsimp only
  split
  · exact goto h rfl
  split
  · exact goto h rfl
  · exact refl h

theorem readInstance (h : walk.place.process? = none) :
    walk.Keeps (walk.readInstance statement depth here) := by
  rw [Walk.readInstance]
  dsimp only
  split
  · split
    · exact goto h rfl
    · exact goto h rfl
    · exact refl h
  split
  all_goals try exact readDeclaration h
  · exact goto h rfl
  · exact (Stays.commitInstance walk _ _).goto h rfl
  · split <;> exact goto h rfl
  · exact goto h rfl
  · exact (Stays.refl walk).backToBody h
  · exact readInstanceName h
  · exact goto h rfl

theorem readMap (h : walk.place.process? = none) :
    walk.Keeps (walk.readMap statement depth here) := by
  unfold Walk.readMap
  split
  · exact goto h rfl
  split
  · exact goto h rfl
  split
  · exact goto h rfl
  · exact (Stays.refl walk).backToBody h
  · exact refl h

/-- Of the keywords between items those of always blocks open a process, and no other touches
one. -/
theorem readItemKeyword {word : Keyword} (h : walk.place.process? = none) :
    walk.readItemKeyword word here next = walk.beginAlways word here ∨
      walk.Keeps (walk.readItemKeyword word here next) := by
  unfold Walk.readItemKeyword
  split
  all_goals try exact .inl rfl
  all_goals refine .inr ?_
  all_goals try exact goto h rfl
  all_goals try exact readDeclaration h
  · have hBlocks : walk.Idles { walk with blocks := walk.blocks + 1 } := ⟨rfl, rfl⟩
    exact (hBlocks.trans (.expectLabel _ _ next)).stays.keeps h
  · exact ((Idles.closeBlock walk).trans (.expectLabel _ _ next)).stays.keeps h
  · exact (Idles.closeCase walk).stays.keeps h
  · exact Stays.keeps ⟨rfl, rfl, rfl⟩ h
  · exact Stays.keeps ⟨rfl, rfl, rfl⟩ h
  · exact ⟨h.symm, rfl, rfl, trivial⟩
  · exact (Idles.readElse walk next).stays.keeps h
  · split
    · exact readDeclaration h
    · exact goto h rfl

/-- So does an item: it opens a process or keeps what there is. -/
theorem readItem (h : walk.place.process? = none) :
    (∃ word, walk.readItem here next = walk.beginAlways word here) ∨
      walk.Keeps (walk.readItem here next) := by
  rw [Walk.readItem]
  split
  · exact .inr (readChoice h)
  split
  · exact .inr ((Idles.endItem walk).stays.keeps h)
  · next word _ => exact (readItemKeyword h).imp_left fun hBegins => ⟨word, hBegins⟩
  · exact .inr (goto h rfl)
  · exact .inr (goto h rfl)

/-- Outside of blocks a word leaves them alone, unless it begins one. -/
theorem read (hFree : walk.place.IsBlockFree) :
    (∃ word, walk.read here next = walk.beginAlways word here) ∨
    walk.Keeps (walk.read here next) := by
  have h := hFree.process?_eq_none
  rw [Walk.read]
  split
  · exact .inr (readContext h)
  · exact .inr (readModuleName h)
  · exact .inr (readModuleHeader h _)
  · exact .inr (readParameters h _)
  · exact .inr (readPorts h)
  · exact readItem h
  · exact .inr (readDeclaration h)
  · exact .inr (readImport h)
  · exact .inr (readInstance h)
  · exact .inr (readMap h)
  · exact .inr (readGenerate h)
  · exact .inr (readChoice h)
  · next hPlace => simp [hPlace, Place.IsBlockFree] at hFree
  · next hPlace => simp [hPlace, Place.IsBlockFree] at hFree
  · next hPlace => simp [hPlace, Place.IsBlockFree] at hFree
  · exact .inr (readSkipped h)
  · exact .inr (readSkippedBlock h _)

/-- What is under way outside of blocks may end with the text. -/
theorem flushAt (h : walk.place.Sound) (offset : Nat) : walk.Keeps (walk.flushAt offset) := by
  unfold Walk.flushAt
  split
  · next owner inside item hPlace =>
      exact closeParameters (.flush walk item) (by rw [hPlace]; rfl) _ _
  · next owner item hPlace => exact (Stays.flush walk item).gotoOwner (by rw [hPlace]; rfl)
  · next item hPlace => exact (Stays.flush walk item).goto (by rw [hPlace]; rfl) rfl
  · exact ⟨rfl, rfl, rfl, h⟩

end Keeps

end Walk
end Verilog

end Outside

namespace Verilog.Walk

variable {walk base : Walk} {here : Lexeme} {next : Option Lexeme} {process : HdlProcess}
  {block other : Block} {clocked : Bool} {word : Keyword}

/-- The walk stands in a block, of which at least the always block it is part of is as it was. -/
structure InBlock (walk : Walk) (clocked : Bool) (block : Block) : Prop where
  current : walk.place.process? = block.process
  sound : (Place.alwaysBlock clocked block).Sound

namespace InBlock

/-- Counters and statements may change. -/
theorem of_eq (h : walk.InBlock clocked block) (hSame : other.process = block.process) :
    walk.InBlock clocked other where
  current := h.current.trans hSame.symm
  sound := by
    cases clocked with
    | false => trivial
    | true =>
        intro process hMem
        exact h.sound process (hSame ▸ hMem)

theorem stay (h : walk.InBlock clocked block) (hSame : other.process = block.process) :
    walk.Turn here (walk.goto (.alwaysBlock clocked other)) :=
  .keeps ⟨(h.of_eq hSame).current.symm, rfl, rfl, (h.of_eq hSame).sound⟩

/-- A label behind a block word keeps the process. -/
theorem label {recorded : Bool} (h : walk.InBlock clocked block)
    (hSame : other.process = block.process) :
    walk.Turn here ((walk.goto (.alwaysBlock clocked other)).expectLabel recorded next) := by
  have hLabel := (Idles.expectLabel (walk.goto (.alwaysBlock clocked other)) recorded next).stays
  have hOther := h.of_eq hSame
  exact .keeps ⟨(congrArg Place.process? hLabel.place).trans hOther.current.symm, hLabel.processes,
    hLabel.clocked, hLabel.place ▸ hOther.sound⟩

/-- A name is added to the block. -/
theorem bodyWord (h : walk.InBlock clocked block) :
    walk.Turn here (walk.goto (.alwaysBlock clocked (readBodyWord block here))) := by
  rw [readBodyWord]
  dsimp only
  split
  · next process _ hProcess =>
    refine .grows (h.current.trans hProcess) ⟨rfl, .pushBody _ process _, fun target hTarget =>
      HdlProcess.signalTargets_pushBody hTarget _ _, rfl, ⟨[], [], rfl, by simp⟩, ?_⟩
    cases clocked with
    | false => trivial
    | true =>
        rintro _ ⟨⟩
        exact h.sound process hProcess
  · exact h.stay rfl

theorem opener (h : walk.InBlock clocked block) :
    walk.Turn here (walk.goto (.alwaysBlock clocked (readOpener block here))) := by
  refine h.stay ?_
  unfold readOpener
  dsimp only
  split <;> rfl

theorem closer (h : walk.InBlock clocked block) :
    walk.Turn here (walk.goto (.alwaysBlock clocked (readCloser block here))) := by
  refine h.stay ?_
  unfold readCloser
  dsimp only
  split <;> rfl

/-- The end of a statement closes the block, unless an `else` continues it. -/
theorem endStatement (h : walk.InBlock clocked block) :
    walk.Turn here (walk.endStatement clocked block here next) := by
  rw [Walk.endStatement]
  split
  · exact h.stay rfl
  · split
    · next process hProcess =>
      have hEnd :=
        (Idles.endItem ((walk.commitProcess process here.span.stop).goto .moduleBody)).stays
      exact .closes (h.current.trans hProcess)
        ⟨congrArg Place.process? hEnd.place, hEnd.processes, hEnd.clocked⟩
    · next hNone => exact .keeps ((Stays.refl walk).backToBody (h.current.trans hNone))

/-- Recording the targets of a block leaves the processes alone and adds the targets one by one to
the clocked signals. -/
theorem clocked_recordClocked_foldl (found : Findings) (targets : List Word)
    (conditions : List String) :
    (targets.foldl (recordClocked · · conditions) found).processes = found.processes ∧
    (targets.foldl (recordClocked · · conditions) found).clocked =
      targets.foldl (fun signals target => signals.record target.stem conditions)
        found.clocked := by
  induction targets generalizing found with
  | nil => exact ⟨rfl, rfl⟩
  | cons target targets ih =>
      rw [List.foldl_cons, List.foldl_cons]
      exact ih (recordClocked found target conditions)

/-- The names in front of an assignment become targets, and those of a non-blocking one under a
clock are recorded. -/
theorem assignment (h : walk.InBlock clocked block) (nonBlocking : Bool) :
    walk.Turn here (walk.readAssignment clocked block nonBlocking) := by
  rw [readAssignment]
  dsimp only
  split
  · exact h.stay rfl
  · exact h.stay rfl
  · next process hProcess _ =>
    have hTargets := HdlProcess.signalTargets_mark_foldl process block.statement.targets
    have hMarked := HdlProcess.Continues.mark_foldl here.word process block.statement.targets
    have hSound : ∀ other : Block,
        other.process = some (block.statement.targets.foldl (·.mark · .target) process) →
        (Place.alwaysBlock clocked other).Sound := by
      intro other hOther
      cases clocked with
      | false => trivial
      | true =>
          intro marked hMem
          obtain rfl := Option.some.inj (hOther.symm.trans hMem)
          exact hMarked.clocked (h.sound process hProcess)
    refine .grows (h.current.trans hProcess) (?_ : Grows here.word process
      (block.statement.targets.foldl (·.mark · .target) process) walk _)
    split
    · next hClocked =>
      obtain ⟨hProcesses, hRecorded⟩ := clocked_recordClocked_foldl walk.found
        (block.statement.targets.filterMap process.bodyWord?) walk.conditions
      refine ⟨rfl, hMarked, hTargets.1, hProcesses, ⟨_, _, hRecorded, ?_, hTargets.2⟩,
        hSound _ rfl⟩
      obtain rfl : clocked = true := by
        rw [Bool.and_eq_true] at hClocked
        exact hClocked.1
      exact fun _ => hSound { block with process := some _ } rfl _ rfl
    · exact ⟨rfl, hMarked, hTargets.1, rfl, ⟨[], [], rfl, by simp⟩, hSound _ rfl⟩

/-- A keyword in a block makes it grow or closes it. -/
theorem keyword (h : walk.InBlock clocked block) :
    walk.Turn here (walk.readBlockKeyword clocked block word here next) := by
  have hClose : walk.Turn here
      (let block := { block with nest := block.nest - 1, statement := {} }
      if block.nest = 0 then walk.endStatement clocked block here next
      else (walk.goto (.alwaysBlock clocked block)).expectLabel false next) := by
    dsimp only
    split
    · exact endStatement (h.of_eq rfl)
    · exact h.label rfl
  unfold readBlockKeyword
  dsimp only
  split
  case h_9 =>
    split
    · exact h.stay rfl
    split
    · exact hClose
    · exact h.bodyWord
  all_goals first
    | exact h.stay rfl
    | exact h.label rfl

/-- And so does any word in a block. -/
theorem read (h : walk.InBlock clocked block) :
    walk.Turn here (walk.readBlock clocked block here next) := by
  rw [readBlock]
  dsimp only
  split
  · exact h.opener
  split
  · exact h.closer
  split
  · exact h.bodyWord
  split
  · split
    · exact endStatement (h.of_eq rfl)
    · exact h.stay rfl
  · exact h.keyword
  · exact h.stay rfl
  · split <;> exact h.stay rfl
  · exact h.assignment _
  · exact h.assignment _
  · exact h.stay rfl
  · exact h.stay rfl
  · exact h.bodyWord

end InBlock

namespace Turn

/-- An always block opens at its keyword, with no words yet. -/
theorem beginAlways (h : walk.place.process? = none) :
    walk.Turn here (walk.beginAlways word here) := by
  have hFresh : ∀ all, HdlProcess.IsFresh
      { HdlProcess.starting none here.span.start with all } := fun _ => ⟨rfl, rfl⟩
  unfold Walk.beginAlways
  dsimp only
  split
  · exact .keeps (.goto h rfl)
  · exact .keeps (.goto h rfl)
  · exact .opens h ⟨rfl, hFresh true, rfl, rfl, rfl, trivial⟩
  · exact .opens h ⟨rfl, hFresh true, rfl, rfl, rfl, rfl⟩
  · exact .opens h ⟨rfl, hFresh false, rfl, rfl, rfl, rfl⟩

/-- The words of an event control are added to the sensitivity list of the process that is open. -/
theorem readSensitivity {depth : Nat} (h : walk.place = .sensitivityList process depth)
    (hSound : walk.place.Sound) : walk.Turn here (walk.readSensitivity process depth here) := by
  have hCurrent : walk.place.process? = some process := by rw [h]; rfl
  have hBody : process.body = #[] := by rwa [h] at hSound
  have hGoes : ∀ {other : HdlProcess} {place : Place}, process.Continues here.word other →
      other.body = #[] → place.process? = some other → place.Sound →
      walk.Turn here (walk.goto place) := by
    intro other place hContinues hOther hPlace hSound
    refine .grows hCurrent ⟨hPlace, hContinues, ?_, rfl, ⟨[], [], rfl, by simp⟩, hSound⟩
    simp [HdlProcess.signalTargets, hBody]
  have hListed : ∀ {other : HdlProcess}, process.Continues here.word other → other.body = #[] →
      walk.Turn here (if depth = 0 then walk.enterBlock false (some other)
        else walk.goto (.sensitivityList other depth)) := by
    intro other hContinues hOther
    split
    · exact hGoes hContinues hOther rfl trivial
    · exact hGoes hContinues hOther rfl hOther
  rw [Walk.readSensitivity]
  dsimp only
  split
  · exact hGoes (.refl _ process) hBody rfl hBody
  · split
    · refine hGoes (.refl _ process) hBody rfl ?_
      cases hClocked : process.clocked with
      | false => trivial
      | true =>
          rintro _ ⟨⟩
          exact hClocked
    · exact hGoes (.refl _ process) hBody rfl hBody
  · exact hListed ((HdlProcess.Continues.refl _ process).raise id) hBody
  · exact hGoes ((HdlProcess.Continues.refl _ process).raise fun _ => rfl) hBody rfl hBody
  · exact hGoes ((HdlProcess.Continues.refl _ process).raise fun _ => rfl) hBody rfl hBody
  · exact hListed (.pushSensitivity _ hBody) hBody
  · exact .keeps ⟨rfl, rfl, rfl, hSound⟩

/-- Without an event control the words of the block begin at once. -/
theorem readAlwaysHeader (h : walk.place = .alwaysHeader process) (hSound : walk.place.Sound) :
    walk.Turn here (walk.readAlwaysHeader process here next) := by
  have hCurrent : walk.place.process? = some process := by rw [h]; rfl
  rw [Walk.readAlwaysHeader]
  split
  · exact .keeps ⟨hCurrent.symm, rfl, rfl, by rwa [h] at hSound⟩
  · exact InBlock.read ⟨hCurrent, trivial⟩

/-- Outside of blocks a word leaves them alone, or it begins one. -/
theorem outside (h : walk.place.IsBlockFree) : walk.Turn here (walk.read here next) := by
  rcases Keeps.read h with ⟨word, hBegins⟩ | hKeeps
  · rw [hBegins]
    exact beginAlways h.process?_eq_none
  · exact .keeps hKeeps

/-- Reading a word is one of the four, wherever the walk stands. -/
theorem read (hSound : walk.place.Sound) : walk.Turn here (walk.read here next) := by
  cases hPlace : walk.place with
  | alwaysHeader process =>
      rw [Walk.read, hPlace]
      exact readAlwaysHeader hPlace hSound
  | sensitivityList process depth =>
      rw [Walk.read, hPlace]
      exact readSensitivity hPlace hSound
  | alwaysBlock clocked block =>
      rw [Walk.read, hPlace]
      exact InBlock.read ⟨by rw [hPlace]; rfl, by rwa [hPlace] at hSound⟩
  | _ => exact outside (by rw [hPlace]; trivial)

/-- What the walk does before it reads the word may be left out. -/
theorem of_stays {other : Walk} (hBase : walk.Stays base) (h : base.Turn here other) :
    walk.Turn here other := by
  obtain ⟨hPlace, hProcesses, hClocked⟩ := hBase
  cases h with
  | keeps h =>
      exact .keeps ⟨hPlace ▸ h.current, h.processes.trans hProcesses, h.clocked.trans hClocked,
        h.sound⟩
  | opens h hOpens =>
      exact .opens (hPlace ▸ h) { hOpens with
        processes := hOpens.processes.trans hProcesses, clocked := hOpens.clocked.trans hClocked }
  | grows h hGrows =>
      exact .grows (hPlace ▸ h) { hGrows with
        processes := hGrows.processes.trans hProcesses, clocked := hClocked ▸ hGrows.clocked }
  | closes h hCloses =>
      exact .closes (hPlace ▸ h) { hCloses with
        processes := hProcesses ▸ hCloses.processes, clocked := hCloses.clocked.trans hClocked }

/-- The words of labels leave blocks alone. -/
theorem readWord (hSound : walk.place.Sound) : walk.Turn here (walk.readWord here next) := by
  rw [Walk.readWord]
  split
  · next labelled hLabel =>
    refine .keeps ?_
    rw [Walk.readLabel?] at hLabel
    split at hLabel
    · cases hLabel
    · split at hLabel
      · cases hLabel
        exact ⟨rfl, rfl, rfl, hSound⟩
      · cases hLabel
    · split at hLabel
      · cases hLabel
        split <;> exact ⟨rfl, rfl, rfl, hSound⟩
      · cases hLabel
  · refine of_stays ?_ (read ?_)
    · exact ⟨rfl, rfl, rfl⟩
    · exact hSound

/-- A step leads to a sound place. -/
theorem sound {other : Walk} (h : walk.Turn here other) : other.place.Sound := by
  cases h with
  | keeps h => exact h.sound
  | opens h hOpens => exact hOpens.sound
  | grows h hGrows => exact hGrows.sound
  | closes h hCloses => exact Place.sound_of_none hCloses.current

end Turn

theorem sound_absorb (h : walk.place.Sound) (token : Token) : (walk.place.absorb token).Sound := by
  generalize walk.place = place at h
  cases place with
  | alwaysHeader process => exact h
  | sensitivityList process depth => exact h
  | alwaysBlock clocked block => exact h
  | _ => trivial

theorem process?_absorb (place : Place) (token : Token) :
    (place.absorb token).process? = place.process? := by
  cases place <;> rfl

theorem sound_start (region : Region) : (Walk.start region).place.Sound := by
  cases region <;> trivial

end Verilog.Walk

end HdlIndex

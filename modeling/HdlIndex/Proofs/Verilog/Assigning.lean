import HdlIndex.Proofs.Symbols.Distinct
import HdlIndex.Proofs.Symbols.InOrder
import HdlIndex.Proofs.Verilog.Turns

/-! The order of clocked signals. They are recorded by the assignments of a block while it is read,
each one with all names that it assigns. An operator that comes again in a statement finds names
that are recorded already, and perhaps some behind them; the names of another statement are behind
both. -/
namespace HdlIndex

namespace HdlProcess

variable {process : HdlProcess} {indices : List Nat} {word : Word} {role : Role}

theorem bodyWord?_pushBody_size :
    (process.pushBody word role).bodyWord? process.body.size = some word := by
  simp [bodyWord?, pushBody]

/-- A word that is added changes none of the earlier ones. -/
theorem filterMap_bodyWord?_pushBody (h : ∀ index ∈ indices, index < process.body.size) :
    indices.filterMap (process.pushBody word role).bodyWord? =
      indices.filterMap process.bodyWord? := by
  refine List.filterMap_congr fun index hMem => ?_
  rw [bodyWord?, bodyWord?, pushBody, Array.getElem?_push_lt (h index hMem),
    Array.getElem?_eq_getElem (h index hMem)]

/-- Making words targets leaves their number and their texts as they are. -/
theorem body_mark_foldl (process : HdlProcess) (indices : List Nat) :
    (indices.foldl (·.mark · .target) process).body.size = process.body.size ∧
    (indices.foldl (·.mark · .target) process).bodyWord? = process.bodyWord? := by
  induction indices generalizing process with
  | nil => exact ⟨rfl, rfl⟩
  | cons index indices ih =>
      obtain ⟨hSize, hWords⟩ := ih (process.mark index .target)
      refine ⟨hSize.trans (by simp [mark]), hWords.trans (funext fun place => ?_)⟩
      exact bodyWord?_mark index place .target

end HdlProcess

/-- In front of a byte offset the clocked signals are in order, and behind them the fresh targets of
the statement under way. The known ones are recorded. -/
structure ClockedSignals.Lead (offset : Nat) (signals : ClockedSignals) (known fresh : List Word) :
    Prop where
  order : Word.AreInOrder (signals.words ++ fresh)
  ends : ∀ word ∈ signals.words ++ fresh, word.span.start < offset ∧ word.span.stop ≤ offset
  sizes : ∀ word ∈ fresh, word.span.stop = word.span.start + word.text.utf8ByteSize
  known : ∀ word ∈ known, signals.words.any (·.text == word.stem.text) = true

namespace ClockedSignals.Lead

variable {signals : ClockedSignals} {known fresh : List Word} {offset later : Nat} {here : Word}
  {conditions : List String}

theorem advance (h : signals.Lead offset known fresh) (hLater : offset ≤ later) :
    signals.Lead later known fresh where
  __ := h
  ends word hMem := ⟨(h.ends word hMem).1.trans_le hLater, (h.ends word hMem).2.trans hLater⟩

/-- Behind a statement there are no targets. -/
theorem clear (h : signals.Lead offset known fresh) : signals.Lead offset [] [] where
  order := by simpa using h.order.sublist (List.sublist_append_left _ _)
  ends word hMem := h.ends word (List.mem_append_left _ (by simpa using hMem))
  sizes := by simp
  known := by simp

/-- A word that is read is behind all that is recorded. -/
theorem push (h : signals.Lead offset known fresh) (hBehind : offset ≤ here.span.start)
    (hText : here.HasText) (hSize : here.span.stop = here.span.start + here.text.utf8ByteSize) :
    signals.Lead here.span.stop known (fresh ++ [here]) where
  order := by
    rw [← List.append_assoc, Word.AreInOrder, List.pairwise_append]
    refine ⟨h.order, List.pairwise_singleton _ _, fun word hMem last hLast => ?_⟩
    obtain rfl := List.mem_singleton.1 hLast
    obtain ⟨hStart, hStop⟩ := h.ends word hMem
    exact ⟨hStart.trans_le hBehind, hStop.trans hBehind⟩
  ends := by
    rw [← List.append_assoc, List.forall_mem_append]
    refine ⟨(h.advance (hBehind.trans hText.le)).ends, fun word hMem => ?_⟩
    obtain rfl := List.mem_singleton.1 hMem
    exact ⟨hText, Nat.le_refl _⟩
  sizes := by
    rw [List.forall_mem_append]
    exact ⟨h.sizes, by simpa using hSize⟩
  known := h.known

/-- An assignment records the fresh targets, and all of them are known then. -/
theorem record (h : signals.Lead offset known fresh) :
    ((known ++ fresh).foldl (fun signals target => signals.record target.stem conditions)
      signals).Lead offset (known ++ fresh) [] := by
  have hKnown : (known.map Word.stem).foldl addNamed signals.words = signals.words :=
    foldl_addNamed_of_known (List.forall_mem_map.2 h.known)
  have hWords :
      ((known ++ fresh).foldl (fun signals target => signals.record target.stem conditions)
      signals).words = (fresh.map Word.stem).foldl addNamed signals.words := by
    rw [words_record_stems, List.map_append, List.foldl_append, hKnown]
  have hSublist : ((fresh.map Word.stem).foldl addNamed signals.words ++ []).Sublist
      (signals.words ++ fresh.map Word.stem) := by
    rw [List.append_nil]
    exact foldl_addNamed_sublist _ _
  have hStop : ∀ word ∈ fresh, word.stem.span.stop ≤ word.span.stop := fun word hMem =>
    (word.isPartOf_stem.within (h.sizes word hMem)).2.2
  have hStems : Word.AreInOrder (signals.words ++ fresh.map Word.stem) := by
    obtain ⟨hSignals, hFresh, hBehind⟩ := List.pairwise_append.1 h.order
    refine List.pairwise_append.2 ⟨hSignals, Word.AreInOrder.stems hFresh h.sizes, ?_⟩
    intro word hMem stem hStem
    obtain ⟨target, hTarget, rfl⟩ := List.mem_map.1 hStem
    exact ⟨(hBehind word hMem target hTarget).start, (hBehind word hMem target hTarget).stop⟩
  rw [← hWords] at hSublist
  refine ⟨hStems.sublist hSublist, fun word hMem => ?_, by simp, fun word hMem => ?_⟩
  · rcases List.mem_append.1 (hSublist.subset hMem) with hOld | hNew
    · exact h.ends word (List.mem_append_left _ hOld)
    · obtain ⟨target, hTarget, rfl⟩ := List.mem_map.1 hNew
      obtain ⟨hStart, hEnd⟩ := h.ends target (List.mem_append_right _ hTarget)
      exact ⟨hStart, (hStop target hTarget).trans hEnd⟩
  · rw [words_record_stems]
    exact any_foldl_addNamed (.inr ⟨word.stem, List.mem_map_of_mem hMem, rfl⟩)

end ClockedSignals.Lead

namespace Verilog

/-- What an assignment would assign are names among the first ones of the block, and in front of its
first word a statement has none. -/
structure Sequential.IsWithin (size : Nat) (statement : Sequential) : Prop where
  begins : statement.count = 0 → statement.targets = []
  within : ∀ index ∈ statement.targets, index < size

namespace Block

variable {block other : Block} {here : Lexeme}

/-- The names that an assignment would assign. -/
def targets (block : Block) : List Word :=
  match block.process with
  | none => []
  | some process => block.statement.targets.filterMap process.bodyWord?

def IsSound (block : Block) : Prop :=
  ∀ process ∈ block.process, block.statement.IsWithin process.body.size

theorem targets_of_some {process : HdlProcess} (h : block.process = some process) :
    block.targets = block.statement.targets.filterMap process.bodyWord? := by
  rw [targets, h]

/-- A block whose statement has no targets under way has none. -/
theorem targets_eq_nil (h : block.statement.targets = []) : block.targets = [] := by
  rw [targets]
  split
  · rfl
  · rw [h, List.filterMap_nil]

theorem isSound_of_targets (h : block.statement.targets = []) : block.IsSound := fun _ _ =>
  ⟨fun _ => h, by simp [h]⟩

/-- The word leaves the targets alone, or it is one more, or they are those of a statement that is
over. -/
structure Extends (here : Word) (block other : Block) : Prop where
  sound : other.IsSound
  targets : other.targets = [] ∨ other.targets = block.targets ∨
    other.targets = block.targets ++ [here]

namespace Extends

/-- Another statement begins. -/
theorem begins (word : Word) (h : other.statement.targets = []) : block.Extends word other :=
  ⟨isSound_of_targets h, .inl (targets_eq_nil h)⟩

/-- What is read of the statement may count. -/
theorem goesOn (word : Word) (h : block.IsSound) (hProcess : other.process = block.process)
    (hTargets : other.statement.targets = block.statement.targets)
    (hCount : other.statement.count = 0 → block.statement.count = 0) :
    block.Extends word other where
  sound process hMem :=
    have hWithin := h process (hProcess ▸ hMem)
    ⟨fun hNone => hTargets ▸ hWithin.begins (hCount hNone), hTargets ▸ hWithin.within⟩
  targets := .inr (.inl (by rw [Block.targets, Block.targets, hProcess, hTargets]))

theorem refl (word : Word) (h : block.IsSound) : block.Extends word block :=
  goesOn word h rfl rfl id

/-- A name is the one that a statement begins with, or one of those in its concatenation, or
neither. -/
theorem readBodyWord (h : block.IsSound) :
    block.Extends here.word (Walk.readBodyWord block here) := by
  rw [Walk.readBodyWord]
  dsimp only
  split
  · next process _ hProcess =>
    have hWithin := h process hProcess
    have hKept : block.statement.targets.filterMap (process.pushBody here.word .read).bodyWord? =
        block.targets := by
      rw [HdlProcess.filterMap_bodyWord?_pushBody hWithin.within, targets_of_some hProcess]
    have hSize : (process.pushBody here.word .read).body.size = process.body.size + 1 :=
      Array.size_push _
    -- The statement goes on with the same targets or with the name as one more.
    have hGoes : ∀ {statement : Sequential}, 0 < statement.count →
        (statement.targets = block.statement.targets ∨
          statement.targets = block.statement.targets ++ [process.body.size]) →
        block.Extends here.word
          { block with process := some (process.pushBody here.word .read), statement } := by
      intro statement hCount hTargets
      constructor
      · rintro _ ⟨⟩
        refine ⟨fun hNone => absurd hNone hCount.ne', fun index hMem => ?_⟩
        rw [hSize]
        rcases hTargets with hSame | hMore
        · exact (hWithin.within index (hSame ▸ hMem)).trans (Nat.lt_succ_self _)
        · rcases List.mem_append.1 (hMore ▸ hMem) with hOld | hNew
          · exact (hWithin.within index hOld).trans (Nat.lt_succ_self _)
          · exact List.mem_singleton.1 hNew ▸ Nat.lt_succ_self _
      · refine .inr (hTargets.imp (fun hSame => ?_) fun hMore => ?_)
        · rw [targets_of_some rfl, hSame, hKept]
        · rw [targets_of_some rfl, hMore, List.filterMap_append, hKept]
          simp [HdlProcess.bodyWord?_pushBody_size]
    refine hGoes ?_ ?_
    · split
      · exact Nat.succ_pos _
      · split <;> exact Nat.succ_pos _
    · split
      · next hFirst =>
        have hNone := hWithin.begins hFirst
        have hConcat : block.statement.concatNames.toList = [] := by
          rw [Sequential.targets, List.append_eq_nil_iff] at hNone
          exact hNone.2
        rw [hNone]
        exact .inr (by simp [Sequential.targets, hConcat])
      · split
        · exact .inr (by simp [Sequential.targets])
        · exact .inl rfl
  · exact goesOn _ h rfl rfl fun hNone => absurd hNone (Nat.succ_ne_zero _)

theorem readOpener (word : Word) (h : block.IsSound) :
    block.Extends word (Walk.readOpener block here) := by
  unfold Walk.readOpener
  dsimp only
  split <;> exact goesOn word h rfl rfl fun hNone => absurd hNone (Nat.succ_ne_zero _)

theorem readCloser (word : Word) (h : block.IsSound) :
    block.Extends word (Walk.readCloser block here) := by
  unfold Walk.readCloser
  dsimp only
  split
  · exact begins word rfl
  · exact goesOn word h rfl rfl id

theorem announceHeader (word : Word) {nest : Nat} (h : block.IsSound) :
    block.Extends word (Walk.announceHeader { block with nest }) :=
  goesOn word h rfl rfl fun hNone => absurd hNone (Nat.succ_ne_zero _)

end Extends
end Block

namespace Place

/-- The names that an assignment would assign. -/
def targets : Place → List Word
  | .alwaysBlock _ block => block.targets
  | _ => []

def IsSound : Place → Prop
  | .alwaysBlock _ block => block.IsSound
  | _ => True

theorem targets_of_none {place : Place} (h : place.process? = none) : place.targets = [] := by
  cases place with
  | alwaysBlock clocked block =>
      have hNone : block.process = none := h
      rw [targets, Block.targets, hNone]
  | _ => rfl

/-- Without an open process no index can be out of its body. -/
theorem isSound_of_none {place : Place} (h : place.process? = none) : place.IsSound := by
  cases place with
  | alwaysBlock clocked block =>
      have hNone : block.process = none := h
      simp [IsSound, Block.IsSound, hNone]
  | _ => trivial

end Place

namespace Walk

/-- What a word does to the targets of the statement under way, and to clocked signals: an
assignment records all targets that it finds, and leaves them alone. -/
structure Tracks (here : Word) (walk other : Walk) : Prop where
  sound : other.place.IsSound
  targets : other.place.targets = [] ∨ other.place.targets = walk.place.targets ∨
    other.place.targets = walk.place.targets ++ [here]
  clocked : other.found.clocked = walk.found.clocked ∨
    other.place.targets = walk.place.targets ∧ ∃ conditions, other.found.clocked =
      walk.place.targets.foldl (fun signals target => signals.record target.stem conditions)
        walk.found.clocked

/-- The walk stands in a block, or in front of one that has no statement yet. -/
structure Within (walk : Walk) (block : Block) : Prop where
  sound : block.IsSound
  targets : walk.place.targets = block.targets

namespace Tracks

variable {walk base other : Walk} {here : Lexeme} {next : Option Lexeme} {process : HdlProcess}
  {block following : Block} {clocked : Bool} {word : Keyword}

/-- Nothing is recorded where no statement is under way. -/
theorem idle {place : Word} (hClocked : other.found.clocked = walk.found.clocked)
    (hSound : other.place.IsSound) (hTargets : other.place.targets = []) :
    walk.Tracks place other :=
  ⟨hSound, .inl hTargets, .inl hClocked⟩

theorem keeps {place : Word} (h : walk.Keeps other) (hNone : walk.place.process? = none) :
    walk.Tracks place other :=
  have hOther := h.current.trans hNone
  idle h.clocked (Place.isSound_of_none hOther) (Place.targets_of_none hOther)

theorem stay (h : walk.Within block) (hExtends : block.Extends here.word following) :
    walk.Tracks here.word (walk.goto (.alwaysBlock clocked following)) :=
  ⟨hExtends.sound, h.targets ▸ hExtends.targets, .inl rfl⟩

/-- A label behind `begin` or `end` is expected without a word of the statement. -/
theorem label {recorded : Bool} (hNone : following.statement.targets = []) :
    walk.Tracks here.word
      ((walk.goto (.alwaysBlock clocked following)).expectLabel recorded next) := by
  have hLabel :=
    (Idles.expectLabel (walk.goto (.alwaysBlock clocked following)) recorded next).stays
  refine idle hLabel.clocked ?_ ?_
  · rw [hLabel.place]
    exact Block.isSound_of_targets hNone
  · rw [hLabel.place]
    exact Block.targets_eq_nil hNone

/-- A statement that ends leaves no names behind that an assignment could still make targets. -/
theorem endStatement (hNone : following.statement.targets = []) :
    walk.Tracks here.word (walk.endStatement clocked following here next) := by
  have hBody : ∀ base : Walk, base.found.clocked = walk.found.clocked →
      walk.Tracks here.word base.backToBody := by
    intro base hClocked
    have hEnd := (Idles.endItem (base.goto .moduleBody)).stays
    refine idle (hEnd.clocked.trans hClocked) ?_ ?_ <;> rw [backToBody, hEnd.place]
    · trivial
    · rfl
  rw [Walk.endStatement]
  split
  · exact idle rfl (Block.isSound_of_targets hNone) (Block.targets_eq_nil hNone)
  · split
    · exact hBody _ rfl
    · exact hBody _ rfl

/-- An operator records the targets that it finds, whatever an earlier one of the statement
found. -/
theorem readAssignment (h : walk.Within block) (nonBlocking : Bool) :
    walk.Tracks here.word (walk.readAssignment clocked block nonBlocking) := by
  have hCounted : block.Extends here.word
      { block with statement := { block.statement with count := block.statement.count + 1 } } :=
    .goesOn _ h.sound rfl rfl fun hNone => absurd hNone (Nat.succ_ne_zero _)
  rw [Walk.readAssignment]
  dsimp only
  split
  · exact stay h (.refl _ h.sound)
  · exact stay h hCounted
  · next process hProcess _ =>
    obtain ⟨hSize, hWords⟩ := HdlProcess.body_mark_foldl process block.statement.targets
    have hBlock := Block.targets_of_some hProcess
    have hSound : Block.IsSound { block with
        process := some (block.statement.targets.foldl (·.mark · .target) process)
        statement := { block.statement with count := block.statement.count + 1 } } := by
      rintro _ ⟨⟩
      refine ⟨fun hNone => absurd hNone (Nat.succ_ne_zero _), ?_⟩
      rw [hSize]
      exact (h.sound process hProcess).within
    have hTargets : Block.targets { block with
        process := some (block.statement.targets.foldl (·.mark · .target) process)
        statement := { block.statement with count := block.statement.count + 1 } } =
          walk.place.targets := by
      rw [h.targets, hBlock, ← hWords]
      rfl
    split
    · refine ⟨hSound, .inr (.inl hTargets), .inr ⟨hTargets, walk.conditions, ?_⟩⟩
      rw [h.targets, hBlock]
      exact (InBlock.clocked_recordClocked_foldl walk.found _ walk.conditions).2
    · exact ⟨hSound, .inr (.inl hTargets), .inl rfl⟩

/-- Reserved words are no names, so that they add none to a statement; they may end it. -/
theorem readBlockKeyword (h : walk.Within block) :
    walk.Tracks here.word (walk.readBlockKeyword clocked block word here next) := by
  have hClose : walk.Tracks here.word
      (let block := { block with nest := block.nest - 1, statement := {} }
      if block.nest = 0 then walk.endStatement clocked block here next
      else (walk.goto (.alwaysBlock clocked block)).expectLabel false next) := by
    dsimp only
    split
    · exact endStatement rfl
    · exact label rfl
  unfold Walk.readBlockKeyword
  dsimp only
  split
  case h_9 =>
    split
    · exact stay h (.announceHeader _ h.sound)
    split
    · exact hClose
    · exact stay h (.readBodyWord h.sound)
  all_goals first
    | exact stay h (.announceHeader _ h.sound)
    | exact stay h (.begins _ rfl)
    | exact label rfl

/-- A word is added to the names of the statement, ends it, or makes its names targets. -/
theorem readBlock (h : walk.Within block) :
    walk.Tracks here.word (walk.readBlock clocked block here next) := by
  rw [Walk.readBlock]
  dsimp only
  split
  · exact stay h (.readOpener _ h.sound)
  split
  · exact stay h (.readCloser _ h.sound)
  split
  · exact stay h (.readBodyWord h.sound)
  split
  · split
    · exact endStatement rfl
    · exact stay h (.begins _ rfl)
  · exact readBlockKeyword h
  · exact stay h (.goesOn _ h.sound rfl rfl id)
  · split
    · exact stay h (.begins _ rfl)
    · exact stay h (.goesOn _ h.sound rfl rfl id)
  · exact readAssignment h _
  · exact readAssignment h _
  · exact stay h (.refl _ h.sound)
  · exact stay h (.refl _ h.sound)
  · exact stay h (.readBodyWord h.sound)

/-- In front of its first word a block has no targets. -/
theorem enters (process : Option HdlProcess) :
    walk.Tracks here.word (walk.enterBlock clocked process) :=
  idle rfl (Block.isSound_of_targets rfl) (Block.targets_eq_nil rfl)

/-- A block begins with no statement under way. -/
theorem beginAlways : walk.Tracks here.word (walk.beginAlways word here) := by
  unfold Walk.beginAlways
  dsimp only
  split
  · exact enters _
  · exact enters _
  · exact enters _
  · exact idle rfl trivial rfl
  · exact idle rfl trivial rfl

/-- The names of an event control are listed, and none of them is assigned. -/
theorem readSensitivity {depth : Nat} (hPlace : walk.place = .sensitivityList process depth) :
    walk.Tracks here.word (walk.readSensitivity process depth here) := by
  have hListed : ∀ process : HdlProcess, walk.Tracks here.word
      (if depth = 0 then walk.enterBlock false (some process)
        else walk.goto (.sensitivityList process depth)) := by
    intro process
    split
    · exact enters _
    · exact idle rfl trivial rfl
  rw [Walk.readSensitivity]
  dsimp only
  split
  · exact idle rfl trivial rfl
  · split
    · exact enters _
    · exact idle rfl trivial rfl
  · exact hListed _
  · exact idle rfl trivial rfl
  · exact idle rfl trivial rfl
  · exact hListed _
  · exact idle rfl (hPlace ▸ trivial) (hPlace ▸ rfl)

/-- Without an event control the word in front of the statements is the first word of one. -/
theorem readAlwaysHeader (hPlace : walk.place = .alwaysHeader process) :
    walk.Tracks here.word (walk.readAlwaysHeader process here next) := by
  rw [Walk.readAlwaysHeader]
  split
  · exact idle rfl trivial rfl
  · refine readBlock ⟨Block.isSound_of_targets rfl, ?_⟩
    rw [hPlace]
    exact (Block.targets_eq_nil rfl).symm

/-- Whatever the place, what a word does to clocked signals comes from the statement that is under
way there. -/
theorem read (walk : Walk) (here : Lexeme) (next : Option Lexeme) (h : walk.place.IsSound) :
    walk.Tracks here.word (walk.read here next) := by
  have hFree : walk.place.IsBlockFree → walk.Tracks here.word (walk.read here next) := by
    intro hFree
    rcases Keeps.read hFree with ⟨word, hBegins⟩ | hKeeps
    · rw [hBegins]
      exact beginAlways
    · exact keeps hKeeps hFree.process?_eq_none
  cases hPlace : walk.place with
  | alwaysHeader process =>
      rw [Walk.read, hPlace]
      exact readAlwaysHeader hPlace
  | sensitivityList process depth =>
      rw [Walk.read, hPlace]
      exact readSensitivity hPlace
  | alwaysBlock clocked block =>
      rw [Walk.read, hPlace]
      rw [hPlace] at h
      exact readBlock ⟨h, hPlace ▸ rfl⟩
  | _ => exact hFree (by rw [hPlace]; trivial)

/-- Wherever the walk stands, a word adds itself to the targets or has them recorded, or neither. -/
theorem readWord (h : walk.place.IsSound) : walk.Tracks here.word (walk.readWord here next) := by
  rw [Walk.readWord]
  split
  · next labelled hLabel =>
    rw [Walk.readLabel?] at hLabel
    split at hLabel
    · cases hLabel
    · split at hLabel
      · cases hLabel
        exact ⟨h, .inr (.inl rfl), .inl rfl⟩
      · cases hLabel
    · split at hLabel
      · cases hLabel
        split <;> exact ⟨h, .inr (.inl rfl), .inl rfl⟩
      · cases hLabel
  · have hRead :=
      read ({ walk with label := .idle }.note (.visited walk.place.region.name here.text))
        here next h
    exact ⟨hRead.sound, hRead.targets, hRead.clocked⟩

end Tracks
end Walk
end Verilog

end HdlIndex

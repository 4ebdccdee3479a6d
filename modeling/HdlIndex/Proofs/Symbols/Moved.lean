import HdlIndex.Log
import HdlIndex.Proofs.Symbols.Recorded
import HdlIndex.Token.Basic
import Mathlib.Order.Lattice

/-! Words of a text that are moved to where they stand in another one. Texts stay as they are, and
every byte offset is replaced by another. What a walk does to lists of words can be done before or
after such a move, as long as it keeps the order of the offsets and the sizes of the words. A text
behind another one is moved as a whole: in a list the rows in front stay where they are, so that a
name that none of them has is found behind them, at an index that counts them. -/
namespace HdlIndex

section Moving

variable {move : Nat → Nat}

/-- The range with both of its ends moved. -/
def Span.moved (move : Nat → Nat) (span : Span) : Span := ⟨move span.start, move span.stop⟩

/-- The word with its range moved. -/
def Word.moved (move : Nat → Nat) (word : Word) : Word := ⟨word.text, word.span.moved move⟩

/-- The token with its range moved. -/
def Token.moved (move : Nat → Nat) (token : Token) : Token := ⟨token.text, token.span.moved move⟩

/-- The bytes of the word are moved together. -/
structure Word.IsRigid (move : Nat → Nat) (word : Word) : Prop where
  size : word.span.stop = word.span.start + word.text.utf8ByteSize
  together : ∀ count ≤ word.text.utf8ByteSize,
    move (word.span.start + count) = move word.span.start + count

/-- A part of what is moved together is moved together. -/
theorem isRigid_inherited (move : Nat → Nat) : Inherited (·.IsRigid move) where
  before _ := ⟨rfl, fun count hCount => by simp_all [Word.absent]⟩
  behind _ := ⟨rfl, fun count hCount => by simp_all [Word.absent]⟩
  stop_eq h := h.size
  part {word} first middle last h hText := by
    have hSize : word.text.utf8ByteSize =
        String.utf8Len first + String.utf8Len middle + String.utf8Len last := by
      rw [← String.ofList_toList (s := word.text), String.utf8ByteSize_ofList, hText]
      simp [Nat.add_assoc]
    refine ⟨by simp [String.utf8ByteSize_ofList], fun count hCount => ?_⟩
    rw [String.utf8ByteSize_ofList] at hCount
    rw [Nat.add_assoc, h.together _ (by omega), h.together _ (by omega), Nat.add_assoc]

/-- The stem of a word is moved with it. -/
theorem Word.IsRigid.stem_moved {word : Word} (h : word.IsRigid move) :
    (word.moved move).stem = word.stem.moved move := by
  have hStem := (isRigid_inherited move).stem h
  have hStop := hStem.together _ (Nat.le_refl _)
  simp only [Word.stem, Word.moved, Span.moved, Word.mk.injEq, Span.mk.injEq, true_and]
  exact ⟨rfl, hStop.symm⟩

namespace Words

variable (words base : Words) (word : Word)

/-- The words at other places. -/
def moved (move : Nat → Nat) (words : Words) : Words := ⟨words.entries.map (·.moved move)⟩

/-- The words, then those of another list. -/
def followedBy (words others : Words) : Words := ⟨words.entries ++ others.entries⟩

@[simp]
theorem push_moved : (words.push word).moved move = (words.moved move).push (word.moved move) := by
  simp [push, moved]

@[simp]
theorem isEmpty_moved : (words.moved move).isEmpty = words.isEmpty := by
  simp [isEmpty, moved, Array.isEmpty]

@[simp]
theorem push_followedBy :
    base.followedBy (words.push word) = (base.followedBy words).push word := by
  simp [push, followedBy]

end Words

/-- The row at another place. -/
def Row.moved (move : Nat → Nat) (row : Row) : Row :=
  { row with name := row.name.moved move, type := row.type.moved move }

namespace Declarations

variable (list base : Declarations) (name : Word) (mode : String) (type : Option Word)
  (range init : String)

/-- The list at another place. -/
def moved (move : Nat → Nat) (list : Declarations) : Declarations :=
  ⟨list.rows.map (·.moved move), list.pending.map (·.moved move)⟩

/-- The rows of a list, then another list. -/
def followedBy (base list : Declarations) : Declarations := ⟨base.rows ++ list.rows, list.pending⟩

@[simp]
theorem pushName_moved :
    (list.pushName name).moved move = (list.moved move).pushName (name.moved move) := by
  simp [pushName, moved]

@[simp]
theorem pushName_followedBy :
    base.followedBy (list.pushName name) = (base.followedBy list).pushName name := rfl

theorem completed_moved :
    (completed mode type range init name).moved move =
      completed mode (type.map (·.moved move)) range init (name.moved move) := by
  cases type <;> rfl

@[simp]
theorem complete_moved :
    (list.complete mode type range init).moved move =
      (list.moved move).complete mode (type.map (·.moved move)) range init := by
  simp [complete, moved, Function.comp_def, completed_moved]

@[simp]
theorem complete_followedBy :
    base.followedBy (list.complete mode type range init) =
      (base.followedBy list).complete mode type range init := by
  simp [complete, followedBy]

@[simp]
theorem pushRow_moved :
    (list.pushRow name mode type range init).moved move =
      (list.moved move).pushRow (name.moved move) mode (type.map (·.moved move)) range init := by
  simp [pushRow]

/-- A row is updated alike before and after a move, since only its type has a place. -/
@[simp]
theorem update_moved (index : Nat) :
    (list.update index mode type range init).moved move =
      (list.moved move).update index mode (type.map (·.moved move)) range init := by
  have hRow : ∀ row : Row,
      Row.moved move { row with
        mode := unlessEmpty mode row.mode
        type := type.getD row.type
        range := unlessEmpty range row.range
        init := unlessEmpty init row.init } =
      { row.moved move with
        mode := unlessEmpty mode row.mode
        type := (type.map (·.moved move)).getD (row.type.moved move)
        range := unlessEmpty range row.range
        init := unlessEmpty init row.init } := by
    intro row
    cases type <;> rfl
  have hRows : (list.update index mode type range init).rows.map (·.moved move) =
      ((list.moved move).update index mode (type.map (·.moved move)) range init).rows := by
    apply Array.ext
    · simp [update, moved]
    · intro place _ _
      simp only [update, moved, Array.getElem_map, Array.getElem_modify]
      split
      · exact hRow _
      · rfl
  rw [moved, hRows]
  rfl

/-- A name is found where it was. -/
@[simp]
theorem find?_moved (text : String) : (list.moved move).find? text = list.find? text := by
  simp [find?, moved, Array.findIdx?_map, Function.comp_def, Row.moved, Word.moved]

theorem align_moved : list.align.moved move = (list.moved move).align := by
  have hEmpty : (list.moved move).pending.isEmpty = list.pending.isEmpty := by
    simp [moved, Array.isEmpty]
  rw [align, align, hEmpty]
  split
  · rfl
  · exact complete_moved list "" none "" ""

end Declarations

/-- The signal at another place. -/
def ClockedSignal.moved (move : Nat → Nat) (entry : ClockedSignal) : ClockedSignal :=
  { entry with signal := entry.signal.moved move }

namespace ClockedSignals

variable (signals base : ClockedSignals) (signal : Word) (conditions : List String)

/-- The signals at other places. -/
def moved (move : Nat → Nat) (signals : ClockedSignals) : ClockedSignals :=
  ⟨signals.entries.map (·.moved move)⟩

/-- The signals, then those of another list that are not known yet. -/
def followedBy (base signals : ClockedSignals) : ClockedSignals :=
  signals.entries.toList.foldl (fun known entry => known.record entry.signal entry.conditions) base

@[simp]
theorem contains_moved (name : String) :
    (signals.moved move).contains name = signals.contains name := by
  simp [contains, moved, ClockedSignal.moved, Word.moved]

theorem names_moved : (signals.moved move).names = signals.names := by
  simp [names, moved, ClockedSignal.moved, Word.moved]

/-- Whether a signal is known is a matter of its name, which a move does not change. -/
@[simp]
theorem record_moved :
    (signals.record signal conditions).moved move =
      (signals.moved move).record (signal.moved move) conditions := by
  have hContains : (signals.moved move).contains (signal.moved move).text =
      signals.contains signal.text := signals.contains_moved _
  rw [record, record, hContains]
  split
  · rfl
  · simp [moved, ClockedSignal.moved]

/-- What is contained remains so. -/
theorem contains_record (h : signals.contains signal.text = true) (other : Word) :
    (signals.record other conditions).contains signal.text = true := by
  rw [record]
  split
  · exact h
  · simp only [contains, Array.any_push, Bool.or_eq_true]
    exact .inl h

/-- And what is recorded is contained. -/
theorem contains_record_self : (signals.record signal conditions).contains signal.text = true := by
  rw [record]
  split
  · next hKnown => exact hKnown
  · simp [contains]

/-- What is known of two lists is known of both together. -/
theorem contains_followedBy {entries : List ClockedSignal} (h : base.contains signal.text = true ∨
      entries.any (·.signal.text == signal.text) = true) :
    (entries.foldl (fun known entry => known.record entry.signal entry.conditions) base).contains
      signal.text = true := by
  induction entries generalizing base with
  | nil => simpa using h
  | cons entry entries ih =>
      refine ih _ ?_
      rcases h with hBase | hEntries
      · exact .inl (base.contains_record signal _ hBase _)
      · rw [List.any_cons, Bool.or_eq_true] at hEntries
        refine hEntries.imp (fun hEntry => ?_) id
        rw [← eq_of_beq hEntry]
        exact base.contains_record_self _ _

/-- Behind other signals a signal is recorded unless its name is known in front or behind. -/
@[simp]
theorem record_followedBy :
    base.followedBy (signals.record signal conditions) =
      (base.followedBy signals).record signal conditions := by
  rw [record]
  split
  · next hKnown =>
    have hBoth : (base.followedBy signals).contains signal.text = true :=
      contains_followedBy base signal (.inr (by simpa [contains] using hKnown))
    rw [record, if_pos hBoth]
  · simp [followedBy]

end ClockedSignals

/-- The name of a body at another place. -/
def BodyWord.moved (move : Nat → Nat) (entry : BodyWord) : BodyWord :=
  { entry with word := entry.word.moved move }

namespace HdlProcess

variable (process : HdlProcess) (word : Word)

/-- The process at another place. -/
def moved (move : Nat → Nat) (process : HdlProcess) : HdlProcess :=
  { process with
    span := process.span.moved move
    sensitivity := process.sensitivity.map (·.moved move)
    body := process.body.map (·.moved move) }

theorem starting_moved (label : Option String) (offset : Nat) :
    (starting label offset).moved move = starting label (move offset) := by
  simp [starting, moved, Span.moved, Span.empty]

@[simp]
theorem pushSensitivity_moved :
    (process.pushSensitivity word).moved move =
      (process.moved move).pushSensitivity (word.moved move) := by
  simp [pushSensitivity, moved]

@[simp]
theorem pushBody_moved (role : Role) :
    (process.pushBody word role).moved move =
      (process.moved move).pushBody (word.moved move) role := by
  simp [pushBody, moved, BodyWord.moved]

/-- Roles are given by index, and a move keeps the indices. -/
@[simp]
theorem mark_moved (index : Nat) (role : Role) :
    (process.mark index role).moved move = (process.moved move).mark index role := by
  have hBody : (process.body.modify index fun entry => { entry with role }).map (·.moved move) =
      (process.body.map (·.moved move)).modify index fun entry => { entry with role } := by
    apply Array.ext
    · simp
    · intro place _ _
      simp only [Array.getElem_map, Array.getElem_modify]
      split <;> rfl
  simp [mark, moved, hBody]

@[simp]
theorem size_body_moved : (process.moved move).body.size = process.body.size := by
  simp [moved]

theorem close_moved (hMove : Monotone move) (offset : Nat) :
    (process.close offset).moved move = (process.moved move).close (move offset) := by
  simp [close, moved, Span.moved, hMove.map_max]

theorem bodyWord?_moved (index : Nat) :
    (process.moved move).bodyWord? index = (process.bodyWord? index).map (·.moved move) := by
  simp [bodyWord?, moved, BodyWord.moved, Function.comp_def]

theorem signalTargets_moved :
    (process.moved move).signalTargets = process.signalTargets.map (·.moved move) := by
  simp [signalTargets, moved, BodyWord.moved, List.filter_map, Function.comp_def]

end HdlProcess

/-- The stems of words may be recorded before or after a move. -/
theorem ClockedSignals.record_stems_moved (signals : ClockedSignals) {targets : List Word}
    (hTargets : ∀ target ∈ targets, target.IsRigid move) (conditions : List String) :
    (targets.foldl (fun signals target => signals.record target.stem conditions) signals).moved
        move =
      (targets.map (·.moved move)).foldl
        (fun signals target => signals.record target.stem conditions) (signals.moved move) := by
  induction targets generalizing signals with
  | nil => rfl
  | cons target targets ih =>
      rw [List.forall_mem_cons] at hTargets
      rw [List.foldl_cons, ih _ hTargets.2, List.map_cons, List.foldl_cons, record_moved,
        hTargets.1.stem_moved]

/-- The same for all the signals that a process drives, in their order. -/
theorem ClockedSignals.record_stems_followedBy (base signals : ClockedSignals) (targets : List Word)
    (conditions : List String) :
    base.followedBy
        (targets.foldl (fun signals target => signals.record target.stem conditions) signals) =
      targets.foldl (fun signals target => signals.record target.stem conditions)
        (base.followedBy signals) := by
  induction targets generalizing signals with
  | nil => rfl
  | cons target targets ih => rw [List.foldl_cons, ih, List.foldl_cons, record_followedBy]

/-- The note of a text that is moved. -/
def Note.moved (move : Nat → Nat) : Note → Note
  | .alwaysClosed offset clocked => .alwaysClosed (move offset) clocked
  | note => note

end Moving

section Behind

/-- A word that stands in a text is moved as a whole when the text is. -/
theorem isRigid_of_standsIn {word : Word} {text : String} (h : word.StandsIn text) (offset : Nat) :
    word.IsRigid (offset + ·) := by
  obtain ⟨before, after, -, hSpan⟩ := h
  exact ⟨by rw [hSpan], fun count _ => (Nat.add_assoc _ _ _).symm⟩

theorem Words.moved_empty (move : Nat → Nat) : Words.moved move {} = {} := by simp [moved]

theorem Words.followedBy_empty (words : Words) : words.followedBy {} = words := by simp [followedBy]

namespace Declarations

variable (list base : Declarations)

theorem moved_empty (move : Nat → Nat) : Declarations.moved move {} = {} := by simp [moved]

/-- Nothing new behind a list without pending names leaves it as it is. -/
theorem followedBy_empty {list : Declarations} (h : list.pending = #[]) :
    list.followedBy {} = list := by
  obtain ⟨rows, pending⟩ := list
  subst h
  simp [followedBy]

/-- Rows that are padded in the second list are padded as well in both together. -/
theorem align_followedBy : (base.followedBy list).align = base.followedBy list.align := by
  rw [Declarations.align, Declarations.align]
  have hPending : (base.followedBy list).pending = list.pending := rfl
  rw [hPending]
  split
  · rfl
  · exact (list.complete_followedBy base "" none "" "").symm

section Attributes

variable (mode : String) (type : Option Word) (range init : String)

theorem pushRow_followedBy (name : Word) :
    (base.followedBy list).pushRow name mode type range init =
      base.followedBy (list.pushRow name mode type range init) := by
  simp [pushRow]

theorem prefix_pushRow (name : Word) :
    list.rows.toList <+: (list.pushRow name mode type range init).rows.toList := by
  rw [pushRow, complete, Array.toList_append]
  exact List.prefix_append _ _

/-- A row behind others is updated at an index that counts those in front. -/
theorem update_followedBy (index : Nat) :
    (base.followedBy list).update (base.rows.size + index) mode type range init =
      base.followedBy (list.update index mode type range init) := by
  rw [update, update, followedBy, followedBy, Declarations.mk.injEq]
  apply And.intro _ rfl
  apply Array.ext
  · simp
  · intro place hPlace _
    simp only [Array.getElem_modify, Array.getElem_append]
    by_cases hFront : place < base.rows.size
    · have hOther : base.rows.size + index ≠ place := by omega
      simp only [dif_pos hFront, if_neg hOther]
    · have hSame : base.rows.size + index = place ↔ index = place - base.rows.size := by omega
      simp only [dif_neg hFront, hSame]

end Attributes

/-- A name that is not known in front is found behind. -/
theorem find?_followedBy {base : Declarations} {name : String} (h : base.find? name = none) :
    (base.followedBy list).find? name = (list.find? name).map (base.rows.size + ·) := by
  rw [find?] at h
  have hRows : base.rows.findIdx? (·.name.text == name) = none := by
    split at h
    · cases h
    · assumption
  rw [find?, find?, followedBy, Array.findIdx?_append, hRows, Array.size_append, Option.none_or]
  cases list.rows.findIdx? (·.name.text == name) with
  | none =>
      rw [Option.map_none, Option.map_map]
      exact congrArg (Option.map · _) (funext fun index => Nat.add_assoc _ _ _)
  | some index => simp [Nat.add_comm]

/-- The row at the index of a name has it. -/
theorem name_of_find? {list : Declarations} {name : String} {index : Nat} {row : Row}
    (h : list.find? name = some index) (hRow : list.rows[index]? = some row) :
    row.name.text = name := by
  rw [find?] at h
  split at h
  · next hFound =>
    obtain rfl := Option.some.inj h
    obtain ⟨hIndex, hName, -⟩ := Array.findIdx?_eq_some_iff_getElem.1 hFound
    rw [Array.getElem?_eq_getElem hIndex] at hRow
    rw [← Option.some.inj hRow]
    exact beq_iff_eq.1 hName
  · obtain ⟨behind, -, rfl⟩ := Option.map_eq_some_iff.1 h
    rw [Array.getElem?_eq_none (Nat.le_add_right _ _)] at hRow
    cases hRow

/-- The rows of a list are the first ones of another list. Only those of the given names may have
got other attributes. -/
def KeepsRows (names : List String) (base list : Declarations) : Prop :=
  ∀ (index : Nat) (row : Row), base.rows[index]? = some row →
    ∃ row', list.rows[index]? = some row' ∧ row'.name = row.name ∧
      (row.name.text ∉ names → row' = row)

namespace KeepsRows

variable {names : List String} {base list : Declarations} {mode : String} {type : Option Word}
  {range init : String}

theorem refl (names : List String) (list : Declarations) : KeepsRows names list list :=
  fun _ row hRow => ⟨row, hRow, rfl, fun _ => rfl⟩

/-- A new row is behind all others, so that those in front stay as they are. -/
theorem pushRow (h : KeepsRows names base list) (name : Word) :
    KeepsRows names base (list.pushRow name mode type range init) := by
  intro index row hRow
  obtain ⟨row', hRow', hKept⟩ := h index row hRow
  refine ⟨row', ?_, hKept⟩
  have hIndex : index < list.rows.size := by
    by_contra hBeyond
    rw [Array.getElem?_eq_none (by omega)] at hRow'
    cases hRow'
  show (list.rows ++ _)[index]? = some row'
  rw [Array.getElem?_append_left hIndex, hRow']

/-- What is declared of a name changes rows of that name only. -/
theorem update {name : String} {place : Nat} (h : KeepsRows names base list)
    (hFound : list.find? name = some place) (hName : name ∈ names) :
    KeepsRows names base (list.update place mode type range init) := by
  intro index row hRow
  obtain ⟨row', hRow', hSame, hOther⟩ := h index row hRow
  rw [Declarations.update, Array.getElem?_modify, hRow']
  split
  · next hPlace =>
    have hText := name_of_find? hFound (hPlace ▸ hRow')
    refine ⟨_, rfl, hSame, ?_⟩
    intro hNot
    rw [← hSame, hText] at hNot
    exact absurd hName hNot
  · exact ⟨row', rfl, hSame, hOther⟩

end KeepsRows

end Declarations

end Behind

end HdlIndex

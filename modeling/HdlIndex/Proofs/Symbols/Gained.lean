import HdlIndex.Symbols.Declarations
import HdlIndex.Symbols.HdlProcess
import Mathlib.Data.List.Basic

/-! Declaration lists without the places of their entries, and processes and word lists as they
grow: what a stretch of words adds to the body of a process, and what words that are found add to a
list. -/
namespace HdlIndex

/-- The texts of a row: its name, mode, type, constraint and initial value. -/
def Row.texts (row : Row) : List String :=
  [row.name.text, row.mode, row.type.text, row.range, row.init]

namespace Declarations

variable {list : Declarations}

/-- The texts of the completed rows. -/
def texts (list : Declarations) : List (List String) := list.rows.toList.map (·.texts)

/-- Where no name waits for its attributes, a row is added. -/
theorem pushRow_eq (h : list.pending = #[]) (name : Word) (mode : String) (type : Option Word)
    (range init : String) :
    list.pushRow name mode type range init =
      { list with rows := list.rows.push (completed mode type range init name) } := by
  simp [pushRow, pushName, complete, h]

theorem texts_completed (name : Word) (mode : String) (type : Option Word) (range init : String) :
    (completed mode type range init name).texts =
      [name.text, mode, (type.map (·.text)).getD "", range, init] := by
  cases type <;> rfl

end Declarations

/-- A name of a body and its role. -/
def BodyWord.named (entry : BodyWord) : String × Role := (entry.word.text, entry.role)

theorem Words.texts_foldl_push (words : Words) (others : List Word) :
    (others.foldl (·.push ·) words).texts = words.texts ++ others.map (·.text) := by
  induction others generalizing words with
  | nil => simp
  | cons word others ih =>
      rw [List.foldl_cons, ih]
      simp [push, texts]

namespace HdlProcess

/-- The process with further words in its body, clocked if it was or they detect an edge. -/
def gain (process : HdlProcess) (entries : List BodyWord) (edge : Bool := false) : HdlProcess :=
  { process with body := process.body ++ entries.toArray, clocked := process.clocked || edge }

variable {process : HdlProcess} {entries others : List BodyWord} {edge later : Bool} {word : Word}
  {role : Role}

@[simp]
theorem gain_nil : process.gain [] = process := by simp [gain]

@[simp]
theorem gain_gain :
    (process.gain entries edge).gain others later =
      process.gain (entries ++ others) (edge || later) := by
  simp [gain, Bool.or_assoc]

theorem pushBody_eq_gain : process.pushBody word role = process.gain [⟨word, role⟩] := by
  simp [gain, pushBody]

theorem size_gain : (process.gain entries edge).body.size = process.body.size + entries.length := by
  simp [gain]

/-- A word is given a role where it stands. -/
theorem mark_gain (process : HdlProcess) (front : List BodyWord) (word : Word)
    (back : List BodyWord) (role : Role) (edge : Bool) :
    (process.gain (front ++ ⟨word, .read⟩ :: back) edge).mark
        (process.body.size + front.length) role =
      process.gain (front ++ ⟨word, role⟩ :: back) edge := by
  have hBody := List.modifyTailIdx_add (List.modifyHead fun entry : BodyWord => { entry with role })
    0 (process.body.toList ++ front) (⟨word, .read⟩ :: back)
  simp only [gain, mark, HdlProcess.mk.injEq, ← Array.toList_inj, Array.toList_modify, true_and]
  simpa [List.modify] using hBody

/-- The last role that a word is given counts. -/
theorem mark_mark {index : Nat} {other : Role} :
    (process.mark index role).mark index other = process.mark index other := by
  simp only [mark, HdlProcess.mk.injEq, ← Array.toList_inj, Array.toList_modify, true_and]
  exact List.modify_modify_eq ..

/-- Words that are added leave the roles of those in front of them. -/
theorem mark_gain_of_lt {index : Nat} (h : index < process.body.size) :
    (process.mark index role).gain entries edge = (process.gain entries edge).mark index role := by
  simp only [mark, gain, HdlProcess.mk.injEq, ← Array.toList_inj, Array.toList_modify, true_and,
    Array.toList_append, List.modify_eq_take_drop]
  have hLength : index ≤ process.body.toList.length := by simpa using Nat.le_of_lt h
  rw [List.take_append_of_le_length hLength, List.drop_append_of_le_length hLength,
    List.append_assoc, List.drop_eq_getElem_cons (by simpa using h)]
  rfl

/-- Words that follow each other are all given the role. -/
theorem mark_foldl_gain (process : HdlProcess) (front : List BodyWord) (words : List Word)
    (back : List BodyWord) (role : Role) (edge : Bool) :
    (List.range' (process.body.size + front.length) words.length).foldl (·.mark · role)
        (process.gain (front ++ (words.map (⟨·, .read⟩) ++ back)) edge) =
      process.gain (front ++ (words.map (⟨·, role⟩) ++ back)) edge := by
  induction words generalizing front with
  | nil => rfl
  | cons word words ih =>
      have hOffset : process.body.size + front.length + 1 =
          process.body.size + (front ++ [(⟨word, role⟩ : BodyWord)]).length := by
        simp [Nat.add_assoc]
      rw [List.length_cons, List.range'_succ, List.foldl_cons, List.map_cons, List.map_cons,
        List.cons_append, List.cons_append, mark_gain, List.append_cons, hOffset, ih,
        ← List.append_cons]

/-- The words are found at their places. -/
theorem bodyWord?_gain (process : HdlProcess) (front : List BodyWord) (words : List Word)
    (back : List BodyWord) (role : Role) (edge : Bool) :
    (List.range' (process.body.size + front.length) words.length).filterMap
      (process.gain (front ++ (words.map (⟨·, role⟩) ++ back)) edge).bodyWord? = words := by
  induction words generalizing front with
  | nil => rfl
  | cons word words ih =>
      have hOffset : process.body.size + front.length + 1 =
          process.body.size + (front ++ [(⟨word, role⟩ : BodyWord)]).length := by
        simp [Nat.add_assoc]
      have hWord : (process.gain (front ++ ⟨word, role⟩ :: (words.map (⟨·, role⟩) ++ back))
          edge).bodyWord? (process.body.size + front.length) = some word := by
        simp [bodyWord?, gain]
      rw [List.length_cons, List.range'_succ, List.map_cons, List.cons_append,
        List.filterMap_cons_some hWord, List.append_cons, hOffset, ih]

end HdlProcess

end HdlIndex

import HdlIndex.Design
import HdlIndex.Proofs.Computed
import HdlIndex.Proofs.Verilog.Alike
import HdlIndex.Proofs.Verilog.ElseIf
import HdlIndex.Proofs.Verilog.ReadingWords
import HdlIndex.Proofs.Vhdl.Alike

/-! Generate conditions belong to one design unit. Where a walk stands between units, no condition
is in force, so the clocked signals it records from there on are those of a walk that begins there,
under the same conditions. In Verilog the condition of an `else` outlasts its module, though: an
`else` that follows no `if` of its own module takes it. -/
namespace HdlIndex

namespace Vhdl

/-- A walk comes to this state on its way through a token list, or at its end. -/
def Walk.IsReached (size : Nat) (tokens : List Token) (walk : Walk) : Prop :=
  ∃ region events rest, readEvents size tokens = events ++ rest ∧
    (walk = (start region).run events ∨ rest = [] ∧ walk = ((start region).run events).finish size)

variable {walk : Walk} {size : Nat} {tokens : List Token}

theorem Walk.isClear_start (region : Region) : (start region).IsClear := by
  cases region <;> exact IsClear.none rfl

theorem Walk.isClear_finish (h : walk.IsClear) (size : Nat) : (walk.finish size).IsClear := by
  have hFlushed : (walk.flushed size).IsClear := by
    rw [flushed]
    split
    · next list element hPlace =>
      have hOwner : (walk.goto list.owner.place).IsClear :=
        h.gotoOwner fun hOwner => hPlace ▸ hOwner
      rw [closeList]
      split <;> exact hOwner
    · exact h
    · exact h
  exact finish_of_flushed hFlushed fun _ _ => hFlushed

theorem Walk.IsReached.isClear (h : walk.IsReached size tokens) : walk.IsClear := by
  obtain ⟨region, events, rest, -, rfl | ⟨-, rfl⟩⟩ := h
  · exact isClear_run (isClear_start region) events
  · exact isClear_finish (isClear_run (isClear_start region) events) size

theorem Place.eq_of_region {place : Place} (h : place.region = .entityContext) :
    place = .entityContext := by
  cases place with
  | entityContext => rfl
  | _ => cases h

/-- Between units a walk goes on like one that begins there, apart from a label. -/
theorem Walk.alike_unit (hPlace : walk.place = .entityContext) (hClear : walk.generates = []) :
    Alike walk.found.clocked { start .entityContext with label := walk.label } walk where
  place := hPlace
  generates := hClear
  label := rfl
  clocked := rfl

end Vhdl

namespace Verilog

/-- A walk comes to this state on its way through a token list, or at its end. -/
def Walk.IsReached (size : Nat) (tokens : List Token) (walk : Walk) : Prop :=
  ∃ region events rest, readEvents size tokens = events ++ rest ∧
    (walk = (start region).run events ∨ rest = [] ∧ walk = ((start region).run events).finish size)

variable {walk : Walk} {size : Nat} {tokens : List Token}

theorem Walk.isClear_finish (h : walk.IsClear) (size : Nat) : (walk.finish size).IsClear := by
  have hFlushed : (walk.flushAt size).IsClear := isClear_flushAt h size
  exact finish_of_flushAt hFlushed fun _ _ => hFlushed

/-- The end of a text leads out of no module. -/
theorem Walk.outside_of_finish (h : (walk.finish size).place.isOutside = true) :
    walk.place.isOutside = true := by
  have hFlush : (walk.flushAt size).place.isOutside = true := by
    rw [finish] at h
    split at h <;> exact h
  rw [flushAt] at hFlush
  split at hFlush
  · next hPlace => rw [hPlace]; rfl
  · next hPlace => rw [hPlace]; rfl
  · cases hFlush
  · exact hFlush

theorem Walk.IsReached.isClear (h : walk.IsReached size tokens) : walk.IsClear := by
  obtain ⟨region, events, rest, -, rfl | ⟨-, rfl⟩⟩ := h
  · exact isClear_run (isClear_start region) events
  · exact isClear_finish (isClear_run (isClear_start region) events) size

/-- Outside of modules no condition is chained, since conditions are chained to an `if` that comes
next. -/
theorem Walk.IsReached.chained (h : walk.IsReached size tokens)
    (hPlace : walk.place.isOutside = true) :
    walk.chained = none := by
  obtain ⟨region, events, rest, hEvents, hWalk⟩ := h
  have hRun : ((start region).run events).IsChained rest := by
    apply isChained_run
    · exact .inl (chained_start region)
    · exact hEvents ▸ heeds_readEvents size tokens
  obtain rfl | ⟨-, rfl⟩ := hWalk
  · exact hRun.none_of_outside hPlace
  · rw [chained_finish]
    exact hRun.none_of_outside (outside_of_finish hPlace)

theorem Place.eq_of_region {place : Place} (h : place.region = .moduleContext) :
    place = .moduleContext := by
  cases place with
  | moduleContext => rfl
  | alwaysBlock clocked block => cases clocked <;> cases h
  | _ => cases h

/-- Declarations and signals are recorded behind the clocked signals that are known. -/
theorem Findings.isKept_clocked (base : ClockedSignals) :
    Findings.IsKept True (fun _ => True) fun found found' =>
      found'.clocked = base.followedBy found.clocked where
  apart h hChange := by rw [(hChange _).clocked, (hChange _).clocked, h]
  declare {found found' item} h _ := by
    have hClocked : ∀ found, (Walk.declare found item).clocked = found.clocked := fun found =>
      (Walk.Stays.flush { place := .moduleContext, found } item).clocked
    rw [hClocked, hClocked, h]
  record h hConditions := by
    rw [Walk.recordClocked, Walk.recordClocked, hConditions trivial, h,
      ClockedSignals.record_followedBy]

/-- Between modules a walk goes on like one that begins there, apart from the condition of an
`else`. -/
theorem Walk.alike_module (h : walk.IsReached size tokens) (hPlace : walk.place = .moduleContext) :
    Alike True (fun found found' => found'.clocked = walk.found.clocked.followedBy found.clocked)
      { start .moduleContext with pendingElse := walk.pendingElse } walk := by
  have hChained : walk.chained = none := h.chained (hPlace ▸ rfl)
  exact .between hPlace h.isClear hChained (fun _ => rfl) rfl

end Verilog

/-- Where a walk stands between units, no generate construct is open. It goes on under the
conditions of a walk that begins there, and adds what that one records to the clocked signals it
knows. All that the text in front leaves is a label in VHDL, and in Verilog the condition of an
`else`: where none is left, the module is under conditions of its own only. -/
theorem conditions_within_unit (size : Nat) (tokens : List Token) :
    (∀ walk : Vhdl.Walk, walk.IsReached size tokens → walk.place.region = .entityContext →
      walk.generates = [] ∧ ∀ unit stop,
        let alone := { Vhdl.Walk.start .entityContext with label := walk.label }
        (walk.run unit).conditions = (alone.run unit).conditions ∧
          ((walk.run unit).finish stop).found.clocked =
            walk.found.clocked.followedBy ((alone.run unit).finish stop).found.clocked) ∧
      (∀ walk : Verilog.Walk, walk.IsReached size tokens → walk.place.region = .moduleContext →
        walk.frames = [] ∧ walk.bases = [] ∧ walk.blocks = 0 ∧ ∀ unit stop,
          let alone := { Verilog.Walk.start .moduleContext with pendingElse := walk.pendingElse }
          (walk.run unit).conditions = (alone.run unit).conditions ∧
            ((walk.run unit).finish stop).found.clocked =
              walk.found.clocked.followedBy ((alone.run unit).finish stop).found.clocked) := by
  constructor
  · intro walk hReached hRegion
    have hPlace := Vhdl.Place.eq_of_region hRegion
    have hClear : walk.generates = [] := hReached.isClear (hPlace ▸ rfl)
    apply And.intro hClear
    intro unit stop alone
    have hAlike := (Vhdl.Walk.alike_unit hPlace hClear).run unit
    constructor
    · rw [Vhdl.Walk.conditions, Vhdl.Walk.conditions, hAlike.generates]
    · exact (hAlike.finish stop).clocked
  · intro walk hReached hRegion
    have hPlace := Verilog.Place.eq_of_region hRegion
    have hKept := Verilog.Findings.isKept_clocked walk.found.clocked
    obtain ⟨hFrames, hBases, hBlocks, -⟩ := hReached.isClear (hPlace ▸ rfl)
    refine ⟨hFrames, hBases, hBlocks, ?_⟩
    intro unit stop alone
    have hAlike : Verilog.Walk.Alike True _ (alone.run unit) (walk.run unit) :=
      (Verilog.Walk.alike_module hReached hPlace).run hKept fun _ _ => trivial
    constructor
    · exact hAlike.conditions trivial
    · exact (hAlike.finish hKept stop fun _ _ => trivial).found

/-- A generate construct that is left open puts nothing of the next unit under its condition. -/
theorem conditions_within_unit_unclosed :
    let read (text : String) : Token := ⟨text, ⟨0, text.utf8ByteSize⟩⟩
    (let first := ["if", "x", "generate", "end", ";"].map read
      let second :=
        ["architecture", "b", "of", "e", "is", "begin", "if", "y", "generate", "process",
          "begin", "if", "rising_edge", "(", "c", ")", "then", "q", "<=", "d", ";"].map read
      let walk := (Vhdl.Walk.start .architectureBody).run (Vhdl.readEvents 0 first)
      ((walk.run (Vhdl.readEvents 0 second)).finish 0).found.clocked.conditions = [["y"]]) ∧
    (let first := ["if", "(", "X", ")", "begin", "endmodule"].map read
      let second :=
        ["module", "b", ";", "if", "(", "Y", ")", "always", "@", "(", "posedge", "c", ")",
          "q", "<=", "d", ";"].map read
      let walk := (Verilog.Walk.start .moduleBody).run (Verilog.readEvents 0 first)
      ((walk.run (Verilog.readEvents 0 second)).finish 0).found.clocked.conditions = [["Y"]]) := by
  intro read
  constructor
  · intro first second walk
    have hReached : walk.IsReached 0 first :=
      ⟨.architectureBody, _, [], (List.append_nil _).symm, .inl rfl⟩
    obtain ⟨-, hUnit⟩ := (conditions_within_unit 0 first).1 walk hReached (by decide +kernel)
    rw [(hUnit _ 0).2]
    decide +kernel
  · intro first second walk
    have hReached : walk.IsReached 0 first :=
      ⟨.moduleBody, _, [], (List.append_nil _).symm, .inl rfl⟩
    obtain ⟨-, -, -, hUnit⟩ := (conditions_within_unit 0 first).2 walk hReached (by decide +kernel)
    rw [(hUnit _ 0).2]
    decide +kernel

/-- The `if` of the first module leaves an `else` behind it, which the second module's own `else`
takes: its signal is under the condition of the first module. -/
theorem conditions_of_stray_else :
    let first := "module a; if (X) begin end endmodule\n"
    let second := "module b; else always @(posedge clk) q <= d; endmodule\n"
    (scan (.verilog .start) none (first ++ second)).design.clocked.conditions = [["!(X)"]] ∧
      (scan (.verilog .start) none second).design.clocked.conditions = [[""]] := by
  simp only [scan_computed]
  exact ⟨by decide +kernel, by decide +kernel⟩

end HdlIndex

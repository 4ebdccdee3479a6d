import HdlIndex.Proofs.Computed
import HdlIndex.Proofs.Verilog.AssignmentRole
import HdlIndex.Proofs.Vhdl.AssignmentRole
import HdlIndex.Verilog.Scan
import HdlIndex.Vhdl.Scan

/-! What assignments make of the names in front of them, in both languages. The first symbol of an
assignment decides, unless the value compares with `<=` outside of all brackets. -/
namespace HdlIndex

/-- Where a walk begins a statement of a process: the assignments of a body of statements give the
names in front of them their roles and all other names are read, and the process drives what has the
role of a target. The role is that of the first symbol of an assignment, unless `<=` stands outside
of parentheses in the value. Where a walk begins a statement under a clock: an assignment records
the name in front of it if its symbol does not block, or if `<=` stands outside of brackets in its
value. -/
theorem run_assignments (process : HdlProcess) :
    (∀ (walk : Vhdl.Walk) (depth behind : Nat) (events : List Vhdl.Event)
        (assigned : List BodyWord), walk.place = .processBody process depth {} →
      Vhdl.IsBody depth events behind assigned →
      ∃ process', walk.Stands (.processBody process' behind {}) (walk.run events) ∧
        process'.body.toList.filter (·.role ≠ .read) =
          process.body.toList.filter (·.role ≠ .read) ++ assigned ∧
        ∀ here before next, (Vhdl.Event.word here before next).endsProcess = true →
          (walk.run (events ++ [.word here before next])).found.clocked =
            if process'.clocked then
              (process.signalTargets ++ (assigned.filter (·.role = .target)).map (·.word)).foldl
                (fun signals target => signals.record target.stem walk.conditions)
                walk.found.clocked
            else walk.found.clocked) ∧
    (∀ (walk : Verilog.Walk) (nest : Nat) (events value : List Verilog.Event)
        (operator : Verilog.Assignment) (name : Verilog.Lexeme),
      walk.place = .alwaysBlock true { process := some process, nest } → walk.label = .idle →
      Verilog.IsAssignment operator name value events →
      (walk.run events).found.clocked =
        if operator = .nonBlocking ∨ Verilog.hasDrives 0 (Verilog.lexemes value) then
          walk.found.clocked.record name.word.stem walk.conditions
        else walk.found.clocked) := by
  constructor
  · intro walk depth behind events assigned hPlace hBody
    have hStands : walk.Stands (.processBody process depth {}) walk :=
      ⟨walk.notes, by rw [← hPlace]⟩
    obtain ⟨entries, edge, hEntries, hRun⟩ := hStands.run_body hBody
    have hGain : (process.gain entries edge).body.toList = process.body.toList ++ entries := by
      simp [HdlProcess.gain]
    refine ⟨process.gain entries edge, hRun, by rw [hGain, List.filter_append, hEntries], ?_⟩
    intro here before next hEnds
    have hTargets : (process.gain entries edge).signalTargets =
        process.signalTargets ++ (assigned.filter (·.role = .target)).map (·.word) := by
      have hTarget (entry : BodyWord) :
          (decide (entry.role = .target) && decide (entry.role ≠ .read)) =
          decide (entry.role = .target) := by cases entry.role <;> rfl
      rw [HdlProcess.signalTargets, hGain, List.filter_append, List.map_append, ← hEntries,
        List.filter_filter]
      simp only [hTarget]
      rfl
    rw [Vhdl.Walk.run_append, ← hTargets]
    exact hRun.clocked_end hEnds
  · intro walk nest events value operator name hPlace hLabel hAssignment
    have hStands : walk.Stands (.alwaysBlock true { process := some process, nest }) walk :=
      ⟨walk.notes, by rw [← hPlace, ← hLabel]⟩
    exact hStands.run_assignment hAssignment

/-- Comparisons in parentheses assign nothing: the variable `v` is no clocked signal, and neither is
the name `q` of a blocking assignment. -/
theorem run_assignments_parenthesized :
    let vhdl := fun text => Vhdl.Lexeme.ofToken ⟨text, .empty 0⟩
    let verilog := fun text => Verilog.Lexeme.ofToken ⟨text, .empty 0⟩
    let process : HdlProcess := { label := none, span := .empty 0, clocked := true }
    (({ place := .processBody process 0 {} } : Vhdl.Walk).run
        ((["v", ":=", "(", "a", "<=", "b", ")", ";"].map fun text => .word (vhdl text) none none) ++
          [.word (vhdl "end") none (some (vhdl "process"))])).found.clocked = {} ∧
      (({ place := .alwaysBlock true { process := some process } } : Verilog.Walk).run
        (["q", "=", "(", "a", "<=", "b", ")", ";"].map fun text =>
          .word (verilog text) none)).found.clocked = {} := by
  intro vhdl verilog process
  constructor
  · have hValue : Vhdl.AreInner
        (["(", "a", "<=", "b", ")"].map fun text => .word (vhdl text) none none) :=
      ⟨by decide +kernel, by decide +kernel⟩
    have hAssignment :=
      @Vhdl.IsAssignment.intro 0 .variable (vhdl "v") _ [] [] (vhdl ":=") (vhdl ";")
        none none none none none none rfl rfl (by simp)
        ⟨by decide, by decide⟩ rfl rfl rfl rfl hValue rfl rfl
    have hBody := Vhdl.IsBody.assignment hAssignment (@Vhdl.IsBody.layout 0 [] rfl)
    obtain ⟨process', -, -, hClocked⟩ :=
      (run_assignments process).1 { place := .processBody process 0 {} }
        0 0 _ _ rfl hBody
    refine (hClocked (vhdl "end") none (some (vhdl "process")) rfl).trans ?_
    split <;> rfl
  · have hAssignment := @Verilog.IsAssignment.intro .blocking (verilog "q")
      (["(", "a", "<=", "b", ")"].map fun text => .word (verilog text) none) [] [] (verilog "=")
      (verilog ";")
      none none none 0 rfl rfl rfl rfl rfl (by decide +kernel) rfl
    exact (run_assignments process).2
      { place := .alwaysBlock true { process := some process } } 0 _ _ _ _
      rfl rfl hAssignment

/-- But a comparison outside of parentheses is taken for an assignment: the variable and the
blocking assignment become clocked signals. -/
theorem comparison_isAssignment :
    ((Vhdl.scan .architectureBody none
        "process (clk) begin if rising_edge(clk) then v := a <= b; end if; end process;"
      ).table.clocked.names = ["v"]) ∧
    ((Verilog.scan .moduleBody none "always @(posedge clk) q = a <= b;").table.clocked.names =
      ["q"]) := by
  rw [Vhdl.scan_computed, Verilog.scan_computed]
  exact ⟨by decide +kernel, by decide +kernel⟩

end HdlIndex

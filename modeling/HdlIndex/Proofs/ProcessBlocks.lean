import HdlIndex.Design
import HdlIndex.Proofs.Verilog.ProcessOrder
import HdlIndex.Proofs.Vhdl.ProcessOrder

/-! The process blocks of a scan. They are followed from their opening to the table: none is opened
while another one is open, each one that is opened is closed once, and in the table they are apart
from each other, with their words inside of them. -/
namespace HdlIndex

/-- The ledgers of a scan lead from no blocks at all to closed ones, step by step, and the blocks
that are opened on the way are those that are closed at the end, in the same order. -/
structure Ledger.Accounts (ledgers : List Ledger) (blocks : List HdlProcess) : Prop where
  begins : ledgers.head? = some ⟨none, []⟩
  steps : ledgers.IsChain Ledger.Step
  ends : ledgers.getLast? = some ⟨none, blocks⟩
  once : (Ledger.opened ledgers).map (·.origin) = blocks.map (·.origin)

/-- A chain of steps from no blocks to closed ones accounts for them. -/
theorem Ledger.accounts_of_isChain {ledgers : List Ledger} {last : Ledger}
    {blocks : List HdlProcess} (hBegins : ledgers.head? = some ⟨none, []⟩)
    (hSteps : ledgers.IsChain Step) (hLast : ledgers.getLast? = some last)
    (hEnd : Step last ⟨none, blocks⟩) :
    Accounts (ledgers ++ [⟨none, blocks⟩]) blocks := by
  have hAll : (ledgers ++ [(⟨none, blocks⟩ : Ledger)]).IsChain Step := by
    rw [List.isChain_append]
    refine ⟨hSteps, .singleton _, fun first hFirst second hSecond => ?_⟩
    obtain rfl : last = first := Option.some.inj (hLast.symm.trans hFirst)
    obtain rfl : (⟨none, blocks⟩ : Ledger) = second := Option.some.inj hSecond
    exact hEnd
  have hEnds : (ledgers ++ [(⟨none, blocks⟩ : Ledger)]).getLast? = some ⟨none, blocks⟩ :=
    List.getLast?_concat
  obtain ⟨rest, rfl⟩ := List.head?_eq_some_iff.1 hBegins
  rw [List.cons_append] at hAll hEnds ⊢
  exact ⟨rfl, hAll, hEnds, by simpa [Ledger.blocks] using (origins_of_isChain hAll hEnds).symm⟩

/-- The ledgers of a scan: in front of each event, behind the last one, and at the end of the text,
where nothing is open any more. -/
def Start.ledgers (start : Start) (limit : Option Nat) (text : String) : List Ledger :=
  match start with
  | .vhdl region =>
    let size := text.utf8ByteSize
    let events := Vhdl.readEvents size (Vhdl.tokens limit text).list
    (Vhdl.Walk.start region).ledgers events ++
      [⟨none, (Vhdl.walkThrough region events size).found.processes.toList⟩]
  | .verilog region =>
    let size := text.utf8ByteSize
    let events := Verilog.readEvents size (Verilog.tokens limit text).list
    (Verilog.Walk.start region).ledgers events ++
      [⟨none, (Verilog.walkThrough region events size).found.processes.toList⟩]

/-- Closed blocks in order: each one has its words inside, one behind the other, and they are apart
from each other. -/
structure AreOrdered (blocks : List HdlProcess) : Prop where
  apart : blocks.Pairwise fun block other => block.span.Precedes other.span
  ordered : ∀ block ∈ blocks, block.IsOrdered

theorem Ledger.Ordered.areOrdered {offset : Nat} {ledger : Ledger} (h : ledger.Ordered offset) :
    AreOrdered ledger.closed :=
  ⟨h.apart, h.ordered⟩

namespace Vhdl

/-- At the end of a text no process is open, and those that are closed are in order. -/
theorem scan_ordered (region : Region) (limit : Option Nat) (text : String) :
    Ledger.Ordered text.utf8ByteSize ⟨none, (scan region limit text).table.processes.toList⟩ ∧
    Ledger.Step
      ((Walk.start region).run (readEvents text.utf8ByteSize (tokens limit text).list)).ledger
      ⟨none, (scan region limit text).table.processes.toList⟩ := by
  have hScanned : (tokens limit text).scanned ≤ text.utf8ByteSize := by
    rw [← Text.utf8ByteSize_foldCase text]
    exact tokenize_scanned_le delimiters limit false _
  have hStart := Walk.ordered_start region
  have hRun := Walk.ordered_run (follows_readEvents limit text text.utf8ByteSize) (.inl hStart)
  exact Walk.ordered_finish hRun hScanned

/-- The processes of a table are accounted for by the ledger of the walk, and they stand in the
order of the text without overlapping. -/
theorem scan_blocks (region : Region) (limit : Option Nat) (text : String) :
    Ledger.Accounts ((Start.vhdl region).ledgers limit text)
      (scan region limit text).table.processes.toList ∧
    AreOrdered (scan region limit text).table.processes.toList := by
  obtain ⟨hOrdered, hEnd⟩ := scan_ordered region limit text
  refine ⟨Ledger.accounts_of_isChain ?_ (Walk.isChain_ledgers (Walk.lists_start region) _)
    (Walk.getLast?_ledgers _ _) hEnd, hOrdered.areOrdered⟩
  cases region <;> cases readEvents text.utf8ByteSize (tokens limit text).list <;> rfl

end Vhdl

namespace Verilog

/-- The same holds for the always blocks of Verilog, although nothing is written at their ends. -/
theorem scan_blocks (region : Region) (limit : Option Nat) (text : String) :
    Ledger.Accounts ((Start.verilog region).ledgers limit text)
      (scan region limit text).table.processes.toList ∧
    AreOrdered (scan region limit text).table.processes.toList := by
  have hScanned : (tokens limit text).scanned ≤ text.utf8ByteSize :=
    tokenize_scanned_le delimiters limit true text
  have hStart := Walk.ordered_start region
  have hRun := hStart.run (follows_readEvents limit text text.utf8ByteSize)
  obtain ⟨hOrdered, hEnd⟩ := hRun.finish hScanned
  refine ⟨Ledger.accounts_of_isChain ?_ (Walk.isChain_ledgers hStart.sound _)
    (Walk.getLast?_ledgers _ _) hEnd, hOrdered.areOrdered⟩
  cases region <;> cases readEvents text.utf8ByteSize (tokens limit text).list <;> rfl

end Verilog

/-- No block of a text is lost, and none overlaps another one. -/
theorem scan_processBlocks (start : Start) (limit : Option Nat) (text : String) :
    Ledger.Accounts (start.ledgers limit text) (scan start limit text).design.processes ∧
    AreOrdered (scan start limit text).design.processes := by
  cases start with
  | vhdl region => exact Vhdl.scan_blocks region limit text
  | verilog region => exact Verilog.scan_blocks region limit text

end HdlIndex

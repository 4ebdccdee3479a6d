import HdlIndex.Symbols.HdlProcess
/-! Comparing the sensitivity list of a process with the signals that its body reads. Names are
compared by their base: reading `r.field` asks for `r`. -/
namespace HdlIndex

/-- Which names can drive a process. -/
structure Scope where
  isSignal : String → Bool
  isReadablePort : String → Bool

/-- The name is that of a signal or of a port that can be read. -/
def Scope.isDriver (scope : Scope) (name : String) : Bool :=
  scope.isSignal name || scope.isReadablePort name

/-- What a sensitivity list lacks, and what it need not hold. -/
structure Report where
  /-- Signals that are read and not listed. -/
  missing : List Word := []
  /-- Words of the list that are not read. -/
  superfluous : List Word := []
deriving DecidableEq, Repr

namespace Report

def isClean (report : Report) : Bool := report.missing.isEmpty && report.superfluous.isEmpty

end Report

namespace Sensitivity

/-- The first word of each text, in order. Later words with a text that is known are left out. -/
def firsts (words : List Word) : Words :=
  words.foldl (fun seen word => if seen.contains word.text then seen else seen.push word) {}

/-- The signals that a process reads and does not assign, each under its base name and at the place
of its first read. -/
def signalsRead (scope : Scope) (process : HdlProcess) : Words :=
  let assigned := process.targets.map Word.base
  let reads := process.reads.filter fun word =>
    ! assigned.contains word.base && scope.isDriver word.base
  firsts (reads.map fun word => ⟨word.base, word.span⟩)

/-- Checks a sensitivity list. A clocked process and one that is sensitive to everything are always
clean. -/
def check (scope : Scope) (process : HdlProcess) : Report :=
  if process.clocked || process.all then {}
  else
    let read := signalsRead scope process
    let listed := process.sensitivity.toList.map Word.base
    { missing := read.entries.toList.filter fun word => ! listed.contains word.text
      superfluous := process.sensitivity.toList.filter fun word => ! read.contains word.base }

end Sensitivity

end HdlIndex

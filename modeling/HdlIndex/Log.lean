import HdlIndex.Text.Quoted
/-! What a scan reports about its own progress. A note is a fact; its wording and its level are
functions of the fact. -/
namespace HdlIndex

/-- How much a reader of the log wants to see. Each level includes the ones before it. -/
inductive Level where
  | warn
  | debug
  | trace
deriving DecidableEq, Repr

def Level.label : Level → String
  | .warn => "WARN"
  | .debug => "DEBUG"
  | .trace => "TRACE"

def Level.rank : Level → Nat
  | .warn => 0
  | .debug => 1
  | .trace => 2

/-- One reported fact. A scan notes them in the order in which its walk comes to know them. -/
inductive Note where
  /-- Reading stopped at a size limit. -/
  | stopped (offset size limit : Nat)
  /-- A region that cannot start a scan was asked for. -/
  | replacedStart (region start : String)
  | entityFound (name : String)
  | moduleFound (name : String)
  | instanceFound (label unit : String)
  /-- A generate header was read; the conditions now in force, outermost first. -/
  | conditionsNow (conditions : List String)
  | processClosed (label : Option String) (clocked : Bool)
  | alwaysClosed (offset : Nat) (clocked : Bool)
  /-- A word was met in a region. -/
  | visited (region word : String)
  /-- Entries of a declaration list had to be filled up. -/
  | padded (count : Nat) (category : String)
  /-- A diagnostic about a file. -/
  | diagnosed (path diagnostic : String)
deriving DecidableEq, Repr

namespace Note

def level : Note → Level
  | stopped .. | padded .. | diagnosed .. => .warn
  | visited .. => .trace
  | _ => .debug

def clockedWord (clocked : Bool) : String :=
  if clocked then "clocked" else "combinational"

def message : Note → String
  | stopped offset size limit =>
    "stopped scanning at byte " ++ toString offset ++ " of " ++ toString size ++
      " (size limit is " ++ toString limit ++ ")"
  | replacedStart region start => region ++ " is not a start region, using " ++ start
  | entityFound name => "found entity " ++ name
  | moduleFound name => "found module " ++ name
  | instanceFound label unit => "found instance " ++ label ++ " of " ++ unit
  | conditionsNow conditions => "generate conditions: " ++ Text.quoteList conditions
  | processClosed label clocked =>
    "process " ++ label.getD "(unlabeled)" ++ " is " ++ clockedWord clocked
  | alwaysClosed offset clocked =>
    "always block at " ++ toString offset ++ " is " ++ clockedWord clocked
  | visited region word => region ++ " " ++ Text.quote word
  | padded count category =>
    "padded " ++ toString count ++ " incomplete entries in " ++ category
  | diagnosed path diagnostic => path ++ ": " ++ diagnostic

def line (note : Note) : String := note.level.label ++ " " ++ note.message

end Note

/-- What is noted when a text of `size` bytes was read up to byte `scanned` under a limit. -/
def Note.ofReading (limit : Option Nat) (scanned size : Nat) : List Note :=
  match limit with
  | some limit => if scanned < size then [.stopped scanned size limit] else []
  | none => []

/-- The lines of a log at a level of detail, in the order of the notes. -/
def logLines (level : Level) (notes : List Note) : List String :=
  (notes.filter (·.level.rank ≤ level.rank)).map Note.line

end HdlIndex

import HdlIndex.Symbols.Word
/-! Processes and always blocks, and the signals that imply storage. A process has a sensitivity
list, and the names of its body with the role each one plays. A signal has the generate conditions
in force where it was first assigned under a clock. -/
namespace HdlIndex

/-- What a body does with a name. -/
inductive Role where
  /-- Target of a signal assignment. -/
  | target
  /-- Target of a variable assignment. -/
  | variableTarget
  | read
deriving DecidableEq, Repr, Inhabited

structure BodyWord where
  word : Word
  role : Role
deriving DecidableEq, Repr, Inhabited

/-- A process or an always block. Its words are as they are written, selected names in full. -/
structure HdlProcess where
  label : Option String
  span : Span
  /-- Some edge of a clock triggers it. -/
  clocked : Bool := false
  /-- It is sensitive to everything that it reads. -/
  all : Bool := false
  sensitivity : Array Word := #[]
  body : Array BodyWord := #[]
deriving DecidableEq, Repr, Inhabited

namespace HdlProcess

/-- A process that begins at a byte offset. -/
def starting (label : Option String) (offset : Nat) : HdlProcess :=
  { label, span := .empty offset }

def pushSensitivity (process : HdlProcess) (word : Word) : HdlProcess :=
  { process with sensitivity := process.sensitivity.push word }

def pushBody (process : HdlProcess) (word : Word) (role : Role) : HdlProcess :=
  { process with body := process.body.push ⟨word, role⟩ }

/-- Gives the body word at an index a role. An index past the end changes nothing. -/
def mark (process : HdlProcess) (index : Nat) (role : Role) : HdlProcess :=
  { process with body := process.body.modify index fun entry => { entry with role } }

def bodyWord? (process : HdlProcess) (index : Nat) : Option Word :=
  process.body[index]?.map (·.word)

/-- Stretches the process to a byte offset, but never to before its start. -/
def close (process : HdlProcess) (offset : Nat) : HdlProcess :=
  { process with span := ⟨process.span.start, max offset process.span.start⟩ }

/-- The names of the body that are assigned, in order. Variables are among them. -/
def targets (process : HdlProcess) : List Word :=
  (process.body.toList.filter (·.role ≠ .read)).map (·.word)

/-- The names of the body that signal assignments assign, in order. -/
def signalTargets (process : HdlProcess) : List Word :=
  (process.body.toList.filter (·.role = .target)).map (·.word)

/-- The names of the body that are not assigned, in order. -/
def reads (process : HdlProcess) : List Word :=
  (process.body.toList.filter (·.role = .read)).map (·.word)

end HdlProcess

/-- A signal and the conditions around its first clocked assignment, outermost first. -/
structure ClockedSignal where
  signal : Word
  conditions : List String
deriving DecidableEq, Repr, Inhabited

/-- Clocked signals in the order of their first assignment. -/
structure ClockedSignals where
  entries : Array ClockedSignal := #[]
deriving DecidableEq, Repr, Inhabited

namespace ClockedSignals

def contains (signals : ClockedSignals) (name : String) : Bool :=
  signals.entries.any (·.signal.text == name)

/-- Records a signal, unless its name is known already. -/
def record (signals : ClockedSignals) (signal : Word) (conditions : List String) :
    ClockedSignals :=
  if signals.contains signal.text then signals
  else ⟨signals.entries.push ⟨signal, conditions⟩⟩

def names (signals : ClockedSignals) : List String :=
  signals.entries.toList.map (·.signal.text)

def spans (signals : ClockedSignals) : List Span :=
  signals.entries.toList.map (·.signal.span)

def conditions (signals : ClockedSignals) : List (List String) :=
  signals.entries.toList.map (·.conditions)

/-- The conditions of the signal of that name. -/
def conditionsOf? (signals : ClockedSignals) (name : String) : Option (List String) :=
  (signals.entries.find? (·.signal.text == name)).map (·.conditions)

end ClockedSignals

end HdlIndex

import HdlIndex.Verilog.Reading
import HdlIndex.Verilog.Walk.Body
/-! The walk through the regions of a Verilog text, one event of its reading at a time. -/
namespace HdlIndex.Verilog.Walk

def read (walk : Walk) (here : Lexeme) (next : Option Lexeme) : Walk :=
  match walk.place with
  | .moduleContext => walk.readContext here
  | .moduleName => walk.readModuleName here
  | .moduleHeader announced => walk.readModuleHeader announced here
  | .parameterList owner inside item => walk.readParameters owner inside item here
  | .portList owner item => walk.readPorts owner item here
  | .moduleBody => walk.readItem here next
  | .declaration item => walk.readDeclaration item here
  | .importClause home => walk.readImport home here next
  | .instanceHeader statement depth => walk.readInstance statement depth here
  | .instanceMap statement depth => walk.readMap statement depth here
  | .generateHeader kind depth expr => walk.readGenerate kind depth expr here next
  | .generateChoice depth expr => walk.readChoice depth expr here
  | .alwaysHeader process => walk.readAlwaysHeader process here next
  | .sensitivityList process depth => walk.readSensitivity process depth here
  | .alwaysBlock clocked block => walk.readBlock clocked block here next
  | .skipStatement depth => walk.readSkipped depth here
  | .skipBlock closer home => walk.readSkippedBlock closer home here

/-- Reads the colon and the name of a label behind `begin` or `end`, if one is expected and `here`
belongs to it. -/
def readLabel? (walk : Walk) (here : Lexeme) : Option Walk :=
  match walk.label with
  | .idle => none
  | .colon recorded =>
    if here.symbol = .colon then some { walk with label := .name recorded } else none
  | .name recorded =>
    if here.symbol.isWord then
      let walk := { walk with label := .idle }
      some (if recorded then
          walk.collect fun found => { found with labels := found.labels.push here.word }
        else walk)
    else none

/-- Reads a word: as part of a label, or where the walk stands. -/
def readWord (walk : Walk) (here : Lexeme) (next : Option Lexeme) : Walk :=
  match walk.readLabel? here with
  | some walk => walk
  | none =>
    ({ walk with label := .idle }.note (.visited walk.place.region.name here.text)).read here next

/-- Records what is under way where the text ends at a byte offset: the last name of a list or of a
declaration. -/
def flushAt (walk : Walk) (offset : Nat) : Walk :=
  match walk.place with
  | .parameterList owner inside item => (walk.flush item).closeParameters owner inside offset
  | .portList owner item => (walk.flush item).goto owner.place
  | .declaration item => (walk.flush item).goto .moduleBody
  | _ => walk

/-- Takes one event. Comments and directives change nothing. -/
def step (walk : Walk) : Event → Walk
  | .comment _ | .directive _ => walk
  | .filler token => { walk with place := walk.place.absorb token }
  | .word here next => walk.readWord here next
  | .ended offset => walk.flushAt offset

def run (walk : Walk) (events : List Event) : Walk := events.foldl step walk

/-- Ends the walk at the end of a text of `size` bytes: a list, a declaration and an always block
that are still open end there. -/
def finish (walk : Walk) (size : Nat) : Walk :=
  let walk := walk.flushAt size
  match walk.place.process? with
  | some process => walk.commitProcess process size
  | none => walk

section Ends

variable {walk : Walk}

/-- What holds behind the list or the declaration that is open, and stays when the always block that
is open is recorded, holds at the end of the text. -/
theorem finish_of_flushAt {P : Walk → Prop} {size : Nat} (hFlushed : P (walk.flushAt size))
    (hCommit : ∀ process, (walk.flushAt size).place.process? = some process →
      P ((walk.flushAt size).commitProcess process size)) :
    P (walk.finish size) := by
  unfold finish
  dsimp only
  split
  · next process hOpen => exact hCommit process hOpen
  · exact hFlushed

/-- Lists and declarations stand outside of always blocks, so none is open before or behind them. -/
theorem process?_flushAt (size : Nat) :
    (walk.flushAt size).place.process? = walk.place.process? := by
  rw [flushAt]
  cases hPlace : walk.place with
  | parameterList owner inside item => cases owner <;> rfl
  | portList owner item => cases owner <;> rfl
  | declaration item => rfl
  | _ => rw [hPlace]

/-- What the end of the text ends puts no condition out of force. -/
theorem frames_finish (walk : Walk) (size : Nat) : (walk.finish size).frames = walk.frames := by
  have hFlushed : (walk.flushAt size).frames = walk.frames := by
    rw [flushAt]
    split <;> rfl
  exact finish_of_flushAt (P := (·.frames = walk.frames)) hFlushed fun _ _ => hFlushed

theorem chained_finish (walk : Walk) (size : Nat) : (walk.finish size).chained = walk.chained := by
  have hFlushed : (walk.flushAt size).chained = walk.chained := by
    rw [flushAt]
    split <;> rfl
  exact finish_of_flushAt (P := (·.chained = walk.chained)) hFlushed fun _ _ => hFlushed

/-- Nothing is left to be recorded where a text ends between modules. -/
theorem flushAt_context (h : walk.place = .moduleContext) (offset : Nat) :
    walk.flushAt offset = walk := by
  rw [flushAt, h]

theorem finish_context (h : walk.place = .moduleContext) (size : Nat) :
    walk.finish size = walk := by
  rw [finish, flushAt_context h, h]
  rfl

end Ends

end HdlIndex.Verilog.Walk

import HdlIndex.Language
import HdlIndex.Vhdl.Table
import HdlIndex.Vhdl.Scan
import HdlIndex.Verilog.Table
import HdlIndex.Verilog.Scan
/-! Scans of a design file of either language. -/
namespace HdlIndex

/-- The symbol table of a design file. -/
inductive Design where
  | vhdl (table : Vhdl.Table)
  | verilog (table : Verilog.Table)
deriving Repr

namespace Design

def language : Design → Language
  | vhdl _ => .vhdl
  | verilog _ => .verilog

def get (design : Design) (tag : String) : Answer :=
  match design with
  | vhdl table => table.get tag
  | verilog table => table.get tag

def positions (design : Design) (tag : String) : List Span :=
  match design with
  | vhdl table => table.positions tag
  | verilog table => table.positions tag

def processes : Design → List HdlProcess
  | vhdl table => table.processes.toList
  | verilog table => table.processes.toList

def diagnostics : Design → List Diagnostic
  | vhdl table => table.diagnostics
  | verilog table => table.diagnostics

/-- The name is that of a declared object. Constants and local parameters count as well, although
they are no signals. -/
def isSignal (design : Design) (name : String) : Bool :=
  match design with
  | vhdl table => table.isSignal name
  | verilog table => table.isSignal name

/-- The name is that of a port that can be read: of any mode but that of an output, also of a port
whose mode is not known. -/
def isReadablePort (design : Design) (name : String) : Bool :=
  match design with
  | vhdl table => table.isReadablePort name
  | verilog table => table.isReadablePort name

def clocked : Design → ClockedSignals
  | vhdl table => table.clocked
  | verilog table => table.clocked

def toJson : Design → Json
  | vhdl table => table.toJson
  | verilog table => table.toJson

end Design

/-- Where a scan starts, and with that the language it reads. -/
inductive Start where
  | vhdl (region : Vhdl.Region)
  | verilog (region : Verilog.Region)
deriving DecidableEq, Repr

namespace Start

def file : Language → Start
  | .vhdl => .vhdl .start
  | .verilog => .verilog .start

/-- The start in an entry region of a language, by its name. -/
def ofEntry? (language : Language) (name : String) : Option Start :=
  match language with
  | .vhdl => (Vhdl.Region.ofEntry? name).map .vhdl
  | .verilog => (Verilog.Region.ofEntry? name).map .verilog

end Start

/-- A table and the notes taken on the way to it. -/
structure Scan where
  design : Design
  notes : List Note

/-- Scans a text. A limit stops the reading in front of the first word that begins beyond so many
bytes, so that a little more may be read. -/
def scan (start : Start) (limit : Option Nat) (text : String) : Scan :=
  match start with
  | .vhdl region => let scan := Vhdl.scan region limit text; ⟨.vhdl scan.table, scan.notes⟩
  | .verilog region => let scan := Verilog.scan region limit text; ⟨.verilog scan.table, scan.notes⟩

/-- The ceiling on the bytes read of a file, unless large files are allowed. -/
def sizeLimit (large : Bool) : Option Nat := if large then none else some defaultSizeLimit

end HdlIndex

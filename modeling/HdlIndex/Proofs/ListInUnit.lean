import HdlIndex.Proofs.Aligned
import HdlIndex.Proofs.Lexical
import HdlIndex.Proofs.Verilog.EnclosedList
import HdlIndex.Proofs.Vhdl.EnclosedList

/-! A list that is read by itself and in its unit. By itself, the end of the text ends its last
element; in the unit a closing parenthesis does. -/
namespace HdlIndex

/-- The lists that may be read by themselves. -/
inductive ListForm where
  /-- The generics of an entity. -/
  | generics
  /-- The ports of an entity. -/
  | ports
  /-- The parameters of a module. -/
  | parameters
  /-- The ports of a module. -/
  | modulePorts
deriving DecidableEq, Repr

namespace ListForm

/-- Where the scan of a text starts that is nothing but the list. -/
def start : ListForm → Start
  | generics => .vhdl .genericList
  | ports => .vhdl .portList
  | parameters => .verilog .parameterList
  | modulePorts => .verilog .portList

/-- What a unit has in front of the list. -/
def lead : ListForm → String
  | generics => "entity e is generic ("
  | ports => "entity e is port ("
  | parameters => "module m #("
  | modulePorts => "module m ("

/-- What the unit has behind the list. -/
def rest : ListForm → String
  | generics | ports => "); end;"
  | parameters => ") (); endmodule"
  | modulePorts => "); endmodule"

/-- The text of a generic definition is that of the list. -/
def isGeneric : ListForm → Bool
  | generics | parameters => true
  | ports | modulePorts => false

/-- The text ends in the list: a scan that starts there is there at the end of the text's words,
outside of comments, strings and directives, and with no bracket open. -/
def EndsInside (form : ListForm) (text : String) : Prop :=
  match form with
  | generics => Vhdl.EndsInList .genericList text
  | ports => Vhdl.EndsInList .portList text
  | parameters => Verilog.EndsInList .parameterList text
  | modulePorts => Verilog.EndsInList .portList text

instance (form : ListForm) (text : String) : Decidable (form.EndsInside text) :=
  match form with
  | generics => inferInstanceAs (Decidable (Vhdl.EndsInList .genericList text))
  | ports => inferInstanceAs (Decidable (Vhdl.EndsInList .portList text))
  | parameters => inferInstanceAs (Decidable (Verilog.EndsInList .parameterList text))
  | modulePorts => inferInstanceAs (Decidable (Verilog.EndsInList .portList text))

end ListForm

/-- A list is read by itself as it is read in its unit: every declaration has the same name, mode,
type, range and initial value, and stands where it stands in the list, behind the text in front of
the list. A generic definition is the text of the list. -/
theorem scan_listInUnit (form : ListForm) {text : String} (h : form.EndsInside text) :
    let alone := (scan form.start none text).design
    let unit := (scan (.file form.start.language) none (form.lead ++ text ++ form.rest)).design
    unit.lists = alone.lists.map (fun list => (list.1, list.2.moved (form.lead.utf8ByteSize + ·))) ∧
      (form.isGeneric = true → alone.get "generic_definition" = .text text ∧
        unit.get "generic_definition" = .text text) := by
  cases form with
  | generics =>
      obtain ⟨hLists, hDefinition⟩ := Vhdl.scan_listInEntity h Vhdl.opensList_generics rfl
      obtain ⟨hAlone, hUnit⟩ := hDefinition rfl
      exact ⟨hLists, fun _ => ⟨congrArg Answer.text hAlone, congrArg Answer.text hUnit⟩⟩
  | ports =>
      obtain ⟨hLists, -⟩ := Vhdl.scan_listInEntity h Vhdl.opensList_ports rfl
      exact ⟨hLists, nofun⟩
  | parameters =>
      have hEnds : Verilog.EndsInList (Verilog.HeaderList.region .parameters) text := h
      obtain ⟨hLists, hDefinition⟩ := Verilog.scan_listInModule hEnds
      obtain ⟨hAlone, hUnit⟩ := hDefinition rfl
      exact ⟨hLists, fun _ => ⟨congrArg Answer.text hAlone, congrArg Answer.text hUnit⟩⟩
  | modulePorts =>
      have hEnds : Verilog.EndsInList (Verilog.HeaderList.region .ports) text := h
      obtain ⟨hLists, -⟩ := Verilog.scan_listInModule hEnds
      exact ⟨hLists, nofun⟩

/-- Generics that end in a constraint, and parameters that end in a value. -/
theorem scan_listInUnit_unfinished :
    (let text := "Width : integer := 8; Low, High : natural range 0 to 7"
      let alone := (scan (.vhdl .genericList) none text).design
      let unit := (scan (.vhdl .start) none ("entity e is generic (" ++ text ++ "); end;")).design
      unit.lists = alone.lists.map (fun list => (list.1, list.2.moved (21 + ·))) ∧
        alone.get "generic_definition" = .text text ∧ unit.get "generic_definition" = .text text) ∧
    (let text := "parameter W = f(8), int N = W + 1"
      let alone := (scan (.verilog .parameterList) none text).design
      let unit := (scan (.verilog .start) none ("module m #(" ++ text ++ ") (); endmodule")).design
      unit.lists = alone.lists.map (fun list => (list.1, list.2.moved (11 + ·))) ∧
        alone.get "generic_definition" = .text text ∧
        unit.get "generic_definition" = .text text) := by
  constructor
  · have hEnds : ListForm.generics.EndsInside
        "Width : integer := 8; Low, High : natural range 0 to 7" := by
      decide +kernel
    obtain ⟨hLists, hDefinition⟩ := scan_listInUnit .generics hEnds
    exact ⟨hLists, hDefinition rfl⟩
  · have hEnds : ListForm.parameters.EndsInside "parameter W = f(8), int N = W + 1" := by
      decide +kernel
    obtain ⟨hLists, hDefinition⟩ := scan_listInUnit .parameters hEnds
    exact ⟨hLists, hDefinition rfl⟩

end HdlIndex

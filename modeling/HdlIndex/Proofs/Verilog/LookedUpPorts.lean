import HdlIndex.Proofs.Symbols.Moved
import HdlIndex.Proofs.Verilog.Alike
import HdlIndex.Proofs.Verilog.ElseIf
import HdlIndex.Proofs.Verilog.EnclosedList
import HdlIndex.Proofs.Verilog.Truncated
import HdlIndex.Proofs.Verilog.UnitBoundary

/-! The names that declarations look up. A port, net or variable that a module's body declares is
looked up among the ports that are known, be they of its module or of an earlier one, and what it
says is added to the port of that name. So behind other modules a walk records what it records
without them, as long as it looks up none of their ports; and it changes no port but those that it
looks up. -/
namespace HdlIndex.Verilog

/-- The name that an item looks up among the ports. -/
def Item.lookup? (item : Item) : Option String :=
  match item.kind with
  | .bodyPort | .bodyNet => item.name.map (·.text)
  | .parameterPort | .port | .bodyParameter | .bodyLocalparam => none

/-- The names that the declarations of a text look up. -/
def lookups (text : String) : List String :=
  ((Walk.start .moduleContext).flushes (readEvents text.utf8ByteSize (tokens none text).list ++
    [.ended text.utf8ByteSize])).filterMap Item.lookup?

section Moved

variable {move : Nat → Nat} {walk : Walk} {item : Item} {here : Lexeme} {event : Event}
  {events others : List Event}

@[simp]
theorem Item.lookup?_moved : (item.moved move).lookup? = item.lookup? := by
  have hKind : (item.moved move).kind = item.kind := rfl
  have hName : (item.moved move).name = item.name.map (·.moved move) := rfl
  rw [lookup?, lookup?, hKind, hName, Option.map_map]
  rfl

theorem Item.endedBy?_moved (hMove : Monotone move) :
    (item.moved move).endedBy? (here.moved move) = (item.endedBy? here).map (·.moved move) := by
  rw [endedBy?, endedBy?, read_moved hMove]
  cases item.read here <;> rfl

/-- An item that a place has begun moves along with the place. -/
theorem Place.begun?_moved (place : Place) :
    (place.moved move).begun? = place.begun?.map (·.moved move) := by
  cases place with
  | instanceHeader statement depth =>
      cases depth with
      | zero =>
          have hName : (statement.moved move).name = statement.name.map (·.moved move) := rfl
          rw [moved, begun?, begun?, hName, Option.map_map, Option.map_map]
          rfl
      | succ depth => rfl
  | _ => rfl

/-- And so does the item that the end of the text completes. -/
theorem Walk.flushed?_moved (hMove : Monotone move) :
    (walk.moved move).flushed? (event.moved move) = (walk.flushed? event).map (·.moved move) := by
  have hPlace : (walk.moved move).place = walk.place.moved move := rfl
  cases event with
  | word here next =>
      rw [Event.moved, flushed?, flushed?, readLabel?_moved, Option.isSome_map, hPlace,
        Place.begun?_moved]
      split
      · rfl
      · cases walk.place.begun? with
        | none => rfl
        | some item => exact Item.endedBy?_moved hMove
  | ended offset =>
      rw [Event.moved, flushed?, flushed?, hPlace]
      cases walk.place <;> rfl
  | _ => rfl

/-- The items of a text at another place are those of the text at another place. -/
theorem Walk.flushes_moved (h : walk.All (·.IsRigid move) (fun _ => True)) (hMove : Monotone move)
    (hEvents : ∀ event ∈ events, event.All (·.IsRigid move)) :
    (walk.moved move).flushes (events.map (·.moved move)) =
      (walk.flushes events).map (·.moved move) := by
  induction events generalizing walk with
  | nil => rfl
  | cons event events ih =>
      rw [List.forall_mem_cons] at hEvents
      have hRest := ih (h.step (isRigid_located move) hEvents.1) hEvents.2
      rw [List.map_cons, flushes, flushes, step_moved h hMove, hRest, flushed?_moved hMove,
        List.map_append]
      cases walk.flushed? event <;> rfl

/-- The items completed over a run are those completed over its parts. -/
theorem Walk.flushes_append (walk : Walk) (events others : List Event) :
    walk.flushes (events ++ others) = walk.flushes events ++ (walk.run events).flushes others := by
  induction events generalizing walk with
  | nil => rfl
  | cons event events ih =>
      rw [List.cons_append, flushes, flushes, ih, List.append_assoc]
      rfl

end Moved

/-- The second walk has found what the first one has, behind what was found in front. Of that it has
changed no port but those of the given names. If there are none of these, it has found nothing
else. -/
structure Findings.Follows (names : List String) (base found other : Findings) : Prop where
  parameters : other.parameters = base.parameters.followedBy found.parameters
  objects : base.objects.rows.toList <+: other.objects.rows.toList
  ports : base.ports.KeepsRows names other.ports
  apart : (∀ name ∈ names, base.ports.find? name = none) →
    other.ports = base.ports.followedBy found.ports ∧
      other.objects = base.objects.followedBy found.objects

namespace Findings.Follows

variable {names : List String} {base found other : Findings} {item : Item} {name : Word}

/-- Behind complete lists a walk starts with nothing to follow. -/
theorem start (hPorts : base.ports.pending = #[]) (hParameters : base.parameters.pending = #[])
    (hObjects : base.objects.pending = #[]) : Follows names base {} base where
  parameters := (Declarations.followedBy_empty hParameters).symm
  objects := List.prefix_rfl
  ports := .refl names base.ports
  apart _ := ⟨(Declarations.followedBy_empty hPorts).symm,
    (Declarations.followedBy_empty hObjects).symm⟩

/-- A port that is not looked up is added. -/
theorem pushPort (h : Follows names base found other) {mode : String} {type : Option Word}
    {range init : String} :
    Follows names base { found with ports := found.ports.pushRow name mode type range init }
      { other with ports := other.ports.pushRow name mode type range init } :=
  { h with
    ports := h.ports.pushRow name
    apart := fun hApart => by
      obtain ⟨hPorts, hObjects⟩ := h.apart hApart
      exact ⟨hPorts ▸ Declarations.pushRow_followedBy .., hObjects⟩ }

/-- A new object is added on both sides, behind the ports that only one of them knows. -/
theorem pushObject (h : Follows names base found other) {mode : String} {type : Option Word}
    {range init : String} :
    Follows names base { found with objects := found.objects.pushRow name mode type range init }
      { other with objects := other.objects.pushRow name mode type range init } :=
  { h with
    objects := h.objects.trans (Declarations.prefix_pushRow ..)
    apart := fun hApart => by
      obtain ⟨hPorts, hObjects⟩ := h.apart hApart
      exact ⟨hPorts, hObjects ▸ Declarations.pushRow_followedBy ..⟩ }

/-- A new parameter is added on both sides. -/
theorem pushParameter (h : Follows names base found other) {mode : String} {type : Option Word}
    {range init : String} :
    Follows names base
      { found with parameters := found.parameters.pushRow name mode type range init }
      { other with parameters := other.parameters.pushRow name mode type range init } :=
  { h with parameters := h.parameters ▸ Declarations.pushRow_followedBy .. }

/-- A name that is not known in front is looked up alike. -/
theorem find?_eq (h : Follows names base found other) (hName : name.text ∈ names)
    (hApart : ∀ name ∈ names, base.ports.find? name = none) :
    other.ports.find? name.text =
      (found.ports.find? name.text).map (base.ports.rows.size + ·) := by
  rw [(h.apart hApart).1]
  exact Declarations.find?_followedBy _ (hApart name.text hName)

/-- A port whose name is among those looked up is declared in the same way on both sides. -/
theorem declarePort (h : Follows names base found other) (hName : name.text ∈ names) :
    Follows names base (Walk.declarePort found item name) (Walk.declarePort other item name) where
  parameters := by
    have hSame : ∀ found, (Walk.declarePort found item name).parameters = found.parameters := by
      intro found
      rw [Walk.declarePort]
      split <;> rfl
    rw [hSame, hSame, h.parameters]
  objects := by
    have hSame : (Walk.declarePort other item name).objects = other.objects := by
      rw [Walk.declarePort]
      split <;> rfl
    rw [hSame]
    exact h.objects
  ports := by
    rw [Walk.declarePort]
    split
    · next place hFound => exact h.ports.update hFound hName
    · exact h.ports.pushRow name
  apart hApart := by
    obtain ⟨hPorts, hObjects⟩ := h.apart hApart
    rw [Walk.declarePort, Walk.declarePort, h.find?_eq hName hApart]
    cases found.ports.find? name.text with
    | none => exact ⟨hPorts ▸ Declarations.pushRow_followedBy .., hObjects⟩
    | some place => exact ⟨hPorts ▸ Declarations.update_followedBy .., hObjects⟩

/-- So is a net: it finds the same port, or none. -/
theorem declareNet (h : Follows names base found other) (hName : name.text ∈ names) :
    Follows names base (Walk.declareNet found item name) (Walk.declareNet other item name) where
  parameters := by
    have hSame : ∀ found, (Walk.declareNet found item name).parameters = found.parameters := by
      intro found
      rw [Walk.declareNet]
      split <;> rfl
    rw [hSame, hSame, h.parameters]
  objects := by
    rw [Walk.declareNet]
    split
    · exact h.objects
    · exact h.objects.trans (Declarations.prefix_pushRow ..)
  ports := by
    rw [Walk.declareNet]
    split
    · next place hFound => exact h.ports.update hFound hName
    · exact h.ports
  apart hApart := by
    obtain ⟨hPorts, hObjects⟩ := h.apart hApart
    rw [Walk.declareNet, Walk.declareNet, h.find?_eq hName hApart]
    cases found.ports.find? name.text with
    | none => exact ⟨hPorts, hObjects ▸ Declarations.pushRow_followedBy ..⟩
    | some place => exact ⟨hPorts ▸ Declarations.update_followedBy .., hObjects⟩

/-- A walk that looks up no other names goes on to find what it finds without those in front. -/
theorem isKept (names : List String) (base : Findings) :
    IsKept False (fun item => ∀ name ∈ item.lookup?, name ∈ names) (Follows names base) where
  apart h hChange :=
    { parameters := by rw [(hChange _).parameters, (hChange _).parameters, h.parameters]
      objects := by
        rw [(hChange _).objects]
        exact h.objects
      ports := by
        rw [(hChange _).ports]
        exact h.ports
      apart := by
        rw [(hChange _).ports, (hChange _).objects, (hChange _).ports, (hChange _).objects]
        exact h.apart }
  declare {found other item} h hNames := by
    rw [Walk.declare, Walk.declare]
    cases hItem : item.name with
    | none => exact h
    | some name =>
        have hName : item.kind = .bodyPort ∨ item.kind = .bodyNet → name.text ∈ names := by
          intro hKind
          apply hNames
          rw [Item.lookup?, hItem]
          obtain hKind | hKind := hKind <;> rw [hKind] <;> rfl
        cases hKind : item.kind with
        | parameterPort => exact h.pushParameter
        | bodyParameter => exact h.pushParameter
        | port => exact h.pushPort
        | bodyPort => exact h.declarePort (hName (.inl hKind))
        | bodyNet => exact h.declareNet (hName (.inr hKind))
        | bodyLocalparam => exact h.pushObject
  record h _ := { h with }

end Findings.Follows

end HdlIndex.Verilog

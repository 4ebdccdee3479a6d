import HdlIndex.Proofs.Vhdl.WordReading
import HdlIndex.Vhdl.Scan

/-! The walk inside of an interface list. As long as no parenthesis closes the list, all that a
plain token changes is the element under way and the declaration list that its names go to. Tokens
without text change nothing. -/
namespace HdlIndex.Vhdl

/-- An interface list as far as it is read. -/
structure Filling where
  /-- The element under way. -/
  element : Element := {}
  list : Declarations := {}

namespace Filling

/-- What a word makes of the list. There is no result where it closes the list. -/
def move? (kind : ListKind) (filling : Filling) : Move → Option Filling
  | .stay element => some { filling with element }
  | .name word => some { filling with list := filling.list.pushName word }
  | .done => some ⟨{}, filling.element.complete kind.defaultMode filling.list⟩
  | .close => none

/-- Takes a token. -/
def take (kind : ListKind) (filling : Filling) (token : Token) : Option Filling :=
  if token.isBlank then
    some { filling with element.expr := filling.element.expr.absorb token }
  else filling.move? kind (filling.element.read true (.ofToken token))

/-- Takes tokens one after the other. -/
def takeAll (kind : ListKind) : Filling → List Token → Option Filling
  | filling, [] => some filling
  | filling, token :: tokens => do (← filling.take kind token).takeAll kind tokens

variable {kind : ListKind} {filling middle : Filling} {token : Token} {tokens others : List Token}

/-- Tokens are taken one after the other, so that they may be cut anywhere. -/
theorem takeAll_append (h : filling.takeAll kind tokens = some middle) :
    filling.takeAll kind (tokens ++ others) = middle.takeAll kind others := by
  induction tokens generalizing filling with
  | nil =>
      obtain rfl := Option.some.inj h
      rfl
  | cons token tokens ih =>
      rw [takeAll] at h
      obtain ⟨next, hTake, hRest⟩ := Option.bind_eq_some_iff.1 h
      rw [List.cons_append, takeAll, hTake]
      exact ih hRest

/-- A token is taken before those behind it. -/
theorem takeAll_cons (h : filling.take kind token = some middle) :
    filling.takeAll kind (token :: tokens) = middle.takeAll kind tokens := by
  rw [takeAll, h]
  rfl

theorem take_blank (h : token.isBlank = true) :
    filling.take kind token =
      some { filling with element.expr := filling.element.expr.absorb token } := by
  rw [take, if_pos h]

theorem take_stay (hBlank : token.isBlank = false) {element : Element}
    (hRead : filling.element.read true (.ofToken token) = .stay element) :
    filling.take kind token = some { filling with element } := by
  rw [take, hBlank, hRead]
  rfl

end Filling

/-- The walk stands in an interface list and read it so far. What it found elsewhere is as given,
and no generate statement is open. -/
structure Walk.Fills (list : InterfaceList) (found : Findings) (walk : Walk) (filling : Filling) :
    Prop where
  place : walk.place = .interfaceDeclaration list filling.element
  found : walk.found = found.modifyList list.kind fun _ => filling.list
  generates : walk.generates = []

theorem Findings.modifyList_modifyList (found : Findings) (kind : ListKind)
    (first second : Declarations → Declarations) :
    (found.modifyList kind first).modifyList kind second =
      found.modifyList kind fun list => second (first list) := by
  cases kind <;> rfl

theorem Walk.found_closeList (walk : Walk) (list : InterfaceList) (offset : Nat) :
    (walk.closeList list offset).found = if list.kind = .generics
      then { walk.found with genericClause := some ⟨list.inside, offset⟩ } else walk.found := by
  rw [closeList]
  split <;> rfl

theorem Walk.place_closeList (walk : Walk) (list : InterfaceList) (offset : Nat) :
    (walk.closeList list offset).place = list.owner.place := by
  rw [closeList]
  split <;> rfl

/-- The end of a text ends the last element of a list that is the whole text. -/
theorem Walk.finish_interface {walk : Walk} {list : InterfaceList} {element : Element}
    (hPlace : walk.place = .interfaceDeclaration list element) (hOwner : list.owner = .text)
    (size : Nat) : walk.finish size = (walk.completeElement list element).closeList list size := by
  have hProcess : ((walk.completeElement list element).closeList list size).place.process? =
      none := by
    rw [closeList]
    split <;> simp [goto, collect, hOwner, Owner.place, Place.process?]
  rw [Walk.finish, hPlace]
  dsimp only
  rw [hProcess]

namespace Walk.Fills

variable {list : InterfaceList} {found : Findings} {walk : Walk} {filling next : Filling}
  {token : Token} {tokens : List Token} {event : Event} {events : List Event}

theorem filler (h : walk.Fills list found filling) (token : Token) :
    (walk.step (.filler token)).Fills list found
      { filling with element.expr := filling.element.expr.absorb token } where
  place := by rw [step, h.place]; rfl
  found := h.found
  generates := h.generates

/-- The walk follows each word that does not close the list. -/
theorem readInterface (h : walk.Fills list found filling) {here : Lexeme}
    (hMove : filling.move? list.kind (filling.element.read true here) = some next) :
    (walk.readInterface list filling.element here).Fills list found next := by
  rw [Walk.readInterface]
  cases hRead : filling.element.read true here with
  | stay element =>
      rw [hRead] at hMove
      obtain rfl := Option.some.inj hMove
      exact ⟨rfl, h.found, h.generates⟩
  | name word =>
      rw [hRead] at hMove
      obtain rfl := Option.some.inj hMove
      refine ⟨h.place, ?_, h.generates⟩
      show walk.found.modifyList list.kind (·.pushName word) = _
      rw [h.found, Findings.modifyList_modifyList]
  | done =>
      rw [hRead] at hMove
      obtain rfl := Option.some.inj hMove
      refine ⟨rfl, ?_, h.generates⟩
      show walk.found.modifyList list.kind (filling.element.complete list.kind.defaultMode) = _
      rw [h.found, Findings.modifyList_modifyList]
  | close =>
      rw [hRead] at hMove
      cases hMove

/-- The walk follows each token that the list takes. -/
theorem step (h : walk.Fills list found filling) (hEvent : Event.OfPlain token event)
    (hTake : filling.take list.kind token = some next) :
    (walk.step event).Fills list found next := by
  cases hEvent with
  | filler hBlank =>
      rw [Filling.take_blank hBlank] at hTake
      obtain rfl := Option.some.inj hTake
      exact h.filler token
  | word hBlank before after =>
      have hNoted : (walk.note (.visited walk.place.region.name (Lexeme.ofToken token).text)).Fills
          list found filling := ⟨h.place, h.found, h.generates⟩
      rw [Filling.take, hBlank] at hTake
      rw [Walk.step, Walk.read, hNoted.place]
      exact hNoted.readInterface hTake

/-- A token without text changes nothing. -/
theorem step_empty (h : walk.Fills list found filling) (hEvent : Event.OfPlain token event)
    (hEmpty : token.isEmpty = true) : (walk.step event).Fills list found filling := by
  have hText : token.text = "" := String.isEmpty_iff.1 hEmpty
  cases hEvent with
  | filler hBlank =>
      have hExpr : filling.element.expr.absorb token = filling.element.expr := by
        simp [Capture.absorb, Capture.push, hEmpty]
      have hNext := h.filler token
      rw [hExpr] at hNext
      exact hNext
  | word hBlank before after => simp [Token.isBlank, hText] at hBlank

/-- The walk follows the tokens that the list takes. -/
theorem run (h : walk.Fills list found filling) (hEvents : List.Forall₂ Event.OfPlain tokens events)
    (hTake : filling.takeAll list.kind (tokens.filter (! ·.isEmpty)) = some next) :
    (walk.run events).Fills list found next := by
  induction hEvents generalizing walk filling with
  | nil =>
      obtain rfl := Option.some.inj hTake
      exact h
  | @cons token event tokens events hEvent hEvents ih =>
      cases hEmpty : token.isEmpty with
      | true =>
          rw [List.filter_cons_of_neg (by simp [hEmpty])] at hTake
          exact ih (h.step_empty hEvent hEmpty) hTake
      | false =>
          rw [List.filter_cons_of_pos (by simp [hEmpty]), Filling.takeAll] at hTake
          obtain ⟨middle, hFirst, hRest⟩ := Option.bind_eq_some_iff.1 hTake
          exact ih (h.step hEvent hFirst) hRest

/-- The end of a text that holds nothing but the list ends the last element. -/
theorem finish (h : walk.Fills list found filling) (hOwner : list.owner = .text) (size : Nat) :
    walk.finish size = (walk.completeElement list filling.element).closeList list size :=
  finish_interface h.place hOwner size

theorem found_completeElement (h : walk.Fills list found filling) :
    (walk.completeElement list filling.element).found = found.modifyList list.kind fun _ =>
      filling.element.complete list.kind.defaultMode filling.list := by
  show walk.found.modifyList list.kind (filling.element.complete list.kind.defaultMode) = _
  rw [h.found, Findings.modifyList_modifyList]

end Walk.Fills

end HdlIndex.Vhdl

import HdlIndex.Proofs.Verilog.Turns

/-! Where modules end. Conditions, generate regions and blocks are open inside of a module's body
only: words of a body lead to the body, apart from the one that ends the module. A walk that comes
to stand between modules did not look at the next word for it. -/
namespace HdlIndex.Verilog

/-- The home is no part of a module's body. -/
def Home.isOutside : Home → Bool
  | .moduleContext | .moduleHeader _ => true
  | .moduleBody => false

/-- The place lies in front of the body of every module, or behind its end. -/
def Place.isOutside : Place → Bool
  | .moduleContext | .moduleName | .moduleHeader _ | .parameterList .. | .portList .. => true
  | .importClause home | .skipBlock _ home => home.isOutside
  | _ => false

theorem Place.isOutside_absorb (place : Place) (token : Token) :
    (place.absorb token).isOutside = place.isOutside := by
  cases place <;> rfl

namespace Walk

variable {walk other : Walk} {here : Lexeme} {next next' : Option Lexeme} {home : Home}
  {owner : Owner}
  {place : Place} {item : Item} {process : HdlProcess} {block : Block} {clocked : Bool}
  {depth : Nat}
  {expr : Capture} {kind : GenerateKind} {statement : Instantiation} {word : Keyword}

/-- Outside of modules' bodies no condition is in force, no generate region and no block is open,
and no label is expected. -/
def IsClear (walk : Walk) : Prop :=
  walk.place.isOutside = true →
    walk.frames = [] ∧ walk.bases = [] ∧ walk.blocks = 0 ∧ walk.label = .idle

section Inside

theorem place_backToBody (walk : Walk) : walk.backToBody.place = .moduleBody :=
  (Idles.endItem _).place

theorem inside_readDeclaration : (walk.readDeclaration item here).place.isOutside = false := by
  rw [readDeclaration]
  split
  · rfl
  · rfl
  all_goals rw [place_backToBody]; rfl

theorem inside_readSkipped (h : walk.place.isOutside = false) :
    (walk.readSkipped depth here).place.isOutside = false := by
  rw [readSkipped]
  split
  · rfl
  split
  · rfl
  split
  · rw [place_backToBody]
    rfl
  · exact h

theorem inside_readChoice : (walk.readChoice depth expr here).place.isOutside = false := by
  unfold readChoice
  dsimp only
  split
  · rfl
  split
  · rfl
  split <;> rfl

theorem place_expectLabel (walk : Walk) (recorded : Bool) (next : Option Lexeme) :
    (walk.expectLabel recorded next).place = walk.place :=
  (Idles.expectLabel walk recorded next).place

/-- Only one word of a body leads out of it, and with it all conditions and blocks end. -/
theorem inside_readItemKeyword (h : walk.place.isOutside = false) (hWord : word ≠ .endmodule) :
    (walk.readItemKeyword word here next).place.isOutside = false := by
  have hIdles : ∀ {other : Walk}, walk.Idles other → other.place.isOutside = false := fun hOther =>
    hOther.place ▸ h
  have hEnd : walk.Idles (walk.closeBlock.expectLabel false next) :=
    (Idles.closeBlock walk).trans (.expectLabel _ _ _)
  unfold readItemKeyword
  split
  case h_1 => rwa [place_expectLabel]
  case h_2 => exact hIdles hEnd
  case h_3 => exact hIdles (.closeCase walk)
  case h_6 => exact absurd rfl hWord
  case h_24 => exact hIdles (.readElse walk next)
  case h_25 =>
    split
    · exact inside_readDeclaration
    · rfl
  all_goals first
    | rfl
    | exact h
    | exact inside_readDeclaration

/-- Between the items of a module nothing but `endmodule` leaves it. -/
theorem inside_readItem (h : walk.place.isOutside = false)
    (hHere : here.symbol ≠ .keyword .endmodule) :
    (walk.readItem here next).place.isOutside = false := by
  rw [readItem]
  split
  · exact inside_readChoice
  split
  · rw [(Idles.endItem walk).place]
    exact h
  · next word hSymbol => exact inside_readItemKeyword h fun hWord => hHere (hWord ▸ hSymbol)
  · rfl
  · rfl

theorem inside_readGenerate (h : walk.place.isOutside = false) :
    (walk.readGenerate kind depth expr here next).place.isOutside = false := by
  unfold readGenerate
  dsimp only
  split
  · rfl
  split
  · rfl
  split
  · rfl
  split
  · rfl
  split
  · rfl
  · exact h

/-- An instance, or the declaration it turns into, ends in the same module. -/
theorem inside_readInstance (h : walk.place.isOutside = false) :
    (walk.readInstance statement depth here).place.isOutside = false := by
  unfold readInstance
  dsimp only
  split
  · split
    · rfl
    · rfl
    · exact h
  split
  case h_3 => split <;> rfl
  case h_9 => rw [place_backToBody]; rfl
  case h_10 =>
    unfold readInstanceName
    dsimp only
    split
    · rfl
    split
    · rfl
    · exact h
  all_goals first
    | rfl
    | exact inside_readDeclaration

theorem inside_readMap (h : walk.place.isOutside = false) :
    (walk.readMap statement depth here).place.isOutside = false := by
  unfold readMap
  split
  · rfl
  split
  · rfl
  split
  · rfl
  · rw [place_backToBody]
    rfl
  · exact h

theorem inside_readSensitivity (h : walk.place.isOutside = false) :
    (walk.readSensitivity process depth here).place.isOutside = false := by
  unfold readSensitivity
  dsimp only
  split
  · rfl
  · split <;> rfl
  · split <;> rfl
  · rfl
  · rfl
  · split <;> rfl
  · exact h

theorem inside_endStatement :
    (walk.endStatement clocked block here next).place.isOutside = false := by
  rw [endStatement]
  split
  · rfl
  split
  all_goals rw [place_backToBody]; rfl

theorem inside_readAssignment (nonBlocking : Bool) :
    (walk.readAssignment clocked block nonBlocking).place.isOutside = false := by
  unfold readAssignment
  dsimp only
  split
  · rfl
  · rfl
  · split <;> rfl

/-- A block ends in the body of its module. -/
theorem inside_readBlock : (walk.readBlock clocked block here next).place.isOutside = false := by
  have hLabel : ∀ other recorded, ((walk.goto (.alwaysBlock clocked other)).expectLabel recorded
      next).place.isOutside = false := by
    intro other recorded
    rw [place_expectLabel]
    rfl
  unfold readBlock
  dsimp only
  split
  · rfl
  split
  · rfl
  split
  · rfl
  split
  · split
    · exact inside_endStatement
    · rfl
  · unfold readBlockKeyword
    dsimp only
    repeat' split
    all_goals first
      | rfl
      | exact inside_endStatement
      | exact hLabel _ _
  · rfl
  · split <;> rfl
  · exact inside_readAssignment _
  · exact inside_readAssignment _
  all_goals rfl

theorem inside_readAlwaysHeader :
    (walk.readAlwaysHeader process here next).place.isOutside = false := by
  rw [readAlwaysHeader]
  split
  · rfl
  · exact inside_readBlock

end Inside

namespace IsClear

theorem inside (h : walk.place.isOutside = false) : walk.IsClear := fun hOutside => by
  rw [h] at hOutside
  cases hOutside

theorem collect (h : walk.IsClear) (change : Findings → Findings) : (walk.collect change).IsClear :=
  h

theorem goto (h : walk.IsClear) (hPlace : place.isOutside = true → walk.place.isOutside = true) :
    (walk.goto place).IsClear := fun hOutside => h (hPlace hOutside)

theorem backToBody (walk : Walk) : walk.backToBody.IsClear := inside (by rw [place_backToBody]; rfl)

theorem resume (h : walk.IsClear) (hHome : home.isOutside = true → walk.place.isOutside = true) :
    (walk.resume home).IsClear := by
  cases home with
  | moduleContext => exact h.goto hHome
  | moduleHeader announced => exact h.goto hHome
  | moduleBody => exact backToBody walk

theorem readContext (h : walk.IsClear) (hPlace : walk.place.isOutside = true) :
    (walk.readContext here).IsClear := by
  rw [Walk.readContext]
  split
  all_goals first
    | exact h
    | exact h.goto fun _ => hPlace

theorem readModuleName (h : walk.IsClear) (hPlace : walk.place.isOutside = true) :
    (walk.readModuleName here).IsClear := by
  rw [Walk.readModuleName]
  split
  · exact IsClear.goto h fun _ => hPlace
  · exact h

/-- Outside of module bodies no frame and no block is open, and a header opens none. -/
theorem readModuleHeader {announced : Bool} (h : walk.IsClear)
    (hPlace : walk.place.isOutside = true) :
    (walk.readModuleHeader announced here).IsClear := by
  rw [Walk.readModuleHeader]
  split
  · exact h.goto fun _ => hPlace
  · split <;> exact h.goto fun _ => hPlace
  · exact backToBody _
  · exact h.goto fun _ => hPlace
  · exact h

theorem closeParameters {inside offset : Nat} (h : walk.IsClear)
    (hPlace : walk.place.isOutside = true) :
    (walk.closeParameters owner inside offset).IsClear :=
  (h.collect _).goto fun _ => hPlace

theorem readParameters {inside : Nat} (h : walk.IsClear) (hPlace : walk.place.isOutside = true) :
    (walk.readParameters owner inside item here).IsClear := by
  rw [Walk.readParameters]
  split
  · exact h.goto fun _ => hPlace
  · exact (h.collect _).goto fun _ => hPlace
  · exact (h.collect _).goto fun _ => hPlace
  · exact (h.collect _).closeParameters hPlace

theorem readPorts (h : walk.IsClear) (hPlace : walk.place.isOutside = true) :
    (walk.readPorts owner item here).IsClear := by
  rw [Walk.readPorts]
  split
  · exact h.goto fun _ => hPlace
  all_goals exact (h.collect _).goto fun _ => hPlace

theorem readImport (h : walk.IsClear) (hPlace : walk.place = .importClause home) :
    (walk.readImport home here next).IsClear := by
  rw [Walk.readImport]
  split
  · exact h.resume fun hHome => hPlace ▸ hHome
  · split <;> exact h
  · split <;> exact h
  · exact h

theorem readSkippedBlock {closer : Keyword} (h : walk.IsClear)
    (hPlace : walk.place = .skipBlock closer home) :
    (walk.readSkippedBlock closer home here).IsClear := by
  rw [Walk.readSkippedBlock]
  split
  · exact h.resume fun hHome => hPlace ▸ hHome
  · exact h

/-- Where a module ends, all of its conditions and blocks end. -/
theorem readItem (hPlace : walk.place.isOutside = false) (hLabel : walk.label = .idle) :
    (walk.readItem here next).IsClear := by
  by_cases hHere : here.symbol = .keyword .endmodule
  · have hChoice : isBlockWord here.symbol = true := by rw [hHere]; rfl
    rw [Walk.readItem, hChoice, Bool.not_true, Bool.and_false, if_neg Bool.false_ne_true, hHere]
    exact fun _ => ⟨rfl, rfl, rfl, hLabel⟩
  · exact inside (inside_readItem hPlace hHere)

end IsClear

/-- Reading a word outside of a body leaves nothing open. -/
theorem isClear_read (h : walk.IsClear) (hLabel : walk.label = .idle) :
    (walk.read here next).IsClear := by
  rw [read]
  cases hPlace : walk.place with
  | moduleContext => exact h.readContext (hPlace ▸ rfl)
  | moduleName => exact h.readModuleName (hPlace ▸ rfl)
  | moduleHeader announced => exact h.readModuleHeader (hPlace ▸ rfl)
  | parameterList owner inside item => exact h.readParameters (hPlace ▸ rfl)
  | portList owner item => exact h.readPorts (hPlace ▸ rfl)
  | moduleBody => exact .readItem (hPlace ▸ rfl) hLabel
  | declaration item => exact .inside inside_readDeclaration
  | importClause home => exact h.readImport hPlace
  | instanceHeader statement depth => exact .inside (inside_readInstance (hPlace ▸ rfl))
  | instanceMap statement depth => exact .inside (inside_readMap (hPlace ▸ rfl))
  | generateHeader kind depth expr => exact .inside (inside_readGenerate (hPlace ▸ rfl))
  | generateChoice depth expr => exact .inside inside_readChoice
  | alwaysHeader process => exact .inside inside_readAlwaysHeader
  | sensitivityList process depth => exact .inside (inside_readSensitivity (hPlace ▸ rfl))
  | alwaysBlock clocked block => exact .inside inside_readBlock
  | skipStatement depth => exact .inside (inside_readSkipped (hPlace ▸ rfl))
  | skipBlock closer home => exact h.readSkippedBlock hPlace

/-- A label changes nothing but itself and what is found. -/
theorem place_readLabel? (h : walk.readLabel? here = some other) :
    other.place = walk.place ∧ walk.label ≠ .idle := by
  unfold readLabel? at h
  split at h
  · cases h
  · next recorded hLabel =>
    split at h
    · obtain rfl := Option.some.inj h
      exact ⟨rfl, by simp [hLabel]⟩
    · cases h
  · next recorded hLabel =>
    dsimp only at h
    split at h
    · obtain rfl := Option.some.inj h
      refine ⟨?_, by simp [hLabel]⟩
      split <;> rfl
    · cases h

/-- Each word keeps the walk clear where it is outside of modules: `endmodule` clears it. -/
theorem isClear_readWord (h : walk.IsClear) : (walk.readWord here next).IsClear := by
  rw [readWord]
  cases hRead : walk.readLabel? here with
  | none =>
      apply isClear_read
      · intro hOutside
        obtain ⟨hFrames, hBases, hBlocks, -⟩ := h hOutside
        exact ⟨hFrames, hBases, hBlocks, rfl⟩
      · rfl
  | some labelled =>
      obtain ⟨hPlace, hLabel⟩ := place_readLabel? hRead
      apply IsClear.inside
      rw [hPlace]
      cases hOutside : walk.place.isOutside with
      | false => rfl
      | true => exact absurd (h hOutside).2.2.2 hLabel

/-- The end of the text opens no frame and no block. -/
theorem isClear_flushAt (h : walk.IsClear) (offset : Nat) : (walk.flushAt offset).IsClear := by
  unfold flushAt
  split
  · next hPlace => exact (h.collect _).closeParameters (hPlace ▸ rfl)
  · next hPlace => exact (h.collect _).goto fun _ => hPlace ▸ rfl
  · exact .inside rfl
  · exact h

/-- And each event does. -/
theorem isClear_step (h : walk.IsClear) (event : Event) : (walk.step event).IsClear := by
  cases event with
  | comment span => exact h
  | directive span => exact h
  | filler token =>
      exact h.goto fun hOutside => Place.isOutside_absorb walk.place token ▸ hOutside
  | word here next => exact isClear_readWord h
  | ended offset => exact isClear_flushAt h offset

theorem isClear_run (h : walk.IsClear) (events : List Event) : (walk.run events).IsClear := by
  induction events generalizing walk with
  | nil => exact h
  | cons event events ih => exact ih (isClear_step h event)

theorem isClear_start (region : Region) : (Walk.start region).IsClear := by
  intro _
  cases region <;> exact ⟨rfl, rfl, rfl, rfl⟩

section Boundary

/-- An import that leads outside of modules does so whatever comes next. -/
theorem readImport_next (hPlace : walk.place = .importClause home)
    (h : (walk.readImport home here next).place = .moduleContext) :
    walk.readImport home here next' = walk.readImport home here next := by
  have hStays : ∀ change, (if isNext next .scope then walk.collect change else walk).place ≠
      .moduleContext := by
    intro change
    split <;> simp [collect, hPlace]
  rw [readImport] at h
  rw [readImport, readImport]
  split
  · rfl
  · next hSymbol =>
    rw [hSymbol] at h
    exact absurd h (hStays _)
  · next hSymbol =>
    rw [hSymbol] at h
    exact absurd h (hStays _)
  · rfl

/-- And `endmodule`, the only word between items that does, looks at no word ahead. -/
theorem readItem_next (hPlace : walk.place.isOutside = false)
    (h : (walk.readItem here next).place = .moduleContext) :
    walk.readItem here next' = walk.readItem here next := by
  by_cases hHere : here.symbol = .keyword .endmodule
  · rw [readItem, readItem, hHere]
    rfl
  · have hInside : (walk.readItem here next).place.isOutside = false := inside_readItem hPlace hHere
    rw [h] at hInside
    cases hInside

/-- So a word that leads outside of modules is read in the same way in front of any word. -/
theorem read_next (h : (walk.read here next).place = .moduleContext) :
    walk.read here next' = walk.read here next := by
  have hLeaves : (walk.read here next).place.isOutside = true := by rw [h]; rfl
  rw [read] at h hLeaves
  rw [read, read]
  cases hPlace : walk.place with
  | moduleBody =>
      rw [hPlace] at h
      exact readItem_next (hPlace ▸ rfl) h
  | importClause home =>
      rw [hPlace] at h
      exact readImport_next hPlace h
  | generateHeader kind depth expr =>
      have hInside : (walk.readGenerate kind depth expr here next).place.isOutside = false :=
        inside_readGenerate (hPlace ▸ rfl)
      rw [hPlace, hInside] at hLeaves
      cases hLeaves
  | alwaysHeader process =>
      rw [hPlace, inside_readAlwaysHeader] at hLeaves
      cases hLeaves
  | alwaysBlock clocked block =>
      rw [hPlace, inside_readBlock] at hLeaves
      cases hLeaves
  | _ => rfl

/-- The same for a word that may be part of a label. -/
theorem readWord_next (h : (walk.readWord here next).place = .moduleContext) :
    walk.readWord here next' = walk.readWord here next := by
  rw [readWord] at h
  rw [readWord, readWord]
  cases hRead : walk.readLabel? here with
  | none =>
      rw [hRead] at h
      exact read_next h
  | some labelled => rfl

end Boundary

end Walk

end HdlIndex.Verilog

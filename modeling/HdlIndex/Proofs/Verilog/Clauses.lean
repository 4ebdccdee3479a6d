import HdlIndex.Proofs.Verilog.Insertion

/-! The parameter clause of a Verilog text. Its range is remembered from the word that opens the
list to the one that closes it. So where no list is open, the clause that is recorded in the end
lies on one side: it is that of the words in front, or its ends are those of words behind. -/
namespace HdlIndex.Verilog

namespace Walk

variable {walk other base : Walk} {here : Lexeme} {next : Option Lexeme} {home : Home}
  {owner : Owner}
  {place : Place} {item : Item} {process : HdlProcess} {block : Block} {clocked : Bool}
  {depth : Nat}
  {expr : Capture} {kind : GenerateKind} {statement : Instantiation} {word : Keyword}

/-- No clause is recorded and no list is opened. -/
structure SparesClause (walk other : Walk) : Prop where
  clause : other.found.genericClause = walk.found.genericClause
  place : other.place.isInClause = false

namespace SparesClause

theorem refl (h : walk.place.isInClause = false) : walk.SparesClause walk := ⟨rfl, h⟩

theorem trans (h : walk.SparesClause other) (h' : other.SparesClause base) :
    walk.SparesClause base :=
  ⟨h'.clause.trans h.clause, h'.place⟩

theorem of_idles (h : walk.Idles other) (hPlace : walk.place.isInClause = false) :
    walk.SparesClause other :=
  ⟨congrArg Findings.genericClause h.found, h.place ▸ hPlace⟩

theorem goto (h : place.isInClause = false) : walk.SparesClause (walk.goto place) := ⟨rfl, h⟩

theorem ownerPlace (owner : Owner) : owner.place.isInClause = false := by cases owner <;> rfl

theorem backToBody (walk : Walk) : walk.SparesClause walk.backToBody :=
  (goto rfl).trans (of_idles (.endItem (walk.goto .moduleBody)) rfl)

/-- What resumes where it stood before opens no clause. -/
theorem resume (walk : Walk) (home : Home) : walk.SparesClause (walk.resume home) := by
  cases home with
  | moduleContext => exact goto rfl
  | moduleHeader announced => exact goto rfl
  | moduleBody => exact backToBody walk

theorem flush (h : place.isInClause = false) : walk.SparesClause ((walk.flush item).goto place) :=
  ⟨(walk.genericClause_flush item).1, h⟩

theorem readContext (h : walk.place.isInClause = false) :
    walk.SparesClause (walk.readContext here) := by
  rw [Walk.readContext]
  split
  all_goals first
    | exact goto rfl
    | exact refl h

theorem readModuleName (h : walk.place.isInClause = false) :
    walk.SparesClause (walk.readModuleName here) := by
  rw [Walk.readModuleName]
  split
  · exact ⟨rfl, rfl⟩
  · exact refl h

theorem readPorts : walk.SparesClause (walk.readPorts owner item here) := by
  rw [Walk.readPorts]
  split
  · exact goto rfl
  · exact flush rfl
  · exact flush rfl
  · exact flush (ownerPlace owner)

/-- A declaration in the body records names, and neither opens nor closes a clause. -/
theorem readDeclaration : walk.SparesClause (walk.readDeclaration item here) := by
  rw [Walk.readDeclaration]
  have hBack : walk.SparesClause (walk.flush item).backToBody :=
    ⟨(backToBody _).clause.trans (walk.genericClause_flush item).1, (backToBody _).place⟩
  split
  · exact goto rfl
  · exact flush rfl
  · exact hBack
  · exact hBack

/-- Behind an import the walk is back outside of clauses. -/
theorem readImport (h : walk.place.isInClause = false) :
    walk.SparesClause (walk.readImport home here next) := by
  have hPackage : ∀ change : Findings → Findings,
      (∀ found, (change found).genericClause = found.genericClause) →
      walk.SparesClause (if isNext next .scope then walk.collect change else walk) := by
    intro change hChange
    split
    · exact ⟨hChange walk.found, h⟩
    · exact refl h
  rw [Walk.readImport]
  split
  · exact resume walk home
  · exact hPackage _ fun _ => rfl
  · exact hPackage _ fun _ => rfl
  · exact refl h

theorem readSkippedBlock (h : walk.place.isInClause = false) :
    walk.SparesClause (walk.readSkippedBlock word home here) := by
  rw [Walk.readSkippedBlock]
  split
  · exact resume walk home
  · exact refl h

/-- What is passed over can open no clause. -/
theorem readSkipped (h : walk.place.isInClause = false) :
    walk.SparesClause (walk.readSkipped depth here) := by
  rw [Walk.readSkipped]
  split
  · exact goto rfl
  split
  · exact goto rfl
  split
  · exact backToBody walk
  · exact refl h

/-- The choice of a case changes a condition only. -/
theorem readChoice : walk.SparesClause (walk.readChoice depth expr here) := by
  unfold Walk.readChoice
  dsimp only
  split
  · exact ⟨rfl, rfl⟩
  split
  · exact goto rfl
  split <;> exact goto rfl

theorem beginAlways : walk.SparesClause (walk.beginAlways word here) := by
  unfold Walk.beginAlways
  split <;> exact goto rfl

/-- No item of a body opens a parameter list: the hash of an instance is read elsewhere. -/
theorem readItem (h : walk.place.isInClause = false) :
    walk.SparesClause (walk.readItem here next) := by
  have hEnd := (Idles.closeBlock walk).trans (.expectLabel _ false next)
  have hBegin : walk.Idles { walk with blocks := walk.blocks + 1 } := ⟨rfl, rfl⟩
  rw [Walk.readItem]
  split
  · exact readChoice
  split
  · exact of_idles (.endItem walk) h
  · unfold Walk.readItemKeyword
    split
    case h_1 => exact of_idles (hBegin.trans (.expectLabel _ true next)) h
    case h_2 => exact of_idles hEnd h
    case h_3 => exact of_idles (.closeCase walk) h
    case h_24 => exact of_idles (.readElse walk next) h
    case h_25 =>
      split
      · exact readDeclaration
      · exact goto rfl
    all_goals first
      | with_reducible exact beginAlways
      | exact goto rfl
      | exact readDeclaration
      | exact ⟨rfl, rfl⟩
      | exact ⟨rfl, h⟩
  · exact goto rfl
  · exact goto rfl

/-- A generate header is collected for a condition, not for a clause. -/
theorem readGenerate (h : walk.place.isInClause = false) :
    walk.SparesClause (walk.readGenerate kind depth expr here next) := by
  unfold Walk.readGenerate
  dsimp only
  split
  · exact goto rfl
  split
  · exact goto rfl
  split
  · exact ⟨congrArg Findings.genericClause (Idles.enterGenerate walk kind expr.text next).found,
      rfl⟩
  split
  · exact goto rfl
  split
  · exact goto rfl
  · exact refl h

/-- Parameters of an instance are passed over, or the statement turns into a declaration. -/
theorem readInstance (h : walk.place.isInClause = false) :
    walk.SparesClause (walk.readInstance statement depth here) := by
  unfold Walk.readInstance
  dsimp only
  split
  · split
    · exact goto rfl
    · exact goto rfl
    · exact refl h
  split
  case h_3 => split <;> exact goto rfl
  case h_9 => exact backToBody walk
  case h_10 =>
    unfold readInstanceName
    dsimp only
    split
    · exact goto rfl
    split
    · exact goto rfl
    · exact refl h
  all_goals first
    | exact goto rfl
    | exact readDeclaration
    | exact ⟨rfl, rfl⟩

/-- The connections of an instance are passed over. -/
theorem readMap (h : walk.place.isInClause = false) :
    walk.SparesClause (walk.readMap statement depth here) := by
  unfold Walk.readMap
  split
  · exact goto rfl
  split
  · exact goto rfl
  split
  · exact goto rfl
  · exact backToBody walk
  · exact refl h

/-- An event control changes the block that is open. -/
theorem readSensitivity (h : walk.place.isInClause = false) :
    walk.SparesClause (walk.readSensitivity process depth here) := by
  unfold Walk.readSensitivity
  dsimp only
  split
  · exact goto rfl
  · split <;> exact goto rfl
  · split <;> exact goto rfl
  · exact goto rfl
  · exact goto rfl
  · split <;> exact goto rfl
  · exact refl h

/-- The end of a block leaves clauses alone. -/
theorem endStatement : walk.SparesClause (walk.endStatement clocked block here next) := by
  rw [Walk.endStatement]
  split
  · exact goto rfl
  split
  · exact ⟨(backToBody _).clause, (backToBody _).place⟩
  · exact backToBody walk

/-- An assignment changes roles, and what is recorded of clocked signals. -/
theorem readAssignment (nonBlocking : Bool) :
    walk.SparesClause (walk.readAssignment clocked block nonBlocking) := by
  have hRecord : ∀ (words : List Word) (conditions : List String) (found : Findings),
      (words.foldl (recordClocked · · conditions) found).genericClause = found.genericClause := by
    intro words conditions found
    induction words generalizing found with
    | nil => rfl
    | cons word words ih => exact ih _
  unfold Walk.readAssignment
  dsimp only
  split
  · exact goto rfl
  · exact goto rfl
  · split
    · exact ⟨hRecord _ _ _, rfl⟩
    · exact goto rfl

/-- No statement of an always block touches a clause. -/
theorem readBlock : walk.SparesClause (walk.readBlock clocked block here next) := by
  have hStay : ∀ other recorded, walk.SparesClause
      ((walk.goto (.alwaysBlock clocked other)).expectLabel recorded next) := fun other recorded =>
    (goto rfl).trans
      (of_idles (.expectLabel (walk.goto (.alwaysBlock clocked other)) recorded next) rfl)
  unfold Walk.readBlock
  dsimp only
  split
  · exact goto rfl
  split
  · exact goto rfl
  split
  · exact goto rfl
  split
  case h_1 =>
    split
    · exact endStatement
    · exact goto rfl
  case h_2 =>
    unfold readBlockKeyword
    dsimp only
    repeat' split
    all_goals first
      | exact goto rfl
      | exact endStatement
      | exact hStay _ _
  case h_4 => split <;> exact goto rfl
  case h_5 => exact readAssignment true
  case h_6 => exact readAssignment false
  all_goals exact goto rfl

theorem readAlwaysHeader : walk.SparesClause (walk.readAlwaysHeader process here next) := by
  rw [Walk.readAlwaysHeader]
  split
  · exact goto rfl
  · exact readBlock

end SparesClause

end Walk

/-- What the event hands to a walk begins and ends at places of a kind. -/
def Event.StandsAt (S : Nat → Prop) : Event → Prop
  | .word here _ => S here.span.start ∧ S here.span.stop
  | .ended offset => S offset
  | _ => True

namespace Walk

variable {S : Nat → Prop} {T : Span → Prop} {walk other : Walk} {here : Lexeme}
  {next : Option Lexeme} {owner : Owner} {item : Item} {events : List Event} {inside offset : Nat}

/-- An open parameter list began at a place of a kind, and the clause that is recorded is of a kind
of ranges. -/
structure HoldsClause (S : Nat → Prop) (T : Span → Prop) (walk : Walk) : Prop where
  opened : ∀ owner inside item, walk.place = .parameterList owner inside item → S inside
  clause : ∀ span ∈ walk.found.genericClause, T span

namespace HoldsClause

/-- Outside of clauses only the recorded one is to be held. -/
theorem of_outside (h : walk.place.isInClause = false)
    (hClause : ∀ span ∈ walk.found.genericClause, T span) :
    walk.HoldsClause S T := by
  refine ⟨fun owner inside item hPlace => ?_, hClause⟩
  rw [hPlace] at h
  cases h

theorem spared (h : walk.HoldsClause S T) (hSpares : walk.SparesClause other) :
    other.HoldsClause S T :=
  of_outside hSpares.place (hSpares.clause ▸ h.clause)

theorem closeParameters (hT : ∀ {start stop}, S start → S stop → T ⟨start, stop⟩)
    (hInside : S inside) (hOffset : S offset) :
    (walk.closeParameters owner inside offset).HoldsClause S T := by
  refine of_outside (SparesClause.ownerPlace owner) fun span hSpan => ?_
  obtain rfl := Option.some.inj hSpan
  exact hT hInside hOffset

/-- A list that stays open keeps the offset its inside starts at. -/
theorem keepOpen (h : walk.HoldsClause S T) (hInside : S inside) :
    (walk.goto (.parameterList owner inside item)).HoldsClause S T := by
  refine ⟨fun _ _ _ hPlace => ?_, h.clause⟩
  cases hPlace
  exact hInside

theorem flush (h : walk.HoldsClause S T) (item : Item) : (walk.flush item).HoldsClause S T :=
  ⟨h.opened, (walk.genericClause_flush item).1 ▸ h.clause⟩

/-- A list that closes gives the clause from behind its opening parenthesis to its closing one;
until then the inside is kept. -/
theorem readParameters (h : walk.HoldsClause S T)
    (hT : ∀ {start stop}, S start → S stop → T ⟨start, stop⟩) (hInside : S inside)
    (hHere : S here.span.start) :
    (walk.readParameters owner inside item here).HoldsClause S T := by
  rw [Walk.readParameters]
  split
  · exact h.keepOpen hInside
  · exact (h.flush item).keepOpen hInside
  · exact (h.flush item).keepOpen hInside
  · exact closeParameters hT hInside hHere

/-- A parameter list opens behind its parenthesis, so that its inside begins where that word
ends. -/
theorem readModuleHeader {announced : Bool} (h : walk.HoldsClause S T) (hHere : S here.span.stop)
    (hPlace : walk.place.isInClause = false) :
    (walk.readModuleHeader announced here).HoldsClause S T := by
  rw [Walk.readModuleHeader]
  split
  · exact h.spared (.goto rfl)
  · split
    · exact h.keepOpen hHere
    · exact h.spared (.goto rfl)
  · exact h.spared ⟨(SparesClause.backToBody _).clause, (SparesClause.backToBody _).place⟩
  · exact h.spared (.goto rfl)
  · exact h.spared (.refl hPlace)

/-- A clause comes from the words that open and close its list, and other words leave it alone. -/
theorem read (h : walk.HoldsClause S T) (hT : ∀ {start stop}, S start → S stop → T ⟨start, stop⟩)
    (hHere : S here.span.start ∧ S here.span.stop) : (walk.read here next).HoldsClause S T := by
  rw [Walk.read]
  cases hPlace : walk.place with
  | moduleContext => exact h.spared (.readContext (hPlace ▸ rfl))
  | moduleName => exact h.spared (.readModuleName (hPlace ▸ rfl))
  | moduleHeader announced => exact h.readModuleHeader hHere.2 (hPlace ▸ rfl)
  | parameterList owner inside item => exact h.readParameters hT (h.opened _ _ _ hPlace) hHere.1
  | portList owner item => exact h.spared .readPorts
  | moduleBody => exact h.spared (.readItem (hPlace ▸ rfl))
  | declaration item => exact h.spared .readDeclaration
  | importClause home => exact h.spared (.readImport (hPlace ▸ rfl))
  | instanceHeader statement depth => exact h.spared (.readInstance (hPlace ▸ rfl))
  | instanceMap statement depth => exact h.spared (.readMap (hPlace ▸ rfl))
  | generateHeader kind depth expr => exact h.spared (.readGenerate (hPlace ▸ rfl))
  | generateChoice depth expr => exact h.spared .readChoice
  | alwaysHeader process => exact h.spared .readAlwaysHeader
  | sensitivityList process depth => exact h.spared (.readSensitivity (hPlace ▸ rfl))
  | alwaysBlock clocked block => exact h.spared .readBlock
  | skipStatement depth => exact h.spared (.readSkipped (hPlace ▸ rfl))
  | skipBlock closer home => exact h.spared (.readSkippedBlock (hPlace ▸ rfl))

/-- What holds of the ends of words holds of the ends of the clause, which are taken from them. -/
theorem readWord (h : walk.HoldsClause S T)
    (hT : ∀ {start stop}, S start → S stop → T ⟨start, stop⟩)
    (hHere : S here.span.start ∧ S here.span.stop) : (walk.readWord here next).HoldsClause S T := by
  rw [Walk.readWord]
  split
  · next labelled hLabel =>
    rw [readLabel?] at hLabel
    split at hLabel
    · cases hLabel
    · split at hLabel <;> cases hLabel
      exact ⟨h.opened, h.clause⟩
    · split at hLabel <;> cases hLabel
      split <;> exact ⟨h.opened, h.clause⟩
  · exact read ⟨h.opened, h.clause⟩ hT hHere

/-- A list that is still open at the end of the text gives a clause that ends there. -/
theorem flushAt (h : walk.HoldsClause S T) (hT : ∀ {start stop}, S start → S stop → T ⟨start, stop⟩)
    (hOffset : S offset) : (walk.flushAt offset).HoldsClause S T := by
  rw [Walk.flushAt]
  split
  · next hPlace => exact closeParameters hT (h.opened _ _ _ hPlace) hOffset
  · exact (h.flush _).spared (.goto (SparesClause.ownerPlace _))
  · exact (h.flush _).spared (.goto rfl)
  · exact h

/-- Blanks and strings are offered to expressions and open no clause. -/
theorem absorb (h : walk.HoldsClause S T) (token : Token) :
    ({ walk with place := walk.place.absorb token } : Walk).HoldsClause S T := by
  refine ⟨fun owner inside item hPlace => ?_, h.clause⟩
  cases hHere : walk.place with
  | parameterList owner' inside' item' =>
      rw [hHere] at hPlace
      cases hPlace
      exact h.opened _ _ _ hHere
  | _ =>
      rw [hHere] at hPlace
      cases hPlace

/-- So every event keeps what is known of the clause, if it is known of where the event stands. -/
theorem step (h : walk.HoldsClause S T) (hT : ∀ {start stop}, S start → S stop → T ⟨start, stop⟩)
    {event : Event} (hEvent : event.StandsAt S) : (walk.step event).HoldsClause S T := by
  cases event with
  | comment span => exact h
  | directive span => exact h
  | filler token => exact h.absorb token
  | word here next => exact h.readWord hT hEvent
  | ended offset => exact h.flushAt hT hEvent

/-- Over a run what is known of all offsets of events is known of the clause. -/
theorem run (h : walk.HoldsClause S T) (hT : ∀ {start stop}, S start → S stop → T ⟨start, stop⟩)
    (hEvents : ∀ event ∈ events, event.StandsAt S) : (walk.run events).HoldsClause S T := by
  induction events generalizing walk with
  | nil => exact h
  | cons event events ih =>
      rw [List.forall_mem_cons] at hEvents
      exact ih (h.step hT hEvents.1) hEvents.2

theorem finish (h : walk.HoldsClause S T) (hT : ∀ {start stop}, S start → S stop → T ⟨start, stop⟩)
    (hSize : S offset) : ∀ span ∈ (walk.finish offset).found.genericClause, T span := by
  have hFlushed := (h.flushAt hT hSize).clause
  exact finish_of_flushAt (P := fun walk => ∀ span ∈ walk.found.genericClause, T span) hFlushed
    fun _ _ => hFlushed

/-- A text that is scanned as a list is inside of it from zero on. -/
theorem start (region : Region) (hZero : S 0) : (Walk.start region).HoldsClause S T := by
  refine ⟨fun owner inside item hPlace => ?_, ?_⟩
  · cases region <;> cases hPlace
    exact hZero
  · cases region <;> simp [Walk.start, Place.ofEntry?]

end HoldsClause

end Walk

/-- Where something is inserted and no parameter list is open, the clause lies in front of it or
behind. -/
theorem IsInserted.clause_isBeside {region : Region} {pre piece post : String}
    {first inner rest : List Token} (h : IsInserted region pre piece post first inner rest)
    (hPlace : ((Walk.start region).run (Reader.emittedOver {} first
      (shift (pre.utf8ByteSize + 1) rest))).place.isInClause = false) :
    ∀ span ∈ (walkThrough region (gapped pre post first rest)
      (pre.utf8ByteSize + 1 + post.utf8ByteSize)).found.genericClause, span.IsBeside pre := by
  set bound := pre.utf8ByteSize
  set far := shift (bound + 1) rest
  have hFirst : ∀ token ∈ first, token.span.start ≤ bound ∧ token.span.stop ≤ bound := by
    intro token hToken
    have hStop := h.front.stop_le_of_mem hToken
    exact ⟨(h.front.le_of_mem hToken).2.trans hStop, hStop⟩
  have hFar : ∀ token ∈ far, bound + 1 ≤ token.span.start ∧ bound + 1 ≤ token.span.stop := by
    intro token hToken
    obtain ⟨hStart, hOrder⟩ := h.back_gapped.le_of_mem hToken
    exact ⟨hStart, hStart.trans hOrder⟩
  have hStart : (Walk.start region).HoldsClause (· ≤ bound)
      (fun span => span.start ≤ bound ∧ span.stop ≤ bound) := .start region (Nat.zero_le _)
  have hFront := (hStart.run And.intro (Reader.emittedOver_forall (fun _ => ⟨trivial, trivial⟩)
    (fun token hToken => ⟨trivial, (hFirst token hToken).1, fun _ => hFirst token hToken⟩) {}
      far)).clause
  -- From here on a list opens behind the gap, and so its clause does not reach back across it.
  have hMiddle : ((Walk.start region).run (Reader.emittedOver {} first far)).HoldsClause
      (bound + 1 ≤ ·)
      (·.IsBeside pre) := .of_outside hPlace fun span hSpan => .inl (hFront span hSpan)
  have hBehind := hMiddle.run (fun hStart hStop => .inr ⟨hStart, hStop⟩)
    (Reader.upcoming_forall (fun _ => ⟨trivial, trivial⟩)
      (fun token hToken => ⟨trivial, (hFar token hToken).1, fun _ => hFar token hToken⟩)
      (bound + 1 + post.utf8ByteSize) (Reader.readOver {} first far))
  rw [walkThrough, gapped_eq, Walk.run_append]
  exact hBehind.finish (fun hStart hStop => .inr ⟨hStart, hStop⟩) (Nat.le_add_right _ _)

end HdlIndex.Verilog

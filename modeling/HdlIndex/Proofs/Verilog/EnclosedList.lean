import HdlIndex.Proofs.Token.Joined
import HdlIndex.Proofs.Verilog.LoneList
import HdlIndex.Proofs.Verilog.ReadingWords
import HdlIndex.Proofs.Verilog.RelaidTable
import HdlIndex.Proofs.Verilog.StatementWords
import HdlIndex.Proofs.Verilog.WordReading

/-! A header list by itself and in a module. The walk through the list does not ask what the list is
part of, nor for the word behind the one that it reads, until a parenthesis closes the list. There
the last item ends as it ends with the text of the list alone, so that both texts give one table. -/
namespace HdlIndex.Verilog

/-- The lists of a module's header. -/
inductive HeaderList where
  | parameters
  | ports
deriving DecidableEq, Repr

/-- The region of a text that is nothing but the list. -/
def HeaderList.region : HeaderList → Region
  | parameters => .parameterList
  | ports => .portList

/-- What the names of the list are recorded as. -/
def HeaderList.kind : HeaderList → ItemKind
  | parameters => .parameterPort
  | ports => .port

/-- A place in the list, of which the inside begins at a byte offset. -/
def HeaderList.place (list : HeaderList) (owner : Owner) (inside : Nat) (item : Item) : Place :=
  match list with
  | parameters => .parameterList owner inside item
  | ports => .portList owner item

/-- Leaves the list, of which the inside ends at a byte offset. -/
def HeaderList.close (list : HeaderList) (inside offset : Nat) (found : Findings) : Findings :=
  match list with
  | parameters => { found with genericClause := some ⟨inside, offset⟩ }
  | ports => found

/-- No bracket is open in the item. -/
def Item.isOutside (item : Item) : Bool :=
  match item.part with
  | .head => true
  | .range _ => false
  | .value depth => depth = 0

/-- The place is in a list that is the whole text, and outside of the brackets in it. -/
def Place.endsList : Place → Bool
  | .parameterList owner _ item | .portList owner item => owner = .text && item.isOutside
  | _ => false

/-- The walk behind the words of a text, in front of its end. -/
def walkInside (region : Region) (text : String) : Walk :=
  (Walk.start region).run (Reader.readAll {} (tokens none text).proper).events.toList

/-- The text ends inside of the list that it begins in, outside of comments, strings and directives,
and with no bracket open. -/
structure EndsInList (region : Region) (text : String) : Prop where
  code : (Reader.readAll {} (tokens none text).proper).mode = .code
  place : (walkInside region text).place.endsList = true

instance (region : Region) (text : String) : Decidable (EndsInList region text) :=
  decidable_of_iff (_ ∧ _) ⟨fun ⟨code, place⟩ => ⟨code, place⟩, fun ⟨code, place⟩ => ⟨code, place⟩⟩

/-- The event without the word behind it. -/
def Event.bare : Event → Event
  | .word here _ => .word here none
  | event => event

section Walking

variable {walk walk' : Walk} {list : HeaderList} {owner : Owner} {inside : Nat} {item : Item}
  {here : Lexeme} {next : Option Lexeme} {modules : Words} {event event' : Event}
  {events events' : List Event}

/-- Both kinds of list are read by one reader of items: it goes on with the item, records its name,
or closes the list. -/
theorem Walk.read_list (hPlace : walk.place = list.place owner inside item) :
    walk.read here next =
      match item.read here with
      | .stay item => walk.goto (list.place owner inside item)
      | .next | .done => (walk.flush item).goto (list.place owner inside item.afterName)
      | .close =>
        ((walk.flush item).collect (list.close inside here.span.start)).goto owner.place := by
  rw [read, hPlace]
  cases list <;> rfl

/-- At the end of the text a list is closed as its parenthesis would close it. -/
theorem Walk.flushAt_list (hPlace : walk.place = list.place owner inside item) (offset : Nat) :
    walk.flushAt offset =
      ((walk.flush item).collect (list.close inside offset)).goto owner.place := by
  rw [flushAt, hPlace]
  cases list <;> rfl

/-- A word that belongs to an item does not make it one of another kind. -/
theorem Item.kind_read {other : Item} (h : item.read here = .stay other) :
    other.kind = item.kind := by
  have hName : (item.pushName here).kind = item.kind := by
    rw [pushName]
    repeat' split
    all_goals rfl
  unfold read readHead readRange readValue at h
  dsimp only at h
  repeat' split at h
  all_goals cases h
  all_goals first
    | rfl
    | exact hName

/-- Outside of its brackets, an item is ended by the parenthesis that closes the list. -/
theorem Item.read_endOfList (hKind : item.kind.isList = true) (hOutside : item.isOutside = true)
    (hSymbol : here.symbol = .parenClose) : item.read here = .close := by
  rw [isOutside] at hOutside
  rw [read]
  cases hPart : item.part with
  | head => simp [readHead, hSymbol, hKind]
  | range depth =>
      rw [hPart] at hOutside
      cases hOutside
  | value depth =>
      rw [hPart, decide_eq_true_eq] at hOutside
      simp [readValue, hSymbol, hKind, hOutside]

/-- What an item declares has nothing to do with the modules that were found. -/
theorem Walk.declare_modules (found : Findings) (item : Item) (modules : Words) :
    declare { found with modules } item = { declare found item with modules } := by
  unfold declare declarePort declareNet
  dsimp only
  repeat' split
  all_goals rfl

theorem HeaderList.close_modules (inside offset : Nat) (found : Findings) (modules : Words) :
    list.close inside offset { found with modules } =
      { list.close inside offset found with modules } := by
  cases list <;> rfl

/-- Without the word behind it, a word of a list is read alike. -/
theorem Walk.step_bare (hAlone : walk.place.isAlone = true) (hBare : event'.bare = event.bare) :
    walk.step event' = walk.step event := by
  cases event <;> cases event' <;> cases hBare
  case word.word here next next' =>
    rw [step, step, readWord, readWord]
    split
    · rfl
    · have hRead : ∀ {other : Walk}, other.place = walk.place →
          other.read here next' = other.read here next := by
        intro other hPlace
        rw [read, read, hPlace]
        cases hCase : walk.place <;> rw [hCase] at hAlone <;> first
          | rfl
          | cases hAlone
      exact hRead rfl
  all_goals rfl

/-- So are the words of a list that is open at their end. -/
theorem Walk.run_bare (hAlone : (walk.run events).place.isAlone = true)
    (hBare : events'.map Event.bare = events.map Event.bare) :
    walk.run events' = walk.run events := by
  induction events generalizing walk events' with
  | nil =>
      obtain rfl : events' = [] := by simpa using hBare
      rfl
  | cons event events ih =>
      cases events' with
      | nil => cases hBare
      | cons event' events' =>
          obtain ⟨hFirst, hRest⟩ := List.cons_eq_cons.1 hBare
          have hHere : walk.place.isAlone = true := by
            by_contra hLeft
            have hEnd := isAlone_run (Bool.not_eq_true _ ▸ hLeft) (event :: events)
            cases hEnd.symm.trans hAlone
          have hSame : (walk.step event).run events' = (walk.step event).run events :=
            ih hAlone hRest
          rw [run, List.foldl_cons, step_bare hHere hFirst]
          exact hSame

/-- The first walk stands in a list that is the whole text, and the second one at the same place of
a module's list. -/
structure Walk.IsLent (list : HeaderList) (inside : Nat) (modules : Words) (walk walk' : Walk) :
    Prop where
  place : ∃ item, item.kind.isList = true ∧ walk.place = list.place .text inside item ∧
    walk'.place = list.place .module inside item
  label : walk.label = .idle ∧ walk'.label = .idle
  frames : walk'.frames = []
  found : walk'.found = { walk.found with modules }

namespace Walk.IsLent

/-- Inside of the list both walks do the same to its item, and what they find differs by the module
alone. -/
theorem read (h : walk.IsLent list inside modules walk')
    (hAlone : (walk.read here next).place.isAlone = true) :
    (walk.read here next).IsLent list inside modules (walk'.read here next) := by
  obtain ⟨item, hKind, hPlace, hPlace'⟩ := h.place
  have hFlush : (walk'.flush item).found = { (walk.flush item).found with modules } := by
    rw [flush, collect, h.found]
    exact declare_modules walk.found item modules
  rw [read_list hPlace] at hAlone ⊢
  rw [read_list hPlace']
  cases hRead : item.read here with
  | stay next =>
      exact ⟨⟨next, Item.kind_read hRead ▸ hKind, rfl, rfl⟩, h.label, h.frames, h.found⟩
  | next => exact ⟨⟨item.afterName, hKind, rfl, rfl⟩, h.label, h.frames, hFlush⟩
  | done => exact ⟨⟨item.afterName, hKind, rfl, rfl⟩, h.label, h.frames, hFlush⟩
  | close =>
      rw [hRead] at hAlone
      cases hAlone

/-- As long as the list is open, both walks take the same words. -/
theorem step (h : walk.IsLent list inside modules walk')
    (hAlone : (walk.step event).place.isAlone = true) :
    (walk.step event).IsLent list inside modules (walk'.step event) := by
  cases event with
  | comment span => exact h
  | directive span => exact h
  | filler token =>
      obtain ⟨item, hKind, hPlace, hPlace'⟩ := h.place
      refine ⟨⟨{ item with expr := item.expr.absorb token }, hKind, ?_, ?_⟩, h.label,
        h.frames, h.found⟩
      · rw [Walk.step, hPlace]
        cases list <;> rfl
      · rw [Walk.step, hPlace']
        cases list <;> rfl
  | word here next =>
      rw [Walk.step, readWord, readLabel?, h.label.1] at hAlone ⊢
      rw [Walk.step, readWord, readLabel?, h.label.2]
      exact IsLent.read ⟨h.place, ⟨rfl, rfl⟩, h.frames, h.found⟩ hAlone
  | ended offset =>
      have hLeft := isAlone_flushAt walk offset
      cases hLeft.symm.trans hAlone

/-- A list that is open at the end of the events was open all the way. -/
theorem run (h : walk.IsLent list inside modules walk')
    (hAlone : (walk.run events).place.isAlone = true) :
    (walk.run events).IsLent list inside modules (walk'.run events) := by
  induction events generalizing walk walk' with
  | nil => exact h
  | cons event events ih =>
      have hHere : (walk.step event).place.isAlone = true := by
        by_contra hLeft
        have hEnd := isAlone_run (Bool.not_eq_true _ ▸ hLeft) events
        cases hEnd.symm.trans hAlone
      have hEnd : ((walk.step event).run events).IsLent list inside modules
          ((walk'.step event).run events) := ih (h.step hHere) hAlone
      exact hEnd

end Walk.IsLent

end Walking

section Reading

variable {reader : Reader} {token : Token} {tokens inner rest rest' : List Token} {move : Nat → Nat}

/-- What is behind a text is seen by none but its words. -/
theorem Reader.emittedOver_bare (reader : Reader) (tokens rest rest' : List Token) :
    (reader.emittedOver tokens rest').map Event.bare =
      (reader.emittedOver tokens rest).map Event.bare := by
  induction tokens generalizing reader with
  | nil => rfl
  | cons token tokens ih =>
      have hForget : (reader.read token (tokens ++ rest')).forget =
          (reader.read token (tokens ++ rest)).forget :=
        reader.forget_readOver_ahead [token] (tokens ++ rest) (tokens ++ rest')
      have hHere : (reader.emitted token (tokens ++ rest')).map Event.bare =
          (reader.emitted token (tokens ++ rest)).map Event.bare := by
        rw [emitted, emitted, read, read]
        cases reader.forget.mode with
        | code =>
            dsimp only
            rw [readCode, readCode]
            repeat' split
            all_goals rfl
        | _ => rfl
      rw [emittedOver, emittedOver, List.map_append, List.map_append, hHere,
        isReader.emittedOver_eq, hForget, ← isReader.emittedOver_eq, ih]

/-- A plain token that is not blank is a word. -/
theorem Reader.read_word (hCode : reader.mode = .code) (hText : isPlainText token.text = true)
    (hBlank : token.isBlank = false) (rest : List Token) :
    let word :=
      Event.word (.ofToken token) ((Token.nextSignificant comments none rest).map .ofToken)
    reader.read token rest = ⟨.code, some token, reader.events.push word⟩ ∧
      reader.emitted token rest = [word] := by
  intro word
  have hRead : ∀ {reader : Reader}, reader.mode = .code →
      reader.read token rest = ⟨.code, some token, reader.events.push word⟩ := by
    intro reader hMode
    rw [read, hMode]
    dsimp only
    rw [readCode_of_isPlainText hText, hBlank, emit, hMode]
    rfl
  have hForget : reader.forget.mode = .code := hCode
  refine ⟨hRead hCode, ?_⟩
  rw [emitted, hRead hForget]
  rfl

/-- Plain tokens make events that the walk takes, whatever follows them. -/
theorem Reader.reads_emittedOver (hCode : reader.mode = .code)
    (hPlain : ∀ token ∈ tokens, isPlainText token.text = true) (rest : List Token) :
    (reader.readOver tokens rest).mode = .code ∧
      machine.Reads tokens (Token.nextSignificant comments none rest)
        (reader.emittedOver tokens rest) := by
  have hSame : ∀ reader : Reader, reader.readOver tokens rest = reader.readBefore rest tokens := by
    clear hPlain
    induction tokens with
    | nil => exact fun _ => rfl
    | cons token tokens ih => exact fun reader => ih _
  have hForget : reader.forget.mode = .code := hCode
  obtain ⟨hMode, -⟩ := reads_readBefore hCode hPlain rest
  obtain ⟨-, events, hReads, hEvents⟩ := reads_readBefore hForget hPlain rest
  refine ⟨(hSame reader).symm ▸ hMode, ?_⟩
  rw [isReader.emittedOver_eq, hSame, hEvents]
  exact hReads

/-- Tokens without text change no mode, and they are nothing to a walk. -/
theorem Walk.run_empties (walk : Walk) (hCode : reader.mode = .code)
    (hEmpty : ∀ token ∈ tokens, token.isEmpty = true) (rest : List Token) :
    (reader.readOver tokens rest).mode = .code ∧
    walk.run (reader.emittedOver tokens rest) = walk := by
  refine Reader.isReader.foldl_emittedOver (P := (·.mode = .code))
    (fun token hMem reader rest hCode => ?_) hCode
  have hText : token.text = "" := String.isEmpty_iff.1 (hEmpty token hMem)
  have hBlank : token.isBlank = true := by simp [Token.isBlank, hText]
  have hMode : (reader.readOver [token] rest).mode = reader.mode :=
    Reader.mode_readOver_gaps (by simp [hText])
  refine ⟨hMode.trans hCode, ?_⟩
  rw [Reader.emitted_blank hCode hBlank]
  exact Walk.step_empty (hEmpty token hMem)

/-- What is read of the inside of a list is read alike when the list is all of the text. -/
theorem Reader.readOver_enclosed (hReader : reader.mode = .code ∧ reader.isEscaped = false)
    (hRigid : ∀ token ∈ inner, TokenAll (·.IsRigid move) token) (rest : List Token) :
    (reader.readOver (inner.map (·.moved move)) rest).mode =
        (Reader.readOver {} inner []).mode.moved move ∧
      (reader.emittedOver (inner.map (·.moved move)) rest).map Event.bare =
        ((Reader.emittedOver {} inner []).map (·.moved move)).map Event.bare := by
  have hMatches : Matches move {} reader.forget := ⟨hReader.1, hReader.2, by simp [forget]⟩
  have hSees : Sees move (readOver {} inner []).mode [] [] := .nil move _
  constructor
  · have hAhead := congrArg Reader.mode
      (reader.forget.forget_readOver_ahead (inner.map (·.moved move)) [] rest)
    have hForget :=
      congrArg Reader.mode (isReader.forget_readOver reader (inner.map (·.moved move)) rest)
    exact (hForget.symm.trans hAhead).trans (hMatches.readOver hRigid hSees).mode
  · have hForget : reader.forget.forget = reader.forget := rfl
    rw [reader.emittedOver_bare _ [] rest, ← hMatches.emittedOver_eq hRigid hSees,
      isReader.emittedOver_eq, isReader.emittedOver_eq reader.forget, hForget]

end Reading

section Module

variable {list : HeaderList} {walk : Walk} {reader : Reader} {item : Item} {inside : Nat}

/-- What a module's text has in front of the list, with the parenthesis that opens it. -/
def HeaderList.lead : HeaderList → String
  | parameters => "module m #("
  | ports => "module m ("

/-- What a module's text has behind the parenthesis that closes the list. -/
def HeaderList.behind : HeaderList → String
  | parameters => " (); endmodule"
  | ports => "; endmodule"

/-- The module of that text. -/
def HeaderList.modules : Words := ⟨#[⟨"m", ⟨7, 8⟩⟩]⟩

/-- The walk and the reader in front of the list. -/
theorem HeaderList.opens (list : HeaderList) (rest : List Token) :
    let reader := Reader.readOver {} (tokens none list.lead).proper rest
    let walk := (Walk.start .moduleContext).run
      (Reader.emittedOver {} (tokens none list.lead).proper rest)
    (reader.mode = .code ∧ reader.isEscaped = false) ∧
      walk.place = list.place .module list.lead.utf8ByteSize { kind := list.kind } ∧
      walk.label = .idle ∧ walk.frames = [] ∧ walk.found = { modules } := by
  cases list with
  | parameters =>
      have hTokens : (tokens none (lead parameters)).proper =
          [⟨"module", ⟨0, 6⟩⟩, ⟨" ", ⟨6, 7⟩⟩, ⟨"m", ⟨7, 8⟩⟩, ⟨" ", ⟨8, 9⟩⟩, ⟨"", ⟨9, 9⟩⟩,
            ⟨"#", ⟨9, 10⟩⟩, ⟨"", ⟨10, 10⟩⟩, ⟨"(", ⟨10, 11⟩⟩] := by
        decide +kernel
      rw [hTokens]
      exact ⟨⟨rfl, rfl⟩, rfl, rfl, rfl, rfl⟩
  | ports =>
      have hTokens : (tokens none (lead ports)).proper =
          [⟨"module", ⟨0, 6⟩⟩, ⟨" ", ⟨6, 7⟩⟩, ⟨"m", ⟨7, 8⟩⟩, ⟨" ", ⟨8, 9⟩⟩, ⟨"", ⟨9, 9⟩⟩,
            ⟨"(", ⟨9, 10⟩⟩] := by
        decide +kernel
      rw [hTokens]
      exact ⟨⟨rfl, rfl⟩, rfl, rfl, rfl, rfl⟩

/-- A module's header and the module end without a declaration. -/
theorem Walk.leads_moduleEnd {base : Walk} (hFrames : base.frames = []) (semicolon endmodule : Span)
    (after : Option Token) :
    machine.LeadsThrough [⟨";", semicolon⟩, ⟨"endmodule", endmodule⟩] after
      (base.Stands (.moduleHeader false))
      fun walk => walk.place = .moduleContext ∧ walk.found = base.found := by
  have hBody : machine.LeadsThrough [⟨"endmodule", endmodule⟩] after
      (Stands { base with blocks := 0 } .moduleBody)
      fun walk => walk.place = .moduleContext ∧ walk.found = base.found := by
    obtain ⟨place, frames, bases, blocks, pending, chained, label, found, notes⟩ := base
    obtain rfl : frames = [] := hFrames
    refine Stands.leads (fun _ _ => rfl) (fun _ => ?_) (.nil ?_)
    · exact ⟨rfl, rfl⟩
    · rintro token walk - ⟨hPlace, hFound⟩
      refine ⟨?_, hFound⟩
      show walk.place.absorb token = _
      rw [hPlace]
      rfl
  obtain ⟨place, frames, bases, blocks, pending, chained, label, found, notes⟩ := base
  obtain rfl : frames = [] := hFrames
  exact Stands.leads (fun _ _ => rfl) (fun notes => ⟨_, rfl⟩) hBody

/-- So does an empty port list. -/
theorem Walk.leads_emptyPorts {base : Walk} (opener closer : Span) {words : List Token}
    {after : Option Token} {Q : Walk → Prop}
    (h : machine.LeadsThrough words after (base.Stands (.moduleHeader false)) Q) :
    machine.LeadsThrough (⟨"(", opener⟩ :: ⟨")", closer⟩ :: words) after
      (base.Stands (.moduleHeader false)) Q := by
  have hPorts : machine.LeadsThrough (⟨")", closer⟩ :: words) after
      (base.Stands (.portList .module { kind := .port })) Q :=
    Stands.leads (fun _ _ => rfl) (fun _ => ⟨_, rfl⟩) h
  exact Stands.leads (fun _ _ => rfl) (fun _ => ⟨_, rfl⟩) hPorts

theorem significant_moved (move : Nat → Nat) (tokens : List Token) :
    significant (tokens.map (·.moved move)) = (significant tokens).map (·.moved move) := by
  rw [significant, significant, List.filter_map]
  rfl

/-- The rest of a module behind its list: the tokens in front of the sentinel, and where they
lead. -/
theorem HeaderList.leads_behind (list : HeaderList) (hFrames : walk.frames = [])
    (move : Nat → Nat) : ∃ front stop, (tokens none list.behind).list = front ++ [.sentinel stop] ∧
      (∀ token ∈ front, isPlainText token.text = true) ∧
      ∀ after, machine.LeadsThrough ((significant front).map (·.moved move)) after
        (walk.Stands (.moduleHeader false))
        fun behind => behind.place = .moduleContext ∧ behind.found = walk.found := by
  cases list with
  | parameters =>
      have hWords : significant (tokens none (behind parameters)).proper =
          [⟨"(", ⟨1, 2⟩⟩, ⟨")", ⟨2, 3⟩⟩, ⟨";", ⟨3, 4⟩⟩, ⟨"endmodule", ⟨5, 14⟩⟩] := by decide +kernel
      refine ⟨(tokens none (behind parameters)).proper, 14, by decide +kernel, by decide +kernel,
        fun after => ?_⟩
      rw [hWords]
      exact Walk.leads_emptyPorts _ _ (Walk.leads_moduleEnd hFrames _ _ after)
  | ports =>
      have hWords : significant (tokens none (behind ports)).proper =
          [⟨";", ⟨0, 1⟩⟩, ⟨"endmodule", ⟨2, 11⟩⟩] := by decide +kernel
      refine ⟨(tokens none (behind ports)).proper, 11, by decide +kernel, by decide +kernel,
        fun after => ?_⟩
      rw [hWords]
      exact Walk.leads_moduleEnd hFrames _ _ after

/-- So it declares nothing. -/
theorem HeaderList.found_behind (list : HeaderList) (hCode : reader.mode = .code)
    (hPlace : walk.place = .moduleHeader false) (hLabel : walk.label = .idle)
    (hFrames : walk.frames = []) (move : Nat → Nat) (size : Nat) :
    ((walk.run (reader.upcoming size ((tokens none list.behind).list.map (·.moved move)))).finish
      size).found = walk.found := by
  obtain ⟨front, stop, hList, hPlain, hLeads⟩ := list.leads_behind hFrames move
  have hMoved : ∀ token ∈ front.map (·.moved move), isPlainText token.text = true := by
    rw [List.forall_mem_map]
    exact hPlain
  obtain ⟨hMode, hReads⟩ := Reader.reads_emittedOver hCode hMoved [.sentinel (move stop)]
  have hStands : walk.Stands (.moduleHeader false) walk := by
    refine ⟨walk.notes, ?_⟩
    rw [← hPlace, ← hLabel]
  obtain ⟨hContext, hFound⟩ := hLeads _ _ (significant_moved move front) _ walk hReads hStands
  have hEnd : (tokens none list.behind).list.map (·.moved move) =
      front.map (·.moved move) ++ [.sentinel (move stop)] := by
    rw [hList, List.map_append]
    rfl
  rw [hEnd, Reader.isReader.upcoming_append, Reader.upcoming_sentinel hMode, Walk.run_append]
  change (walk.run _).place = .moduleContext at hContext
  change (walk.run _).found = walk.found at hFound
  generalize walk.run _ = behind at hContext hFound
  have hRun : behind.run [.ended (move stop)] = behind := Walk.flushAt_context hContext _
  rw [hRun, Walk.finish_context hContext, hFound]

/-- The parenthesis behind the last item ends it. -/
theorem HeaderList.found_close (list : HeaderList) (hCode : reader.mode = .code)
    (hPlace : walk.place = list.place .module inside item) (hKind : item.kind.isList = true)
    (hOutside : item.isOutside = true) (hLabel : walk.label = .idle) (hFrames : walk.frames = [])
    (move : Nat → Nat) (span : Span) (size : Nat) :
    ((walk.run (reader.upcoming size
        (⟨")", span⟩ :: (tokens none list.behind).list.map (·.moved move)))).finish size).found =
      list.close inside span.start (walk.flush item).found := by
  set parenthesis : Token := ⟨")", span⟩ with hParenthesis
  have hPlain : isPlainText ")" = true := by decide +kernel
  have hBlank : parenthesis.isBlank = false := by
    simp [hParenthesis, Token.isBlank, Text.isAsciiBlank]
  set behind := (tokens none list.behind).list.map (·.moved move) with hBehind
  obtain ⟨hRead, hEmitted⟩ := Reader.read_word hCode hPlain hBlank behind
  set closed := walk.step (.word (.ofToken parenthesis)
    ((Token.nextSignificant comments none behind).map .ofToken)) with hClosed
  set before := ({ walk with label := .idle } : Walk).note
    (.visited walk.place.region.name (Lexeme.ofToken parenthesis).text) with hBefore
  have hClose : closed = ((before.flush item).collect (list.close inside span.start)).goto
      (.moduleHeader false) := by
    have hHere : before.place = list.place .module inside item := hPlace
    have hSymbol : (Lexeme.ofToken parenthesis).symbol = .parenClose := rfl
    rw [hClosed, Walk.step, Walk.readWord, Walk.readLabel?, hLabel]
    dsimp only
    rw [← hBefore, Walk.read_list hHere, Item.read_endOfList hKind hOutside hSymbol]
    rfl
  have hContext : closed.place = .moduleHeader false := hClose ▸ rfl
  have hIdle : closed.label = .idle := hClose ▸ rfl
  have hNone : closed.frames = [] := hClose ▸ hFrames
  have hFound : closed.found = list.close inside span.start (walk.flush item).found := hClose ▸ rfl
  rw [Reader.isReader.upcoming_eq, hEmitted, Walk.run_append, hRead, ← hFound]
  exact list.found_behind rfl hContext hIdle hNone move size

theorem delimiters_areMarks :
    Delimiter.IsMark delimiters '(' ∧ Delimiter.IsMark delimiters ')' := by
  decide

/-- Between its parentheses a list has the tokens that it has alone. -/
theorem HeaderList.list_enclosed (list : HeaderList) (text : String) : ∃ inner opened,
    SplitsUpTo delimiters 0 text.toList inner opened ∧
    ∀ stop, stop = list.lead.utf8ByteSize + text.utf8ByteSize →
      (tokens none (list.lead ++ text ++ (")" ++ list.behind))).list =
        (tokens none list.lead).proper ++
        (inner.map (·.moved (list.lead.utf8ByteSize + ·)) ++ (SplitsUpTo.bridge opened stop ++
          ⟨")", ⟨stop, stop + 1⟩⟩ ::
            (tokens none list.behind).list.map (·.moved (stop + 1 + ·)))) := by
  obtain ⟨hOpen, hClose⟩ := delimiters_areMarks
  obtain ⟨first, opensFirst, hFirst⟩ := SplitsUpTo.total delimiters 0 list.lead.toList
  obtain ⟨inner, opened, hInner⟩ := SplitsUpTo.total delimiters 0 text.toList
  obtain ⟨last, opensLast, hLast⟩ := SplitsUpTo.total delimiters 0 list.behind.toList
  have hBlank : .blank ∈ delimiters := by decide
  have hLead : list.lead.toList.getLast? = some '(' := by cases list <;> decide +kernel
  refine ⟨inner, opened, hInner, ?_⟩
  rintro _ rfl
  have hBoth := hFirst.enclosed hOpen hClose hBlank hLead (hInner.shifted _) (hLast.shifted _)
  have hWhole : (list.lead ++ text ++ (")" ++ list.behind)).toList =
      list.lead.toList ++ (text.toList ++ ')' :: list.behind.toList) := by
    simp [String.toList_append]
  have hSize : (list.lead ++ text ++ (")" ++ list.behind)).utf8ByteSize =
      list.lead.utf8ByteSize + text.utf8ByteSize + 1 + list.behind.utf8ByteSize := by
    simp [String.utf8ByteSize_append, Nat.add_assoc]
    rfl
  rw [← hWhole, String.utf8Len_toList, String.utf8Len_toList, Nat.zero_add] at hBoth
  rw [(list_tokens hBoth).1, hSize, proper_tokens hFirst, (list_tokens hLast).1]
  have hMark : Token.placed (list.lead.utf8ByteSize + text.utf8ByteSize) [')'] = ⟨")",
      ⟨list.lead.utf8ByteSize + text.utf8ByteSize,
        list.lead.utf8ByteSize + text.utf8ByteSize + 1⟩⟩ := rfl
  have hChar : ')'.utf8Size = 1 := rfl
  rw [hMark, hChar]
  simp [Token.sentinel, Token.moved, Span.moved, Span.empty]

end Module

section Tables

variable {list : HeaderList} {text : String} {inner : List Token} {opened : Bool}

/-- Where a list may end, nothing is open that only a module could have opened. -/
theorem Place.isAlone_of_endsList {place : Place} (h : place.endsList = true) :
    place.isAlone = true := by
  cases place with
  | parameterList owner inside item =>
      rw [endsList, Bool.and_eq_true] at h
      exact h.1
  | portList owner item =>
      rw [endsList, Bool.and_eq_true] at h
      exact h.1
  | _ => cases h

theorem Place.endsList_moved (move : Nat → Nat) (place : Place) :
    (place.moved move).endsList = place.endsList := by
  cases place <;> rfl

theorem HeaderList.endsList_place (list : HeaderList) (inside : Nat) (item : Item) :
    (list.place .text inside item).endsList = item.isOutside := by
  cases list <;> exact Bool.true_and _

theorem HeaderList.place_start (list : HeaderList) :
    Walk.start list.region = { place := list.place .text 0 { kind := list.kind } } := by
  cases list <;> rfl

/-- The events of a text in front of its end. -/
theorem walkInside_eq (hInner : SplitsUpTo delimiters 0 text.toList inner opened)
    (region : Region) :
    walkInside region text = (Walk.start region).run (Reader.emittedOver {} inner []) := by
  have hForget : ({} : Reader).forget = {} := rfl
  rw [walkInside, proper_tokens hInner, Reader.isReader.readAll_eq_readOver,
    Reader.isReader.emittedOver_eq, hForget]

/-- A walk that ends in the list has been in it from its beginning. -/
theorem EndsInList.item (h : EndsInList list.region text) : ∃ item,
    item.kind.isList = true ∧ item.isOutside = true ∧
      (walkInside list.region text).place = list.place .text 0 item := by
  have hAlone : (walkInside list.region text).place.isAlone = true :=
    Place.isAlone_of_endsList h.place
  have hKind : list.kind.isList = true := by cases list <;> rfl
  have hStart : (Walk.start list.region).IsLent list 0 {}
      { place := list.place .module 0 { kind := list.kind } } := by
    rw [list.place_start]
    exact ⟨⟨_, hKind, rfl, rfl⟩, ⟨rfl, rfl⟩, rfl, rfl⟩
  obtain ⟨item, hItem, hPlace, -⟩ := (hStart.run hAlone).place
  have hEnds := h.place
  change (walkInside list.region text).place = _ at hPlace
  rw [hPlace, list.endsList_place] at hEnds
  exact ⟨item, hItem, hEnds, hPlace⟩

/-- The end of the text ends the list. -/
theorem EndsInList.found_eq (h : EndsInList list.region text) :
    (walkThrough list.region (readEvents text.utf8ByteSize (tokens none text).list)
      text.utf8ByteSize).found =
        ((walkInside list.region text).flushAt text.utf8ByteSize).found := by
  obtain ⟨inner, opened, hInner⟩ := SplitsUpTo.total delimiters 0 text.toList
  obtain ⟨item, -, -, hPlace⟩ := h.item
  have hAlone : (walkInside list.region text).place.isAlone = true :=
    Place.isAlone_of_endsList h.place
  have hCode := h.code
  rw [proper_tokens hInner, Reader.isReader.readAll_eq_readOver] at hCode
  set size := text.utf8ByteSize with hSize
  have hMode : (Reader.readOver {} inner [.sentinel size]).mode = .code :=
    (congrArg Reader.mode (Reader.forget_readOver_ahead {} inner [] [.sentinel size])).trans hCode
  rw [walkInside_eq hInner] at hAlone hPlace ⊢
  have hRun := Walk.run_bare hAlone (Reader.emittedOver_bare {} inner [] [.sentinel size])
  rw [walkThrough, readEvents_eq_upcoming, (list_tokens hInner).1, Reader.isReader.upcoming_append,
    Reader.upcoming_sentinel hMode, Walk.run_append, hRun]
  -- The sentinel is the first to end the list, and then there is no list to be ended.
  generalize (Walk.start list.region).run _ = walk at hPlace
  have hEnd : walk.run [.ended size] = walk.flushAt size := rfl
  have hFlush : (walk.flushAt size).place = .moduleContext := by
    rw [Walk.flushAt_list hPlace]
    rfl
  rw [hEnd, Walk.finish_context hFlush]

/-- The walk through the list alone, and the walk over the list in the module. -/
theorem EndsInList.isLent (h : EndsInList list.region text)
    (hInner : SplitsUpTo delimiters 0 text.toList inner opened) (rest : List Token) :
    let first := (tokens none list.lead).proper
    let second := inner.map (·.moved (list.lead.utf8ByteSize + ·))
    let near := Reader.readOver {} first (second ++ rest)
    let walk := ((Walk.start .moduleContext).run (Reader.emittedOver {} first (second ++ rest))).run
      (near.emittedOver second rest)
    (near.readOver second rest).mode = .code ∧
      ((walkInside list.region text).moved (list.lead.utf8ByteSize + ·)).IsLent list
        list.lead.utf8ByteSize HeaderList.modules walk := by
  intro first second near walk
  set move : Nat → Nat := (list.lead.utf8ByteSize + ·) with hDefinition
  have hMove : Monotone move := fun _ _ hLe => Nat.add_le_add_left hLe _
  obtain ⟨hReader, hPlace, hLabel, hFrames, hFound⟩ := list.opens (second ++ rest)
  have hRigid : ∀ token ∈ inner, TokenAll (·.IsRigid move) token := by
    have hWords : ∀ token ∈ inner, token.word.IsRigid move := by
      refine hInner.isRigid fun count _ => ?_
      rw [hDefinition, Nat.zero_add]
      rfl
    exact fun token hMem =>
      ⟨Word.isRigid_absent _ _, Word.isRigid_absent _ _, fun _ => hWords token hMem⟩
  obtain ⟨hMode, hBare⟩ := Reader.readOver_enclosed hReader hRigid rest
  have hCode := h.code
  rw [proper_tokens hInner, Reader.isReader.readAll_eq_readOver] at hCode
  refine ⟨hMode.trans (by rw [hCode]; rfl), ?_⟩
  have hEvents : ∀ event ∈ Reader.emittedOver {} inner [], event.All (·.IsRigid move) :=
    (Reader.All.start _ 0).emittedOver hRigid hInner.contiguous []
  have hInside := Walk.run_moved (.start list.region) hMove hEvents
  rw [← walkInside_eq hInner] at hInside
  have hAlone : ((walkInside list.region text).moved move).place.isAlone = true :=
    Place.isAlone_of_endsList ((Place.endsList_moved move _).trans h.place)
  rw [← hInside] at hAlone ⊢
  have hSame := Walk.run_bare hAlone hBare
  rw [← hSame] at hAlone
  have hBegin : ((Walk.start list.region).moved move).IsLent list list.lead.utf8ByteSize
      HeaderList.modules
      ((Walk.start .moduleContext).run (Reader.emittedOver {} first (second ++ rest))) := by
    have hKind : list.kind.isList = true := by cases list <;> rfl
    have hNothing : Findings.moved move {} = {} := by
      simp [Findings.moved, Words.moved, Declarations.moved, ClockedSignals.moved]
    rw [list.place_start]
    refine ⟨⟨{ kind := list.kind }, hKind, ?_, hPlace⟩, ⟨rfl, hLabel⟩, hFrames, hFound.trans ?_⟩
    · cases list <;> rfl
    · rw [Walk.moved, hNothing]
  have hEnd := hBegin.run hAlone
  rw [hSame] at hEnd
  exact hEnd

/-- What is found in the list is found in the module behind its name. -/
theorem EndsInList.found_enclosed (h : EndsInList list.region text) :
    let unit := list.lead ++ text ++ (")" ++ list.behind)
    (walkThrough .moduleContext (readEvents unit.utf8ByteSize (tokens none unit).list)
        unit.utf8ByteSize).found =
      { (walkThrough list.region (readEvents text.utf8ByteSize (tokens none text).list)
          text.utf8ByteSize).found.moved (list.lead.utf8ByteSize + ·) with
        modules := HeaderList.modules } := by
  intro unit
  set move : Nat → Nat := (list.lead.utf8ByteSize + ·) with hDefinition
  obtain ⟨inner, opened, hInner, hList⟩ := list.list_enclosed text
  have hList := hList _ rfl
  set stop := list.lead.utf8ByteSize + text.utf8ByteSize with hStop
  set bridge := SplitsUpTo.bridge opened stop with hBridge
  set behind := Token.mk ")" ⟨stop, stop + 1⟩ ::
    (tokens none list.behind).list.map (·.moved (stop + 1 + ·)) with hBehind
  have hEmpty : ∀ token ∈ bridge, token.isEmpty = true := fun _ => SplitsUpTo.isEmpty_of_mem_bridge
  obtain ⟨hCode, hLent⟩ := h.isLent hInner (bridge ++ behind)
  set first := (tokens none list.lead).proper with hFirst
  set second := inner.map (·.moved move) with hSecond
  set near := Reader.readOver {} first (second ++ (bridge ++ behind)) with hNear
  set there := ((Walk.start .moduleContext).run
    (Reader.emittedOver {} first (second ++ (bridge ++ behind)))).run
      (near.emittedOver second (bridge ++ behind)) with hThere
  obtain ⟨hLater, hNothing⟩ := there.run_empties hCode hEmpty behind
  have hRun : (Walk.start .moduleContext).run
      (readEvents unit.utf8ByteSize (tokens none unit).list) =
      there.run (((near.readOver second (bridge ++ behind)).readOver bridge behind).upcoming
        unit.utf8ByteSize behind) := by
    rw [readEvents_eq_upcoming, hList, Reader.isReader.upcoming_append,
      Reader.isReader.upcoming_append, Reader.isReader.upcoming_append, Walk.run_append,
      Walk.run_append, Walk.run_append, hNothing]
  obtain ⟨item, hKind, hPlace, hPlace'⟩ := hLent.place
  have hOutside : item.isOutside = true := by
    have hEnds := (Place.endsList_moved move (walkInside list.region text).place).trans h.place
    change ((walkInside list.region text).moved move).place.endsList = true at hEnds
    rwa [hPlace, list.endsList_place] at hEnds
  -- The text of the list alone ends where the parenthesis stands in the module.
  have hAlone : (((walkInside list.region text).flushAt text.utf8ByteSize).moved move).found =
      list.close list.lead.utf8ByteSize stop
        (((walkInside list.region text).moved move).flush item).found := by
    rw [← Walk.flushAt_moved, Walk.flushAt_list hPlace]
    rfl
  have hClose := list.found_close hLater hPlace' hKind hOutside hLent.label.2 hLent.frames
    (stop + 1 + ·) ⟨stop, stop + 1⟩ unit.utf8ByteSize
  rw [h.found_eq, walkThrough, hRun]
  refine hClose.trans ?_
  change _ = { (((walkInside list.region text).flushAt text.utf8ByteSize).moved move).found with
    modules := HeaderList.modules }
  rw [hAlone, ← HeaderList.close_modules, Walk.flush, Walk.collect, hLent.found,
    Walk.declare_modules]
  rfl

/-- The clause of a text that is nothing but parameters is all of the text. -/
theorem EndsInList.clause (h : EndsInList (HeaderList.region .parameters) text) :
    (walkThrough (HeaderList.region .parameters)
      (readEvents text.utf8ByteSize (tokens none text).list)
      text.utf8ByteSize).found.genericClause = some ⟨0, text.utf8ByteSize⟩ := by
  obtain ⟨item, -, -, hPlace⟩ := h.item
  rw [h.found_eq, Walk.flushAt_list hPlace]
  rfl

/-- A list is read by itself as it is read in a module, apart from its places. A generic definition
is the text in the parentheses. -/
theorem scan_listInModule (h : EndsInList list.region text) :
    let alone := (scan list.region none text).table
    let unit := (scan .moduleContext none (list.lead ++ text ++ (")" ++ list.behind))).table
    unit.lists = alone.lists.map
      (fun list' => (list'.1, list'.2.moved (list.lead.utf8ByteSize + ·))) ∧
      (list = .parameters → alone.genericDefinition = text ∧ unit.genericDefinition = text) := by
  intro alone unit
  have hFound := h.found_enclosed
  have hAlone := (walkThrough_located list.region none text).align_eq_self
  have hUnit := (walkThrough_located .moduleContext none
    (list.lead ++ text ++ (")" ++ list.behind))).align_eq_self
  constructor
  · show (Findings.align _).lists = (Findings.align _).lists.map _
    rw [hUnit, hAlone, hFound]
    rfl
  · rintro rfl
    have hClause := h.clause
    have hDefinition : alone.genericDefinition = ((Option.map (·.slice text)
        (Findings.genericClause (Findings.align _)))).getD "" := rfl
    have hDefinition' : unit.genericDefinition = ((Option.map
        (·.slice (HeaderList.lead .parameters ++ text ++ (")" ++ HeaderList.behind .parameters)))
        (Findings.genericClause (Findings.align _)))).getD "" := rfl
    have hAll : (⟨0, text.utf8ByteSize⟩ : Span).Covers text text := ⟨[], [], by simp, by simp⟩
    have hPart : (⟨(HeaderList.lead .parameters).utf8ByteSize,
        (HeaderList.lead .parameters).utf8ByteSize + text.utf8ByteSize⟩ : Span).Covers
        (HeaderList.lead .parameters ++ text ++ (")" ++ HeaderList.behind .parameters)) text :=
      ⟨(HeaderList.lead .parameters).toList, (")" ++ HeaderList.behind .parameters).toList,
        by simp, by simp [String.utf8Len_toList]⟩
    constructor
    · rw [hDefinition, hAlone, hClause]
      exact hAll.slice_eq
    · rw [hDefinition', hUnit, hFound, Findings.moved, hClause]
      exact hPart.slice_eq

end Tables

end HdlIndex.Verilog

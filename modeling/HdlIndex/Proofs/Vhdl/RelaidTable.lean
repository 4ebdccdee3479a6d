import HdlIndex.Proofs.ClockedSignals
import HdlIndex.Proofs.Text.Collected
import HdlIndex.Proofs.Token.Relaid
import HdlIndex.Proofs.Vhdl.GenerateConditions
import HdlIndex.Proofs.Vhdl.MovedStatements
import HdlIndex.Proofs.Vhdl.Truncated
import HdlIndex.Proofs.Vhdl.Units

/-! Layout in a VHDL text, and the table of a text whose layout is changed at one place. Wherever a
walk stands, the blanks of a layout are one space to it, and its comments are nothing. Behind the
layout a reader stands where it stood in front, at the word it passed last, so the words there are
read alike, and the tables differ in their places and in what they quote from the text. -/
namespace HdlIndex.Vhdl

namespace Place

variable {place : Place} {token : Token}

/-- A blank is one space. -/
theorem absorb_blank (hBlank : token.isBlank = true) (hSome : token.isEmpty = false) :
    place.absorb token = place.absorb .space := by
  cases place <;> simp [absorb, Capture.absorb_blank hBlank hSome]

/-- Blanks behind a space are nothing. -/
theorem absorb_space (hBlank : token.isBlank = true) :
    (place.absorb .space).absorb token = place.absorb .space := by
  cases place <;> simp [absorb, Capture.absorb_space hBlank]

end Place

namespace Reader

variable {reader : Reader} {token : Token} {tokens rest : List Token}

/-- A blank outside of comments and strings is a filler. -/
theorem emitted_blank (hCode : reader.mode = .code) (hBlank : token.isBlank = true)
    (rest : List Token) : reader.emitted token rest = [.filler token] := by
  have hMode : reader.forget.mode = .code := hCode
  have hNot : token.text ≠ "--" ∧ token.text ≠ "/*" ∧ token.text ≠ "\"" := by
    refine ⟨?_, ?_, ?_⟩ <;> intro hText <;> simp [Token.isBlank, hText, Text.isAsciiBlank] at hBlank
  rw [emitted, read, hMode]
  dsimp only
  rw [readCode, if_neg hNot.1, if_neg hNot.2.1, if_neg hNot.2.2, hBlank, Bool.or_true, if_pos rfl]
  rfl

/-- Tokens of blanks within lines change no mode. -/
theorem mode_readOver_gaps (hGaps : ∀ token ∈ tokens, ∀ c ∈ token.text.toList,
    Delimiter.isGap c = true) : (reader.readOver tokens rest).mode = reader.mode := by
  induction tokens generalizing reader with
  | nil => rfl
  | cons token tokens ih =>
      rw [List.forall_mem_cons] at hGaps
      have hNot : ∀ text : String, (∃ c ∈ text.toList, Delimiter.isGap c = false) →
          token.text ≠ text := by
        rintro text ⟨c, hMem, hGap⟩ rfl
        rw [hGaps.1 c hMem] at hGap
        cases hGap
      have hRead : (reader.read token (tokens ++ rest)).mode = reader.mode := by
        rw [read]
        cases hMode : reader.mode with
        | lineComment start =>
            dsimp only
            rw [if_neg (hNot "\n" ⟨'\n', by decide, rfl⟩), hMode]
        | blockComment start =>
            dsimp only
            rw [if_neg (hNot "*/" ⟨'*', by decide, rfl⟩), hMode]
        | string =>
            dsimp only
            rw [if_neg (hNot "\"" ⟨'"', by decide, rfl⟩)]
        | code =>
            dsimp only
            rw [readCode, if_neg (hNot "--" ⟨'-', by decide, rfl⟩),
              if_neg (hNot "/*" ⟨'/', by decide, rfl⟩), if_neg (hNot "\"" ⟨'"', by decide, rfl⟩)]
            split <;> exact hMode
      exact (ih hGaps.2).trans hRead

/-- Behind a layout a reader stands where it stood, apart from the tokens passed last, of which none
belongs to a character literal. -/
theorem readOver_space (h : AreSpace comments tokens) (hCode : reader.mode = .code)
    (rest : List Token) :
    (reader.readOver tokens rest).mode = .code ∧
      (reader.readOver tokens rest).before = reader.before ∧
      (reader.readOver tokens rest).isTicked = false ∧
      (reader.readOver tokens rest).opensCharacter = false := by
  obtain ⟨hResumes, hBefore, -⟩ :=
    readOver_of_passOver rest (congrArg Mode.resumes? hCode) h.passes
  refine ⟨?_, hBefore, ?_⟩
  · generalize (reader.readOver tokens rest).mode = mode at hResumes
    cases mode <;> first
      | rfl
      | cases hResumes
  · obtain ⟨lead, last, rfl, c, hLast, hBlank⟩ := h.ends
    have hTick : last.text ≠ "'" := by
      intro hText
      rw [hText] at hLast
      obtain rfl : '\'' = c := Option.some.inj hLast
      cases hBlank
    have hSome : last.isEmpty = false := by
      by_contra hEmpty
      have hNil : last.text = "" := by simpa [Token.isEmpty] using hEmpty
      rw [hNil] at hLast
      cases hLast
    rw [isReader.readOver_append, readOver, readOver, isTicked_read, opensCharacter_read, hSome]
    simp [hTick]

end Reader

namespace Walk

variable {walk : Walk} {reader : Reader} {tokens rest : List Token}

/-- The walk behind one space. -/
def space (walk : Walk) : Walk := { walk with place := walk.place.absorb .space }

/-- Layout behind a space is nothing. -/
theorem run_layout {events : List Event} (hEvents : ∀ event ∈ events, event.IsLayout) :
    walk.space.run events = walk.space := by
  induction events with
  | nil => rfl
  | cons event events ih =>
      rw [List.forall_mem_cons] at hEvents
      have hStep : walk.space.step event = walk.space := by
        cases event with
        | comment span => rfl
        | filler token =>
            have hPlace : (walk.place.absorb .space).absorb token = walk.place.absorb .space :=
              Place.absorb_space hEvents.1
            rw [step, space, hPlace]
        | word here before next => exact hEvents.1.elim
      have hRest := ih hEvents.2
      rw [run] at hRest ⊢
      rw [List.foldl_cons, hStep, hRest]

/-- A blank is one space to a walk, and a token without text is nothing to it. -/
theorem step_empty (hEmpty : token.isEmpty = true) : walk.step (.filler token) = walk := by
  rw [step, Place.absorb_of_isEmpty hEmpty]

/-- A layout is one space. -/
theorem run_space (h : AreSpace comments tokens) (hCode : reader.mode = .code) (rest : List Token) :
    walk.run (reader.emittedOver tokens rest) = walk.space := by
  have hPass := h.passes
  obtain ⟨empty, white, more, rfl, hEmpty, hBlank, hSome⟩ := h.begins
  -- The first blank is collected, and what comes behind it is layout.
  have hWhite : ∀ {reader : Reader}, reader.mode = .code →
      Token.passOver comments none (white :: more) = some none →
      walk.run (reader.emittedOver (white :: more) rest) = walk.space := by
    intro reader hCode hPass
    rw [Token.passOver, if_pos hBlank] at hPass
    have hRead : (reader.read white (more ++ rest)).mode.resumes? = some none :=
      (reader.read_of_passOver _ (congrArg Mode.resumes? hCode)
        (Token.passOver_blanks (by simpa using hBlank))).1
    have hLayout := (Reader.readOver_of_passOver rest hRead hPass).2.2
    have hStep : walk.step (.filler white) = walk.space := by
      rw [step, Place.absorb_blank hBlank hSome, space]
    rw [Reader.emittedOver, Reader.emitted_blank hCode hBlank, List.singleton_append, run,
      List.foldl_cons, hStep]
    exact run_layout hLayout
  rcases hEmpty with rfl | ⟨offset, rfl⟩
  · exact hWhite hCode hPass
  · have hNone : (Token.placed offset []).isBlank = true := Token.isBlank_placed offset []
    rw [List.singleton_append, Token.passOver_placed_nil] at hPass
    have hRead : (reader.read (.placed offset []) (white :: more ++ rest)).mode = .code := by
      have hResumes := (reader.read_of_passOver (white :: more ++ rest)
        (congrArg Mode.resumes? hCode) (Token.passOver_blanks (by simpa using hNone))).1
      generalize (reader.read (.placed offset []) (white :: more ++ rest)).mode = mode at hResumes
      cases mode <;> first
        | rfl
        | cases hResumes
    rw [List.singleton_append, Reader.emittedOver, Reader.emitted_blank hCode hNone,
      List.singleton_append, run, List.foldl_cons, step_empty rfl]
    exact hWhite hRead hPass

end Walk

/-- A text that is nothing but layout: it begins and ends with white space, and all that a reader
finds in it is blanks and comments, of which none is open at its end. -/
structure IsLayoutText (text : String) : Prop where
  begins : ∃ c ∈ text.toList.head?, Text.isAsciiBlank c = true
  ends : ∃ c ∈ text.toList.getLast?, Text.isAsciiBlank c = true
  code : (readerAt none text).mode = .code
  wordless : ∀ event ∈ (readerAt none text).events, event.IsLayout

instance (text : String) : Decidable (IsLayoutText text) :=
  -- Of all characters only the one that may be there is tried.
  haveI (last : Option Char) : Decidable (∃ c ∈ last, Text.isAsciiBlank c = true) :=
    Option.decidableExistsMem last
  decidable_of_iff (_ ∧ _ ∧ _ ∧ _)
    ⟨fun ⟨begins, ends, code, wordless⟩ => ⟨begins, ends, code, wordless⟩,
      fun ⟨begins, ends, code, wordless⟩ => ⟨begins, ends, code, wordless⟩⟩

section Layout

variable {reader : Reader} {token : Token} {tokens : List Token} {closer : Option String}

/-- Looking ahead passes over a token that is layout to a reader. -/
theorem Reader.passOver_of_read (rest : List Token) (hMode : reader.mode.resumes? = some closer)
    (hEmitted : ∀ event ∈ reader.emitted token rest, event.IsLayout) :
    ∃ after, Token.passOver comments closer [token] = some after ∧
      (reader.read token rest).mode.resumes? = some after := by
  have hTakes := reader.takes token rest
  generalize reader.read token rest = later at hTakes
  generalize reader.emitted token rest = events at hTakes hEmitted
  cases hTakes with
  | opensLine hCase hText hAfter =>
      rw [hCase] at hMode
      obtain rfl := Option.some.inj hMode
      simp [Token.passOver, Token.isBlank, hText, Text.isAsciiBlank, comments, hAfter,
        Mode.resumes?]
  | opensBlock hCase hText hAfter =>
      rw [hCase] at hMode
      obtain rfl := Option.some.inj hMode
      simp [Token.passOver, Token.isBlank, hText, Text.isAsciiBlank, comments, hAfter,
        Mode.resumes?]
  | inLine hCase hText hAfter =>
      rw [hCase] at hMode
      obtain rfl := Option.some.inj hMode
      simp [Token.passOver, hText, hAfter, Mode.resumes?]
  | inBlock hCase hText hAfter =>
      rw [hCase] at hMode
      obtain rfl := Option.some.inj hMode
      simp [Token.passOver, hText, hAfter, Mode.resumes?]
  | closesLine hCase hText hAfter =>
      rw [hCase] at hMode
      obtain rfl := Option.some.inj hMode
      simp [Token.passOver, hText, hAfter, Mode.resumes?]
  | closesBlock hCase hText hAfter =>
      rw [hCase] at hMode
      obtain rfl := Option.some.inj hMode
      simp [Token.passOver, hText, hAfter, Mode.resumes?]
  | inString hCase =>
      rw [hCase] at hMode
      cases hMode
  | quote hCase hText =>
      have hBlank : token.isBlank = true := hEmitted _ (List.mem_singleton_self _)
      simp [Token.isBlank, hText, Text.isAsciiBlank] at hBlank
  | character hCase hText =>
      have hBlank : token.isBlank = true := hEmitted _ (List.mem_singleton_self _)
      simp only [isPunctuation, Bool.or_eq_true, decide_eq_true_eq] at hText
      rcases hText with ((hText | hText) | hText) | hText <;>
        simp [Token.isBlank, hText, Text.isAsciiBlank] at hBlank
  | blank hCase hBlank hAfter =>
      rw [hCase] at hMode
      obtain rfl := Option.some.inj hMode
      simp [Token.passOver, hBlank, hAfter, Mode.resumes?]
  | word => exact (hEmitted _ (List.mem_singleton_self _)).elim

/-- What a reader passes over as layout is what the look-ahead passes over, and both end inside of
the same comment or of none. -/
theorem Reader.passOver_of_readOver (rest : List Token) (hMode : reader.mode.resumes? = some closer)
    (hEmitted : ∀ event ∈ reader.emittedOver tokens rest, event.IsLayout) :
    ∃ after, Token.passOver comments closer tokens = some after ∧
      (reader.readOver tokens rest).mode.resumes? = some after := by
  induction tokens generalizing reader closer with
  | nil => exact ⟨closer, rfl, hMode⟩
  | cons token tokens ih =>
      obtain ⟨hHere, hThere⟩ := List.forall_mem_append.1 hEmitted
      obtain ⟨middle, hFirst, hMiddle⟩ := reader.passOver_of_read (tokens ++ rest) hMode hHere
      obtain ⟨after, hRest, hAfter⟩ := ih hMiddle hThere
      refine ⟨after, ?_, hAfter⟩
      rw [← List.singleton_append, Token.passOver_append, hFirst]
      exact hRest

/-- Looking ahead passes over such a text. -/
theorem IsLayoutText.isLayout {text : String} (h : IsLayoutText text) :
    IsLayout delimiters comments (Text.foldCase text).toList := by
  have hFolded : ∀ c, Text.isAsciiBlank c = true → Text.isAsciiBlank c.toLower = true := by
    intro c hBlank
    simp only [Text.isAsciiBlank, Bool.or_eq_true, beq_iff_eq] at hBlank
    rcases hBlank with (((rfl | rfl) | rfl) | rfl) | rfl <;> rfl
  obtain ⟨c, hFirst, hFirstBlank⟩ := h.begins
  obtain ⟨d, hLast, hLastBlank⟩ := h.ends
  obtain ⟨tokens, opened, hTokens⟩ := SplitsUpTo.total delimiters 0 (Text.foldCase text).toList
  have hEnd : opened = false := by
    refine hTokens.opened_eq_false delimiters_areBroken fun e hMem => ?_
    rw [Text.toList_foldCase, List.getLast?_map, Option.mem_def.1 hLast] at hMem
    obtain rfl := Option.some.inj hMem
    exact Delimiter.isWhite_of_isAsciiBlank (hFolded d hLastBlank)
  subst hEnd
  have hList : (Vhdl.tokens none text).list = tokens := by
    rw [list_tokens hTokens]
    exact List.append_nil tokens
  have hCode := h.code
  have hWordless := h.wordless
  rw [readerAt, hList, Reader.isReader.readAll_eq_readOver] at hCode hWordless
  have hEmitted : ∀ event ∈ Reader.emittedOver {} tokens [], event.IsLayout := by
    have hForget : ({} : Reader).forget = {} := rfl
    rw [Reader.isReader.emittedOver_eq, hForget]
    simpa using hWordless
  obtain ⟨after, hPass, hAfter⟩ := Reader.passOver_of_readOver [] rfl hEmitted
  rw [hCode] at hAfter
  obtain rfl := Option.some.inj hAfter
  refine ⟨?_, ?_, tokens, hTokens, hPass⟩
  · obtain ⟨rest, hText⟩ := List.head?_eq_some_iff.1 hFirst
    exact ⟨c.toLower, rest.map Char.toLower, by rw [Text.toList_foldCase, hText, List.map_cons],
      hFolded c hFirstBlank⟩
  · obtain ⟨front, hText⟩ := List.getLast?_eq_some_iff.1 hLast
    refine ⟨front.map Char.toLower, d.toLower, ?_, hFolded d hLastBlank⟩
    rw [Text.toList_foldCase, hText, List.map_append]
    rfl

end Layout

section Changed

variable {move : Nat → Nat} {first space space' second : List Token}
  {chars chars' : List Char} {opened : Bool} {size : Nat}

/-- A table without what it quotes from the text: the comments, and the text of the generic
clause. -/
def Table.unquoted (table : Table) : Table := { table with genericDefinition := "", comments := {} }

section Reading

/-- The first part of one text's events and the last part are those of the other one, moved. In
between both have layout, which is one space to every walk. -/
structure Event.AreRelaid (move : Nat → Nat) (front layout layout' back : List Event) : Prop where
  wordless : ∀ event ∈ layout ++ layout', event.IsLayout
  spaced (walk : Walk) : walk.run layout = walk.space ∧ walk.run layout' = walk.space
  rigid : ∀ event ∈ front ++ back, event.All (·.IsRigid move)

/-- No character literal goes on in layout. -/
theorem leadsTick_space (h : AreSpace comments space) (rest : List Token) :
    leadsTick (space ++ rest) = false := by
  obtain ⟨empty, white, more, rfl, hEmpty, hBlank, -⟩ := h.begins
  have hTick : white.text ≠ "'" := by
    intro hText
    simp [Token.isBlank, hText, Text.isAsciiBlank] at hBlank
  rcases hEmpty with rfl | ⟨offset, rfl⟩
  · simpa [leadsTick] using hTick
  · rfl

/-- White space closes no character literal. -/
theorem closesCharacter_space (h : AreSpace comments space) (rest : List Token) :
    closesCharacter (space ++ rest) = false := by
  obtain ⟨empty, white, more, rfl, hEmpty, hBlank, hSome⟩ := h.begins
  have hTick : white.text ≠ "'" := by
    intro hText
    simp [Token.isBlank, hText, Text.isAsciiBlank] at hBlank
  rcases hEmpty with rfl | ⟨offset, rfl⟩
  · rw [List.nil_append, List.cons_append, closesCharacter_cons, hSome, Bool.false_and]
  · have hLeads : leadsTick (white :: (more ++ rest)) = false := by simpa [leadsTick] using hTick
    rw [List.singleton_append, List.cons_append, List.cons_append, closesCharacter_cons, hLeads,
      Bool.and_false]

/-- A reader outside of comments and strings sees through every layout alike. -/
theorem Reader.Sees.through (h : AreSpace comments space) (h' : AreSpace comments space')
    (rest : List Token) :
    Reader.Sees move .code (space ++ rest) (space' ++ rest.map (·.moved move)) where
  tick := (leadsTick_space h' _).trans (leadsTick_space h _).symm
  closes := (closesCharacter_space h' _).trans (closesCharacter_space h _).symm
  ahead closer hCloser := by
    obtain rfl := Option.some.inj hCloser
    rw [Token.nextSignificant_append_of_passOver h.passes,
      Token.nextSignificant_append_of_passOver h'.passes, Token.nextSignificant_moved]

/-- Two readers that match in front of a layout match behind it, whatever they have read there. -/
theorem Reader.Matches.readOver_space {near near' : Reader} (h : Reader.Matches move near near')
    (hSpace : AreSpace comments space) (hSpace' : AreSpace comments space')
    (hCode : near.mode = .code) (rest rest' : List Token) :
    near'.mode = .code ∧
      Reader.Matches move (near.readOver space rest).forget
        (near'.readOver space' rest').forget := by
  have hCode' : near'.mode = .code := by
    rw [h.mode, hCode]
    rfl
  obtain ⟨hMode, hBefore, hTicked, hOpens⟩ := Reader.readOver_space hSpace hCode rest
  obtain ⟨hMode', hBefore', hTicked', hOpens'⟩ := Reader.readOver_space hSpace' hCode' rest'
  exact ⟨hCode',
    { mode := hMode'.trans (congrArg (Mode.moved move) hMode.symm)
      before := hBefore'.trans (h.before.trans (congrArg (Option.map _) hBefore.symm))
      ticked := hTicked'.trans hTicked.symm
      opens := hOpens'.trans hOpens.symm
      events := by simp [Reader.forget] }⟩

/-- The words around a layout are those of the tokens around it. The last word in front of it is the
word that the first one behind it follows. -/
theorem Reader.all_around {P : Word → Prop} (hP : Inherited P) (hSpace : AreSpace comments space)
    (hTokens : ∀ token ∈ first ++ second, P token.word)
    (hContiguous : Contiguous 0 (first ++ space ++ second) size) (hEnd : P (.absent size))
    (hCode : (Reader.readOver {} first (space ++ second)).mode = .code) :
    let near := Reader.readOver {} first (space ++ second)
    ∀ event ∈ Reader.emittedOver {} first (space ++ second) ++
      (near.readOver space second).upcoming size second, event.All P := by
  intro near
  change near.mode = .code at hCode
  obtain ⟨hFirst, hSecond⟩ := List.forall_mem_append.1 hTokens
  obtain ⟨later, hBegin, hLast⟩ := hContiguous.of_append
  obtain ⟨middle, hBegin, -⟩ := hBegin.of_append
  obtain ⟨hMode, hBefore, -⟩ := Reader.readOver_space hSpace hCode second
  have hAhead : ∀ closer, near.mode.resumes? = some closer →
      ∀ next ∈ Token.nextSignificant comments closer (space ++ second), P next.word := by
    intro closer hCloser next hNext
    rw [hCode] at hCloser
    obtain rfl := Option.some.inj hCloser
    rw [Token.nextSignificant_append_of_passOver hSpace.passes] at hNext
    exact hSecond next (Token.mem_of_nextSignificant hNext)
  have hStart := All.start P 0
  have hNear := hStart.readOver hP hFirst hBegin hAhead
  have hLater : (near.readOver space second).forget.All P later :=
    { events := by simp [Reader.forget]
      before := fun lexeme hMem => hNear.before lexeme (hBefore ▸ hMem)
      opened := by simp [Reader.forget, hMode, Mode.opened?] }
  rw [← Reader.isReader.upcoming_forget, List.forall_mem_append]
  exact ⟨hStart.emittedOver hP hFirst hBegin hAhead,
    hLater.upcoming hP hSecond hLast (Nat.le_refl _) hEnd⟩

/-- The events of two texts that differ in the layout at one place. -/
theorem exists_relaid (hSpace : AreSpace comments space) (hSpace' : AreSpace comments space')
    (hFirst : first.map (·.moved move) = first)
    (hRigid : ∀ token ∈ first ++ second, token.word.IsRigid move)
    (hContiguous : Contiguous 0 (first ++ space ++ second) size)
    (hCode : (Reader.readOver {} first (space ++ second)).mode = .code) :
    ∃ front layout layout' back, Event.AreRelaid move front layout layout' back ∧
      readEvents size (first ++ space ++ second) = front ++ layout ++ back ∧
      readEvents (move size) (first ++ space' ++ second.map (·.moved move)) =
        front.map (·.moved move) ++ layout' ++ back.map (·.moved move) := by
  set second' := second.map (·.moved move) with hSecond
  set near := Reader.readOver {} first (space ++ second) with hNear
  set near' := Reader.readOver {} first (space' ++ second') with hNear'
  have hSees : Reader.Sees move near.mode (space ++ second) (space' ++ second') := by
    rw [hCode]
    exact .through hSpace hSpace' second
  have hStart : Reader.Matches move {} {} := ⟨rfl, rfl, rfl, rfl, by simp⟩
  -- In front of the layout the two readers match, and so they do behind it.
  have hMatches : Reader.Matches move near near' := by
    have hBoth := hStart.readOver hSees
    rwa [hFirst] at hBoth
  have hFront : Reader.emittedOver {} first (space' ++ second') =
      (Reader.emittedOver {} first (space ++ second)).map (·.moved move) := by
    have hBoth := hStart.emittedOver_eq hSees
    rwa [hFirst] at hBoth
  obtain ⟨hCode', hFar⟩ := hMatches.readOver_space hSpace hSpace' hCode second second'
  have hBack : (near'.readOver space' second').upcoming (move size) second' =
      ((near.readOver space second).upcoming size second).map (·.moved move) := by
    rw [← Reader.isReader.upcoming_forget, hFar.upcoming_eq, Reader.isReader.upcoming_forget]
  refine ⟨Reader.emittedOver {} first (space ++ second), near.emittedOver space second,
    near'.emittedOver space' second', (near.readOver space second).upcoming size second,
    { wordless := ?wordless, spaced := ?spaced, rigid := ?rigid }, ?here, ?there⟩
  case wordless =>
    exact List.forall_mem_append.2
      ⟨(Reader.readOver_of_passOver second (congrArg Mode.resumes? hCode) hSpace.passes).2.2,
        (Reader.readOver_of_passOver second' (congrArg Mode.resumes? hCode') hSpace'.passes).2.2⟩
  case spaced =>
    exact fun walk => ⟨Walk.run_space hSpace hCode second, Walk.run_space hSpace' hCode' second'⟩
  case rigid =>
    exact Reader.all_around (isRigid_inherited move) hSpace hRigid hContiguous
      (Word.isRigid_absent move size) hCode
  case here =>
    rw [readEvents_eq_upcoming, List.append_assoc, Reader.isReader.upcoming_append,
      Reader.isReader.upcoming_append, List.append_assoc]
  case there =>
    rw [readEvents_eq_upcoming, List.append_assoc, Reader.isReader.upcoming_append,
      Reader.isReader.upcoming_append, hFront, hBack, List.append_assoc]

end Reading

section Walking

variable {front layout layout' back : List Event} {region : Region} {walk : Walk}

/-- Where nothing was found in front of a text, what is found in it is moved and nothing else. -/
theorem Findings.within_alone {found : Findings} (h : found.clocked.names.Nodup) :
    found.within { move } = found.moved move := by
  have hClocked : (found.clocked.moved move).names.Nodup := by
    rwa [ClockedSignals.names_moved]
  simp [within, followedBy, Words.followedBy, Words.isEmpty, Declarations.followedBy,
    ClockedSignals.followedBy_of_nodup hClocked, moved]

theorem Walk.space_within (embedding : Embedding) :
    (walk.within embedding).space = walk.space.within embedding := by
  have hPlace : (walk.place.moved embedding.move).absorb .space =
      (walk.place.absorb .space).moved embedding.move :=
      Walk.absorb_moved embedding.move walk.place .space
  rw [space, space, within, within, hPlace]

/-- A walk that stands behind the layout of a text holds words that are moved as wholes. -/
theorem Event.AreRelaid.all_space (h : Event.AreRelaid move front layout layout' back)
    (region : Region) : ((Walk.start region).run front).space.All (·.IsRigid move) := by
  have hP := isRigid_inherited move
  have hFront : ((Walk.start region).run front).All (·.IsRigid move) :=
    Walk.All.run (.start region) hP (List.forall_mem_append.1 h.rigid).1
  have hStep : (((Walk.start region).run front).step (.filler .space)).All (·.IsRigid move) :=
    hFront.step hP trivial
  exact hStep

/-- Two texts that differ in the layout at one place are walked through alike. -/
theorem Event.AreRelaid.walkThrough (h : Event.AreRelaid move front layout layout' back)
    (hMove : Monotone move) (hZero : move 0 = 0) (region : Region) (size : Nat) :
    walkThrough region (front.map (·.moved move) ++ layout' ++ back.map (·.moved move))
      (move size) = (walkThrough region (front ++ layout ++ back) size).within { move } := by
  have hRigid := List.forall_mem_append.1 h.rigid
  have hSpace := h.all_space region
  have hFront : ((Walk.start region).within { move }).run (front.map (·.moved move)) =
      ((Walk.start region).run front).within { move } :=
      Walk.run_within (.start region) hMove hRigid.1
  rw [Walk.start_within region hZero] at hFront
  have hBack : (((Walk.start region).run front).space.within { move }).run
      (back.map (·.moved move)) =
      (((Walk.start region).run front).space.run back).within { move } :=
    Walk.run_within hSpace hMove hRigid.2
  have hEnd := hSpace.run (isRigid_inherited move) hRigid.2
  rw [Vhdl.walkThrough, Vhdl.walkThrough, Walk.run_append, Walk.run_append, Walk.run_append,
    Walk.run_append, hFront, (h.spaced _).1, (h.spaced _).2, Walk.space_within, hBack]
  exact Walk.finish_within hEnd hMove size

end Walking

section Tables

variable {pre run gap post text : String}

/-- Blanks are no part of a character literal. -/
theorem ticks_gaps {tokens : List Token}
    (h : ∀ token ∈ tokens, ∀ c ∈ token.text.toList, Delimiter.isGap c = true) :
    leadsTick tokens = false ∧ closesCharacter tokens = false := by
  have hTick : ∀ token ∈ tokens, token.text ≠ "'" := by
    rintro token hMem hText
    have hGap := h token hMem '\'' (by simp [hText])
    cases hGap
  match tokens with
  | [] => exact ⟨rfl, rfl⟩
  | [token] => simp [leadsTick, closesCharacter, hTick token]
  | first :: second :: _ => simp [leadsTick, closesCharacter, hTick first, hTick second]

/-- Behind words that end outside of comments and strings, in front of blanks, a reader is there. -/
theorem mode_of_readerAt {blanks : List Token}
    (hSplits : SplitsUpTo delimiters 0 (Text.foldCase pre).toList (first ++ blanks) opened)
    (hBlanks : ∀ token ∈ blanks, ∀ c ∈ token.text.toList, Delimiter.isGap c = true)
    (hCode : (readerAt none pre).mode = .code) (hSpace : AreSpace comments space)
    (rest : List Token) :
    (Reader.readOver {} first (space ++ rest)).mode = .code := by
  set closing := SplitsUpTo.closing false opened pre.utf8ByteSize with hClosing
  have hGaps : ∀ token ∈ blanks ++ closing, ∀ c ∈ token.text.toList, Delimiter.isGap c = true := by
    refine List.forall_mem_append.2 ⟨hBlanks, ?_⟩
    rw [hClosing]
    cases opened <;> simp [SplitsUpTo.closing, Token.placed]
  obtain ⟨hTick, hCloses⟩ := ticks_gaps hGaps
  have hMode : (Reader.readOver {} first (blanks ++ closing)).mode = .code := by
    rw [readerAt, list_tokens hSplits, List.append_assoc, Reader.isReader.readAll_eq_readOver,
      Reader.isReader.readOver_append, List.append_nil, Reader.mode_readOver_gaps hGaps] at hCode
    exact hCode
  have hSame := Reader.forget_readOver_ahead ((leadsTick_space hSpace rest).trans hTick.symm)
    ((closesCharacter_space hSpace rest).trans hCloses.symm) {} first
  exact (congrArg Reader.mode hSame).trans hMode

theorem keywords_layout {layout : List Event} (h : ∀ event ∈ layout, event.IsLayout) :
    layout.filterMap Event.keyword? = [] := by
  refine List.filterMap_eq_nil_iff.2 fun event hMem => ?_
  have hLayout := h event hMem
  cases event with
  | word here before next => exact hLayout.elim
  | _ => rfl

variable {front layout layout' back : List Event}

/-- The keywords of both texts are those in front of the layout and those behind it. -/
theorem Event.AreRelaid.keywords (h : Event.AreRelaid move front layout layout' back) :
    (front.map (·.moved move) ++ layout' ++ back.map (·.moved move)).filterMap Event.keyword? =
      ((front ++ layout ++ back).filterMap Event.keyword?).map (·.moved move) := by
  have hWordless := List.forall_mem_append.1 h.wordless
  rw [List.filterMap_append, List.filterMap_append, List.filterMap_append, List.filterMap_append,
    keywords_layout hWordless.1, keywords_layout hWordless.2, keywords_moved, keywords_moved,
    List.append_nil, List.append_nil, List.map_append]

/-- Texts with such events have one table, but for its places and its quotes. -/
theorem Event.AreRelaid.scan (h : Event.AreRelaid move front layout layout' back) {text' : String}
    (hEvents : readEvents text.utf8ByteSize (tokens none text).list = front ++ layout ++ back)
    (hEvents' : readEvents text'.utf8ByteSize (tokens none text').list = front.map (·.moved move) ++
      layout' ++ back.map (·.moved move))
    (hMove : Monotone move) (hZero : move 0 = 0)
    (hSize : move text.utf8ByteSize = text'.utf8ByteSize) (region : Region) :
    (Vhdl.scan region none text').table.unquoted =
      ((Vhdl.scan region none text).table.moved move).unquoted := by
  have hWalk := h.walkThrough hMove hZero region text.utf8ByteSize
  have hKeywords := h.keywords
  rw [← hEvents, ← hEvents'] at hWalk hKeywords
  rw [hSize] at hWalk
  set walk := Vhdl.walkThrough region (readEvents text.utf8ByteSize (Vhdl.tokens none text).list)
    text.utf8ByteSize with hDefinition
  have hSettled : walk.found.Settled none := settled_walkThrough region _ _
  have hSettled' : (walk.within { move }).found.Settled none := by
    rw [← hWalk]
    exact settled_walkThrough region _ _
  have hDistinct : walk.found.clocked.names.Nodup := (scan_agrees region none text).distinct
  have hFound : (walk.within { move }).found = walk.found.moved move :=
    Findings.within_alone hDistinct
  have hDiagnostics : diagnose (walk.within { move }) (Vhdl.tokens none text').scanned
      text'.utf8ByteSize = diagnose walk (Vhdl.tokens none text).scanned text.utf8ByteSize := by
    rw [diagnose, diagnose, hSettled.ragged_eq_nil, hSettled'.ragged_eq_nil, scanned_tokens,
      scanned_tokens, if_neg (Nat.lt_irrefl _), if_neg (Nat.lt_irrefl _)]
    rfl
  have hTable : (Vhdl.scan region none text).table = tabulate text
      (readEvents text.utf8ByteSize (Vhdl.tokens none text).list)
        (Vhdl.tokens none text).scanned walk :=
    rfl
  have hTable' : (Vhdl.scan region none text').table = tabulate text'
      (readEvents text'.utf8ByteSize (Vhdl.tokens none text').list) (Vhdl.tokens none text').scanned
      (walk.within { move }) := by
    rw [← hWalk]
    rfl
  rw [hTable, hTable', tabulate, tabulate, hSettled.align_eq_self, hSettled'.align_eq_self, hFound,
    hKeywords, hDiagnostics]
  rfl

/-- Layout in place of layout leaves the table of a text as it is, but for its places and its
quotes. -/
theorem scan_relaid (region : Region)
    (hRun : IsLayoutText run) (hGap : IsLayoutText gap)
    (hPre : '\x0b' ∉ pre.toList) (hPost : '\x0b' ∉ post.toList)
    (hCode : (readerAt none pre).mode = .code) :
    ∃ move, Monotone move ∧ (scan region none (pre ++ gap ++ post)).table.unquoted =
      ((scan region none (pre ++ run ++ post)).table.moved move).unquoted := by
  have hFold : ∀ text : String, '\x0b' ∉ text.toList → '\x0b' ∉ (Text.foldCase text).toList :=
    fun _ => mt (Text.mem_of_mem_foldCase · (by decide))
  have hChars : ∀ gap : String, (Text.foldCase (pre ++ gap ++ post)).toList =
      (Text.foldCase pre).toList ++ (Text.foldCase gap).toList ++ (Text.foldCase post).toList := by
    intro gap
    rw [Text.foldCase_append, Text.foldCase_append, String.toList_append, String.toList_append]
  obtain ⟨move, first, space, space', second, opened, blanks, opened', h, hPieces, hBlanks⟩ :=
    exists_areRelaid delimiters_areBroken comments_areSolid hRun.isLayout hGap.isLayout
      (hFold pre hPre) (hFold post hPost)
  rw [← hChars, ← hChars] at h
  set text := pre ++ run ++ post with hText
  set text' := pre ++ gap ++ post with hText'
  have hSize : move text.utf8ByteSize = text'.utf8ByteSize := by
    have hSame := h.size
    rwa [String.utf8Len_toList, String.utf8Len_toList, Text.utf8ByteSize_foldCase,
      Text.utf8ByteSize_foldCase] at hSame
  set closing := SplitsUpTo.closing false opened text.utf8ByteSize with hClosing
  have hClosing' : SplitsUpTo.closing false opened text'.utf8ByteSize =
      closing.map (·.moved move) := by
    rw [hClosing, ← hSize]
    cases opened <;> rfl
  have hList : (tokens none text).list = first ++ space ++ (second ++ closing) := by
    rw [list_tokens h.splits, List.append_assoc]
  have hList' : (tokens none text').list =
      first ++ space' ++ (second ++ closing).map (·.moved move) := by
    rw [list_tokens h.splits', hClosing', List.map_append, List.append_assoc]
  have hRigid : ∀ token ∈ first ++ (second ++ closing), token.word.IsRigid move := by
    rw [← List.append_assoc]
    refine List.forall_mem_append.2 ⟨h.rigid, fun token hMem => ?_⟩
    rw [hClosing, SplitsUpTo.closing] at hMem
    split at hMem
    · obtain rfl := List.mem_singleton.1 hMem
      exact Word.isRigid_absent move text.utf8ByteSize
    · cases hMem
  have hContiguous := tokenize_contiguous delimiters none false (Text.foldCase text)
  change Contiguous 0 (tokens none text).list (tokens none text).scanned at hContiguous
  rw [scanned_tokens, hList] at hContiguous
  have hHere := mode_of_readerAt hPieces hBlanks hCode h.space (second ++ closing)
  obtain ⟨front, layout, layout', back, hRelaid, hEvents, hEvents'⟩ :=
    exists_relaid h.space h.space' h.before hRigid hContiguous hHere
  rw [← hList] at hEvents
  rw [← hList', hSize] at hEvents'
  exact ⟨move, h.monotone, hRelaid.scan hEvents hEvents' h.monotone h.zero hSize region⟩

end Tables

end Changed

end HdlIndex.Vhdl

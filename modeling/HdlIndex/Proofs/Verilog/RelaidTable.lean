import HdlIndex.Proofs.Text.Collected
import HdlIndex.Proofs.Token.Relaid
import HdlIndex.Proofs.Verilog.StatementWords
import HdlIndex.Proofs.Verilog.Truncated

/-! Layout in a Verilog text, and the table of a text whose layout is changed at one place. Wherever
a walk stands, the blanks of a layout are one space to it, and its comments are nothing. Behind the
layout a reader stands where it stood in front, so the words there are read alike, and the tables
differ in their places and in what they quote from the text. -/
namespace HdlIndex.Verilog

section Walking

variable {walk : Walk} {reader : Reader} {token : Token} {tokens : List Token}

/-- The walk behind one space. -/
def Walk.space (walk : Walk) : Walk := { walk with place := walk.place.absorb .space }

theorem Walk.run_append (walk : Walk) (events others : List Event) :
    walk.run (events ++ others) = (walk.run events).run others := List.foldl_append

/-- A blank is one space to a walk. -/
theorem Walk.step_blank (hBlank : token.isBlank = true) (hSome : token.isEmpty = false) :
    walk.step (.filler token) = walk.space := by
  have hPlace : walk.place.absorb token = walk.place.absorb .space := by
    cases walk.place <;> simp [Place.absorb, Capture.absorb_blank hBlank hSome]
  rw [step, hPlace, space]

/-- A token without text is nothing to a walk. -/
theorem Walk.step_empty (hEmpty : token.isEmpty = true) : walk.step (.filler token) = walk := by
  have hPlace : walk.place.absorb token = walk.place := by
    cases walk.place <;> simp [Place.absorb, Capture.absorb_of_isEmpty hEmpty]
  rw [step, hPlace]

/-- Layout behind a space is nothing. -/
theorem Walk.run_layout {events : List Event} (hEvents : ∀ event ∈ events, event.IsLayout) :
    walk.space.run events = walk.space := by
  induction events with
  | nil => rfl
  | cons event events ih =>
      rw [List.forall_mem_cons] at hEvents
      have hStep : walk.space.step event = walk.space := by
        cases event with
        | comment span => rfl
        | filler token =>
            have hPlace : (walk.place.absorb .space).absorb token = walk.place.absorb .space := by
              cases walk.place <;> simp [Place.absorb, Capture.absorb_space hEvents.1]
            rw [step, space, hPlace]
        | _ => exact hEvents.1.elim
      have hRest := ih hEvents.2
      rw [run] at hRest ⊢
      rw [List.foldl_cons, hStep, hRest]

/-- A blank outside of comments, strings and directives is a filler. -/
theorem Reader.emitted_blank (hCode : reader.mode = .code) (hBlank : token.isBlank = true)
    (rest : List Token) : reader.emitted token rest = [.filler token] := by
  have hMode : reader.forget.mode = .code := hCode
  rw [emitted, read, hMode]
  dsimp only
  rw [readCode_blank hBlank]
  rfl

theorem Mode.eq_code_of_resumes {mode : Mode} (h : mode.resumes? = some none) : mode = .code := by
  cases mode <;> first
    | rfl
    | cases h

/-- Tokens of blanks within lines change no mode. -/
theorem Reader.mode_readOver_gaps {rest : List Token}
    (hGaps : ∀ token ∈ tokens, ∀ c ∈ token.text.toList, Delimiter.isGap c = true) :
    (reader.readOver tokens rest).mode = reader.mode := by
  induction tokens generalizing reader with
  | nil => rfl
  | cons token tokens ih =>
      rw [List.forall_mem_cons] at hGaps
      have hNot : ∀ text : String, (∃ c ∈ text.toList, Delimiter.isGap c = false) →
          token.text ≠ text := by
        rintro text ⟨c, hMem, hGap⟩ rfl
        rw [hGaps.1 c hMem] at hGap
        cases hGap
      have hSentinel : token.isSentinel = false := by
        have hText := hNot Token.sentinelText ⟨'E', by decide, rfl⟩
        simp [Token.isSentinel, hText]
      have hDirective : isLineDirective token.text = false := by
        rw [isLineDirective, List.contains_eq_mem, decide_eq_false_iff_not]
        intro hMem
        have hTick : ∀ text ∈ lineDirectives, '`' ∈ text.toList := by decide
        exact hNot token.text ⟨'`', hTick _ hMem, rfl⟩ rfl
      have hLine := hNot "\n" ⟨'\n', by decide, rfl⟩
      have hRead : (reader.read token (tokens ++ rest)).mode = reader.mode := by
        rw [read]
        cases hMode : reader.mode with
        | lineComment start =>
            dsimp only
            rw [if_neg hLine, hMode]
        | blockComment start =>
            dsimp only
            rw [if_neg (hNot "*/" ⟨'*', by decide, rfl⟩), hMode]
        | directive start => simp [hLine, hSentinel, hMode]
        | string => simp [hNot "\"" ⟨'"', by decide, rfl⟩]
        | code =>
            dsimp only
            rw [readCode, if_neg (hNot "//" ⟨'/', by decide, rfl⟩),
              if_neg (hNot "/*" ⟨'/', by decide, rfl⟩), if_neg (hNot "\"" ⟨'"', by decide, rfl⟩),
              hSentinel, hDirective, if_neg Bool.false_ne_true, if_neg Bool.false_ne_true]
            split <;> exact hMode
      exact (ih hGaps.2).trans hRead

/-- What a reader is behind tokens does not depend on the words behind them. -/
theorem Reader.forget_readOver_ahead (reader : Reader) (tokens rest rest' : List Token) :
    (reader.readOver tokens rest').forget = (reader.readOver tokens rest).forget := by
  induction tokens generalizing reader with
  | nil => rfl
  | cons token tokens ih =>
      have hRead : (reader.read token (tokens ++ rest')).forget =
          (reader.read token (tokens ++ rest)).forget := by
        rw [read, read]
        cases reader.mode with
        | code =>
            dsimp only
            rw [readCode, readCode]
            repeat' split
            all_goals rfl
        | _ => rfl
      rw [readOver, readOver, ← ih, ← isReader.forget_readOver, hRead, isReader.forget_readOver]

/-- Behind a layout a reader is outside of strings, and no quote is escaped. -/
theorem Reader.readOver_space (h : AreSpace comments tokens) (hCode : reader.mode = .code)
    (rest : List Token) :
    (reader.readOver tokens rest).mode = .code ∧
    (reader.readOver tokens rest).isEscaped = false := by
  have hResumes := (readOver_of_passOver rest (congrArg Mode.resumes? hCode) h.passes).1
  refine ⟨Mode.eq_code_of_resumes hResumes, ?_⟩
  obtain ⟨lead, last, rfl, c, hLast, hBlank⟩ := h.ends
  have hPassed : ((reader.readOver (lead ++ [last]) rest)).passed = some last := by
    rw [isReader.readOver_append]
    rfl
  rw [isEscaped, hPassed, Option.any_some, decide_eq_false_iff_not]
  intro hBackslash
  obtain rfl : c = '\\' := Option.some.inj (hLast.symm.trans hBackslash)
  cases hBlank

/-- A layout is one space. -/
theorem Walk.run_space (h : AreSpace comments tokens) (hCode : reader.mode = .code)
    (rest : List Token) : walk.run (reader.emittedOver tokens rest) = walk.space := by
  have hPass := h.passes
  obtain ⟨empty, white, more, rfl, hEmpty, hBlank, hSome⟩ := h.begins
  -- The first blank is collected, and what comes behind it is layout.
  have hWhite : ∀ {reader : Reader}, reader.mode = .code →
      Token.passOver comments none (white :: more) = some none →
      walk.run (reader.emittedOver (white :: more) rest) = walk.space := by
    intro reader hCode hPass
    rw [Token.passOver, if_pos hBlank] at hPass
    have hRead : (reader.read white (more ++ rest)).mode.resumes? = some none :=
      (reader.read_of_passOver _ (congrArg Mode.resumes? hCode)
        (Token.passOver_blanks (by simpa using hBlank))).1
    have hLayout := (Reader.readOver_of_passOver rest hRead hPass).2
    rw [Reader.emittedOver, Reader.emitted_blank hCode hBlank, List.singleton_append, run,
      List.foldl_cons, step_blank hBlank hSome]
    exact run_layout hLayout
  rcases hEmpty with rfl | ⟨offset, rfl⟩
  · exact hWhite hCode hPass
  · have hNone : (Token.placed offset []).isBlank = true := Token.isBlank_placed offset []
    rw [List.singleton_append, Token.passOver_placed_nil] at hPass
    have hRead : (reader.read (.placed offset []) (white :: more ++ rest)).mode = .code :=
      Mode.eq_code_of_resumes (reader.read_of_passOver (white :: more ++ rest)
        (congrArg Mode.resumes? hCode) (Token.passOver_blanks (by simpa using hNone))).1
    rw [List.singleton_append, Reader.emittedOver, Reader.emitted_blank hCode hNone,
      List.singleton_append, run, List.foldl_cons, step_empty rfl]
    exact hWhite hRead hPass

end Walking

instance (event : Event) : Decidable event.IsLayout :=
  match event with
  | .comment _ => .isTrue trivial
  | .filler token => inferInstanceAs (Decidable (token.isBlank = true))
  | .directive _ | .word .. | .ended _ => .isFalse id

/-- A text that is nothing but layout: it begins and ends with white space, and all that a reader
finds in it is blanks and comments, of which none is open at its end. -/
structure IsLayoutText (text : String) : Prop where
  begins : ∃ c ∈ text.toList.head?, Text.isAsciiBlank c = true
  ends : ∃ c ∈ text.toList.getLast?, Text.isAsciiBlank c = true
  code : (Reader.readAll {} (tokens none text).proper).mode = .code
  wordless : ∀ event ∈ (Reader.readAll {} (tokens none text).proper).events, event.IsLayout

instance (text : String) : Decidable (IsLayoutText text) :=
  -- Of all characters only the one that may be there is tried.
  haveI (last : Option Char) : Decidable (∃ c ∈ last, Text.isAsciiBlank c = true) :=
    Option.decidableExistsMem last
  decidable_of_iff (_ ∧ _ ∧ _ ∧ _)
    ⟨fun ⟨begins, ends, code, wordless⟩ => ⟨begins, ends, code, wordless⟩,
      fun ⟨begins, ends, code, wordless⟩ => ⟨begins, ends, code, wordless⟩⟩

section Layout

variable {reader : Reader} {token : Token} {tokens : List Token} {closer : Option String}

/-- Looking ahead passes over a token that is layout to a reader, unless it opens a directive. -/
theorem Reader.passOver_of_read (rest : List Token) (hMode : reader.mode.resumes? = some closer)
    (hEmitted : ∀ event ∈ reader.emitted token rest, event.IsLayout) :
    (∃ after, Token.passOver comments closer [token] = some after ∧
      (reader.read token rest).mode.resumes? = some after) ∨
    ∃ start, (reader.read token rest).mode = .directive start := by
  have hTakes := reader.takes token rest
  generalize reader.read token rest = later at hTakes
  generalize reader.emitted token rest = events at hTakes hEmitted
  cases hTakes with
  | opensLine hCase hText hAfter =>
      rw [hCase] at hMode
      obtain rfl := Option.some.inj hMode
      simp [Token.passOver, Token.isBlank, hText, Text.isAsciiBlank, comments, hAfter,
        Mode.resumes?]
  | opensBlock hCase hText hAfter =>
      rw [hCase] at hMode
      obtain rfl := Option.some.inj hMode
      simp [Token.passOver, Token.isBlank, hText, Text.isAsciiBlank, comments, hAfter,
        Mode.resumes?]
  | opensDirective hCase hText hAfter => exact .inr ⟨_, hAfter⟩
  | inLine hCase hText hAfter =>
      rw [hCase] at hMode
      obtain rfl := Option.some.inj hMode
      simp [Token.passOver, hText, hAfter, Mode.resumes?]
  | inBlock hCase hText hAfter =>
      rw [hCase] at hMode
      obtain rfl := Option.some.inj hMode
      simp [Token.passOver, hText, hAfter, Mode.resumes?]
  | inDirective hCase hAfter => exact .inr ⟨_, hAfter⟩
  | closesLine hCase hText hAfter =>
      rw [hCase] at hMode
      obtain rfl := Option.some.inj hMode
      simp [Token.passOver, hText, hAfter, Mode.resumes?]
  | closesBlock hCase hText hAfter =>
      rw [hCase] at hMode
      obtain rfl := Option.some.inj hMode
      simp [Token.passOver, hText, hAfter, Mode.resumes?]
  | inString hCase | closesDirective hCase =>
      rw [hCase] at hMode
      cases hMode
  | quote hCase hText =>
      have hBlank : token.isBlank = true := hEmitted _ (List.mem_singleton_self _)
      simp [Token.isBlank, hText, Text.isAsciiBlank] at hBlank
  | blank hCase hBlank hAfter =>
      rw [hCase] at hMode
      obtain rfl := Option.some.inj hMode
      simp [Token.passOver, hBlank, hAfter, Mode.resumes?]
  | ended => exact (hEmitted _ (List.mem_singleton_self _)).elim
  | word => exact (hEmitted _ (List.mem_singleton_self _)).elim

/-- A directive is not left without a trace. -/
theorem Reader.readOver_directive {start : Nat} (rest : List Token)
    (hMode : reader.mode = .directive start)
    (hEmitted : ∀ event ∈ reader.emittedOver tokens rest, event.IsLayout) :
    (reader.readOver tokens rest).mode = .directive start := by
  induction tokens generalizing reader with
  | nil => exact hMode
  | cons token tokens ih =>
      obtain ⟨hHere, hThere⟩ := List.forall_mem_append.1 hEmitted
      have hRead : (reader.read token (tokens ++ rest)).mode = .directive start := by
        have hForget : reader.forget.mode = .directive start := hMode
        rw [emitted, read, hForget] at hHere
        rw [read, hMode]
        dsimp only at hHere ⊢
        split
        · next hEnd =>
          rw [if_pos hEnd] at hHere
          exact (hHere (.directive ⟨start, token.span.start⟩) (by simp [emit])).elim
        · exact hMode
      exact ih hRead hThere

/-- What a reader passes over outside of code is what the look-ahead passes over, if the reader is
back in code at its end. -/
theorem Reader.passOver_of_readOver (rest : List Token) (hMode : reader.mode.resumes? = some closer)
    (hEmitted : ∀ event ∈ reader.emittedOver tokens rest, event.IsLayout)
    (hCode : (reader.readOver tokens rest).mode = .code) :
    Token.passOver comments closer tokens = some none := by
  induction tokens generalizing reader closer with
  | nil =>
      have hHere : reader.mode = .code := hCode
      rw [hHere] at hMode
      obtain rfl := Option.some.inj hMode
      rfl
  | cons token tokens ih =>
      obtain ⟨hHere, hThere⟩ := List.forall_mem_append.1 hEmitted
      rcases reader.passOver_of_read (tokens ++ rest) hMode hHere with
        ⟨middle, hFirst, hMiddle⟩ | ⟨start, hDirective⟩
      · rw [← List.singleton_append, Token.passOver_append, hFirst]
        exact ih hMiddle hThere hCode
      · have hStays := readOver_directive rest hDirective hThere
        cases hStays.symm.trans hCode

/-- Looking ahead passes over such a text. -/
theorem IsLayoutText.isLayout {text : String} (h : IsLayoutText text) :
    IsLayout delimiters comments text.toList := by
  obtain ⟨c, hFirst, hFirstBlank⟩ := h.begins
  obtain ⟨d, hLast, hLastBlank⟩ := h.ends
  obtain ⟨tokens, opened, hTokens⟩ := SplitsUpTo.total delimiters 0 text.toList
  have hEnd : opened = false := by
    refine hTokens.opened_eq_false delimiters_areBroken fun e hMem => ?_
    obtain rfl := Option.some.inj (hLast.symm.trans hMem)
    exact Delimiter.isWhite_of_isAsciiBlank hLastBlank
  subst hEnd
  have hCode := h.code
  have hWordless := h.wordless
  rw [proper_tokens hTokens, Reader.isReader.readAll_eq_readOver] at hCode hWordless
  have hEmitted : ∀ event ∈ Reader.emittedOver {} tokens [], event.IsLayout := by
    have hForget : ({} : Reader).forget = {} := rfl
    rw [Reader.isReader.emittedOver_eq, hForget]
    simpa using hWordless
  refine ⟨?_, ?_, tokens, hTokens, Reader.passOver_of_readOver [] rfl hEmitted hCode⟩
  · obtain ⟨rest, hText⟩ := List.head?_eq_some_iff.1 hFirst
    exact ⟨c, rest, hText, hFirstBlank⟩
  · obtain ⟨front, hText⟩ := List.getLast?_eq_some_iff.1 hLast
    exact ⟨front, d, hText, hLastBlank⟩

end Layout

open String (utf8Len)

/-- The table of a text at another place. -/
def Table.moved (move : Nat → Nat) (table : Table) : Table :=
  { table with
    toFindings := table.toFindings.moved move
    includeFiles := table.includeFiles.moved move
    comments := table.comments.moved move
    keywords := table.keywords.map (·.moved move) }

/-- A table without what it quotes from the text: the comments, and the text of the parameter
list. -/
def Table.unquoted (table : Table) : Table := { table with genericDefinition := "", comments := {} }

section Reading

variable {move : Nat → Nat} {chars chars' : List Char} {first space space' second : List Token}
  {size : Nat} {front layout layout' back : List Event} {text text' : String}

/-- The first part of one text's events and the last part are those of the other one, moved. In
between both have layout, which is one space to every walk. What directives quote is the same. -/
structure Event.AreRelaid (move : Nat → Nat) (chars chars' : List Char)
    (front layout layout' back : List Event) : Prop where
  wordless : ∀ event ∈ layout ++ layout', event.IsLayout
  spaced (walk : Walk) : walk.run layout = walk.space ∧ walk.run layout' = walk.space
  rigid : ∀ event ∈ front ++ back, event.All (·.IsRigid move)
  kept : ∀ event ∈ front ++ back, ∀ span ∈ event.directive?, span.IsKept move chars chars'

/-- A directive that is moved as a whole includes what it included. -/
theorem includedFile?_moved {span : Span} (h : span.IsKept move text.toList text'.toList) :
    includedFile? text' (span.moved move) = (includedFile? text span).map (·.moved move) := by
  have hSlice := h.slice
  have hTogether := h.together
  rw [String.ofList_toList, String.ofList_toList] at hSlice
  rw [String.ofList_toList] at hTogether
  rw [includedFile?, includedFile?, hSlice]
  dsimp only
  split
  · set lead := (span.slice text).toList.takeWhile (· != '"') with hLead
    split
    · rfl
    · next quote rest hRest =>
      set name := rest.takeWhile (· != '"') with hName
      split
      · -- The name ends in the line, so that its two ends are moved with the beginning of the line.
        have hLine : (span.slice text).toList = lead ++ quote :: rest := by
          have hPrefix : lead <+: (span.slice text).toList := List.takeWhile_prefix _
          rw [← hRest]
          exact (List.prefix_append_drop hPrefix)
        have hFile : utf8Len name ≤ utf8Len rest :=
          String.utf8Len_le_of_prefix (List.takeWhile_prefix _)
        have hQuote := quote.utf8Size_pos
        have hSize : utf8Len lead + 1 + utf8Len name ≤ (span.slice text).utf8ByteSize := by
          rw [← String.utf8Len_toList, hLine, String.utf8Len_append, String.utf8Len_cons]
          omega
        have hStart := hTogether (utf8Len lead + 1) (by omega)
        have hStop := hTogether (utf8Len lead + 1 + utf8Len name) hSize
        simp only [Option.map_some, Word.moved, Span.moved, String.utf8ByteSize_ofList,
          Nat.add_assoc] at hStart hStop ⊢
        rw [hStart, hStop]
      · rfl
  · rfl

/-- A reader outside of comments and strings sees through every layout alike. -/
theorem Reader.Sees.through (h : AreSpace comments space) (h' : AreSpace comments space')
    (rest : List Token) :
    Reader.Sees move .code (space ++ rest) (space' ++ rest.map (·.moved move)) := by
  intro closer hCloser
  obtain rfl := Option.some.inj hCloser
  rw [Token.nextSignificant_append_of_passOver h.passes,
    Token.nextSignificant_append_of_passOver h'.passes, Token.nextSignificant_moved]

/-- Two readers that match in front of a layout match behind it, whatever they have read there. -/
theorem Reader.Matches.readOver_space {near near' : Reader} (h : Reader.Matches move near near')
    (hSpace : AreSpace comments space) (hSpace' : AreSpace comments space')
    (hCode : near.mode = .code) (rest rest' : List Token) :
    near'.mode = .code ∧
      Reader.Matches move (near.readOver space rest).forget
        (near'.readOver space' rest').forget := by
  have hCode' : near'.mode = .code := by
    rw [h.mode, hCode]
    rfl
  obtain ⟨hMode, hEscaped⟩ := Reader.readOver_space hSpace hCode rest
  obtain ⟨hMode', hEscaped'⟩ := Reader.readOver_space hSpace' hCode' rest'
  exact ⟨hCode',
    { mode := hMode'.trans (congrArg (Mode.moved move) hMode.symm)
      escaped := hEscaped'.trans hEscaped.symm
      events := by simp [Reader.forget] }⟩

/-- What directives quote lies in front of a layout or behind it, and so it is kept. -/
theorem Reader.directive?_isKept {later : Reader} {stop start : Nat}
    (hCode : later.mode = .code) (hBegin : Contiguous 0 first stop)
    (hEnd : Contiguous start second size)
    (hKept : ∀ span : Span, span.start ≤ span.stop → span.stop ≤ stop ∨ start ≤ span.start →
      span.IsKept move chars chars') (rest : List Token) :
    ∀ event ∈ Reader.emittedOver {} first rest ++ later.upcoming size second,
      ∀ span ∈ event.directive?, span.IsKept move chars chars' := by
  rw [List.forall_mem_append]
  constructor <;> intro event hMem span hSpan
  · have hFirst := (All.start _ 0).emittedOver (fun _ => TokenAll.stop_le hBegin) hBegin rest
    have hDirective := (hFirst event hMem).directive? span hSpan
    exact hKept span hDirective.ordered (.inl hDirective.stop)
  · rw [← isReader.upcoming_forget] at hMem
    have hSecond := (All.of_code hCode start).upcoming (fun _ => TokenAll.le_start hEnd) hEnd
      (Nat.le_refl _) hEnd.le
    have hDirective := (hSecond event hMem).directive? span hSpan
    exact hKept span hDirective.ordered (.inr hDirective.start)

/-- The events of two texts that differ in the layout at one place. -/
theorem exists_relaid (hSpace : AreSpace comments space) (hSpace' : AreSpace comments space')
    (hFirst : first.map (·.moved move) = first)
    (hRigid : ∀ token ∈ first ++ second, TokenAll (·.IsRigid move) token)
    (hKept : ∃ stop start, Contiguous 0 first stop ∧ Contiguous start second size ∧
      ∀ span : Span, span.start ≤ span.stop → span.stop ≤ stop ∨ start ≤ span.start →
        span.IsKept move chars chars')
    (hCode : (Reader.readOver {} first (space ++ second)).mode = .code) :
    ∃ front layout layout' back, Event.AreRelaid move chars chars' front layout layout' back ∧
      readEvents size (first ++ space ++ second) = front ++ layout ++ back ∧
      readEvents (move size) (first ++ space' ++ second.map (·.moved move)) =
        front.map (·.moved move) ++ layout' ++ back.map (·.moved move) := by
  set second' := second.map (·.moved move) with hSecond
  set near := Reader.readOver {} first (space ++ second) with hNear
  set near' := Reader.readOver {} first (space' ++ second') with hNear'
  obtain ⟨hRigidFirst, hRigidSecond⟩ := List.forall_mem_append.1 hRigid
  obtain ⟨stop, start, hBegin, hEnd, hSpans⟩ := hKept
  have hSees : Reader.Sees move near.mode (space ++ second) (space' ++ second') := by
    rw [hCode]
    exact .through hSpace hSpace' second
  have hStart : Reader.Matches move {} {} := ⟨rfl, rfl, by simp⟩
  -- In front of the layout the two readers match, and so they do behind it.
  have hMatches : Reader.Matches move near near' := by
    have hBoth := hStart.readOver hRigidFirst hSees
    rwa [hFirst] at hBoth
  have hFront : Reader.emittedOver {} first (space' ++ second') =
      (Reader.emittedOver {} first (space ++ second)).map (·.moved move) := by
    have hBoth := hStart.emittedOver_eq hRigidFirst hSees
    rwa [hFirst] at hBoth
  obtain ⟨hCode', hFar⟩ := hMatches.readOver_space hSpace hSpace' hCode second second'
  have hBack : (near'.readOver space' second').upcoming (move size) second' =
      ((near.readOver space second).upcoming size second).map (·.moved move) := by
    rw [← Reader.isReader.upcoming_forget, hFar.upcoming_eq size hRigidSecond,
      Reader.isReader.upcoming_forget]
  have hMode := (Reader.readOver_space hSpace hCode second).1
  have hLast : ∀ event ∈ (near.readOver space second).upcoming size second,
      event.All (·.IsRigid move) := by
    rw [← Reader.isReader.upcoming_forget]
    exact (Reader.All.of_code hMode start).upcoming hRigidSecond hEnd (Nat.le_refl _)
      (Word.isRigid_absent move size)
  refine ⟨Reader.emittedOver {} first (space ++ second), near.emittedOver space second,
    near'.emittedOver space' second', (near.readOver space second).upcoming size second,
    { wordless := ?wordless, spaced := ?spaced, rigid := ?rigid, kept := ?kept }, ?here, ?there⟩
  case wordless =>
    exact List.forall_mem_append.2
      ⟨(Reader.readOver_of_passOver second (congrArg Mode.resumes? hCode) hSpace.passes).2,
        (Reader.readOver_of_passOver second' (congrArg Mode.resumes? hCode') hSpace'.passes).2⟩
  case spaced =>
    exact fun walk => ⟨Walk.run_space hSpace hCode second, Walk.run_space hSpace' hCode' second'⟩
  case rigid =>
    exact List.forall_mem_append.2
      ⟨(Reader.All.start _ 0).emittedOver hRigidFirst hBegin _, hLast⟩
  case kept => exact Reader.directive?_isKept hMode hBegin hEnd hSpans _
  case here =>
    rw [readEvents_eq_upcoming, List.append_assoc, Reader.isReader.upcoming_append,
      Reader.isReader.upcoming_append, List.append_assoc]
  case there =>
    rw [readEvents_eq_upcoming, List.append_assoc, Reader.isReader.upcoming_append,
      Reader.isReader.upcoming_append, hFront, hBack, List.append_assoc]

end Reading

section Tables

theorem Walk.space_moved (move : Nat → Nat) (walk : Walk) :
    (walk.moved move).space = walk.space.moved move := by
  have hPlace : (walk.place.moved move).absorb .space = (walk.place.absorb .space).moved move :=
    absorb_moved move walk.place .space
  rw [space, space, moved, moved, hPlace]

variable {move : Nat → Nat} {first space : List Token} {opened : Bool}
  {front layout layout' back : List Event} {pre run gap post text text' : String}

/-- Two texts that differ in the layout at one place are walked through alike. -/
theorem Event.AreRelaid.walkThrough {chars chars' : List Char}
    (h : Event.AreRelaid move chars chars' front layout layout' back)
    (hMove : Monotone move) (hZero : move 0 = 0) (region : Region) (size : Nat) :
    walkThrough region (front.map (·.moved move) ++ layout' ++ back.map (·.moved move))
      (move size) = (walkThrough region (front ++ layout ++ back) size).moved move := by
  obtain ⟨hFrontRigid, hBackRigid⟩ := List.forall_mem_append.1 h.rigid
  have hFrontAll := Walk.All.run (.start region) (isRigid_located move) hFrontRigid
  have hSpace : ((Walk.start region).run front).space.All (·.IsRigid move) (fun _ => True) := by
    have hStep : (((Walk.start region).run front).step (.filler .space)).All (·.IsRigid move)
        (fun _ => True) := hFrontAll.step (isRigid_located move) trivial
    exact hStep
  have hFront := Walk.run_moved (.start region) hMove hFrontRigid
  rw [Walk.start_moved region hZero] at hFront
  have hMoved := ((Walk.start region).run front).space_moved move
  have hBack := Walk.run_moved hSpace hMove hBackRigid
  rw [Verilog.walkThrough, Verilog.walkThrough, Walk.run_append, Walk.run_append, Walk.run_append,
    Walk.run_append, hFront, (h.spaced _).1, (h.spaced _).2, hMoved, hBack]
  exact Walk.finish_moved hMove size

/-- Layout has no keywords and no directives. -/
theorem keywords_layout {layout : List Event} (h : ∀ event ∈ layout, event.IsLayout) :
    layout.filterMap Event.keyword? = [] ∧ layout.filterMap Event.directive? = [] := by
  rw [List.filterMap_eq_nil_iff, List.filterMap_eq_nil_iff]
  refine ⟨fun event hMem => ?_, fun event hMem => ?_⟩ <;>
  · have hLayout := h event hMem
    cases event <;> first
      | rfl
      | exact hLayout.elim

theorem keyword?_moved (move : Nat → Nat) (event : Event) :
    (event.moved move).keyword? = event.keyword?.map (·.moved move) := by
  cases event with
  | word here next =>
      show (if (here.moved move).symbol.isKeyword then _ else _) = _
      rw [Lexeme.symbol_moved, Event.keyword?]
      split <;> rfl
  | _ => rfl

theorem directive?_moved (move : Nat → Nat) (event : Event) :
    (event.moved move).directive? = event.directive?.map (·.moved move) := by
  cases event <;> rfl

/-- The keywords of both texts are those in front of the layout and those behind it. -/
theorem Event.AreRelaid.keywords {chars chars' : List Char}
    (h : Event.AreRelaid move chars chars' front layout layout' back) :
    (front.map (·.moved move) ++ layout' ++ back.map (·.moved move)).filterMap Event.keyword? =
      ((front ++ layout ++ back).filterMap Event.keyword?).map (·.moved move) := by
  have hWordless := List.forall_mem_append.1 h.wordless
  simp only [List.filterMap_append, (keywords_layout hWordless.1).1,
    (keywords_layout hWordless.2).1, List.filterMap_map, List.map_append, List.map_filterMap,
    List.append_nil, Function.comp_def,
    keyword?_moved]

/-- So are the files that directives include. -/
theorem Event.AreRelaid.includeFiles
    (h : Event.AreRelaid move text.toList text'.toList front layout layout' back) :
    ((front.map (·.moved move) ++ layout' ++ back.map (·.moved move)).filterMap
        Event.directive?).filterMap (includedFile? text') =
      (((front ++ layout ++ back).filterMap Event.directive?).filterMap (includedFile? text)).map
        (·.moved move) := by
  have hWordless := List.forall_mem_append.1 h.wordless
  have hPart : ∀ events : List Event, (∀ event ∈ events, ∀ span ∈ event.directive?,
      span.IsKept move text.toList text'.toList) →
      ((events.map (·.moved move)).filterMap Event.directive?).filterMap (includedFile? text') =
        ((events.filterMap Event.directive?).filterMap (includedFile? text)).map
          (·.moved move) := by
    intro events hKept
    rw [List.filterMap_map, List.filterMap_filterMap, List.filterMap_filterMap, List.map_filterMap]
    refine List.filterMap_congr fun event hMem => ?_
    rw [Function.comp_apply, directive?_moved]
    cases hSpan : event.directive? with
    | none => rfl
    | some span => exact includedFile?_moved (hKept event hMem span hSpan)
  obtain ⟨hFront, hBack⟩ := List.forall_mem_append.1 h.kept
  simp only [List.filterMap_append, (keywords_layout hWordless.1).2,
    (keywords_layout hWordless.2).2, List.append_nil, hPart front hFront, hPart back hBack,
    List.map_append]

/-- Texts with such events have one table, but for its places and its quotes. -/
theorem Event.AreRelaid.scan
    (h : Event.AreRelaid move text.toList text'.toList front layout layout' back)
    (hEvents : readEvents text.utf8ByteSize (tokens none text).list = front ++ layout ++ back)
    (hEvents' : readEvents text'.utf8ByteSize (tokens none text').list = front.map (·.moved move) ++
      layout' ++ back.map (·.moved move))
    (hMove : Monotone move) (hZero : move 0 = 0)
    (hSize : move text.utf8ByteSize = text'.utf8ByteSize) (region : Region) :
    (Verilog.scan region none text').table.unquoted =
      ((Verilog.scan region none text).table.moved move).unquoted := by
  have hWalk := h.walkThrough hMove hZero region text.utf8ByteSize
  have hKeywords := h.keywords
  have hIncluded := h.includeFiles
  rw [← hEvents, ← hEvents'] at hWalk hKeywords hIncluded
  rw [hSize] at hWalk
  set walk :=
    Verilog.walkThrough region (readEvents text.utf8ByteSize (Verilog.tokens none text).list)
      text.utf8ByteSize with hDefinition
  have hAll : walk.found.All (·.StandsIn text) (fun type => type.span.Within text) :=
    walkThrough_located region none text
  have hAll' := walkThrough_located region none text'
  rw [hWalk] at hAll'
  have hDiagnostics : diagnose (walk.moved move) (Verilog.tokens none text').scanned
      text'.utf8ByteSize = diagnose walk (Verilog.tokens none text).scanned text.utf8ByteSize := by
    rw [diagnose, diagnose, hAll.ragged_eq_nil, hAll'.ragged_eq_nil, scanned_tokens,
      scanned_tokens, if_neg (Nat.lt_irrefl _), if_neg (Nat.lt_irrefl _)]
    rfl
  have hTable : (Verilog.scan region none text).table = tabulate text
      (readEvents text.utf8ByteSize (Verilog.tokens none text).list)
      (Verilog.tokens none text).scanned walk := rfl
  have hTable' : (Verilog.scan region none text').table = tabulate text'
      (readEvents text'.utf8ByteSize (Verilog.tokens none text').list)
      (Verilog.tokens none text').scanned (walk.moved move) := by
    rw [← hWalk]
    rfl
  rw [hTable, hTable', tabulate, tabulate, hAll.align_eq_self, hAll'.align_eq_self, hKeywords,
    hIncluded, hDiagnostics]
  simp [Table.unquoted, Table.moved, Walk.moved, Words.moved]

/-- Behind words that end outside of comments, strings and directives, in front of blanks, a reader
is there. -/
theorem mode_of_proper {blanks : List Token}
    (hSplits : SplitsUpTo delimiters 0 pre.toList (first ++ blanks) opened)
    (hBlanks : ∀ token ∈ blanks, ∀ c ∈ token.text.toList, Delimiter.isGap c = true)
    (hCode : (Reader.readAll {} (tokens none pre).proper).mode = .code) (rest : List Token) :
    (Reader.readOver {} first rest).mode = .code := by
  rw [proper_tokens hSplits, Reader.isReader.readAll_eq_readOver, Reader.isReader.readOver_append,
    Reader.mode_readOver_gaps hBlanks] at hCode
  exact (congrArg Reader.mode (Reader.forget_readOver_ahead {} first _ rest)).trans hCode

/-- Layout in place of layout leaves the table of a text as it is, but for its places and its
quotes. -/
theorem scan_relaid (region : Region) (hRun : IsLayoutText run) (hGap : IsLayoutText gap)
    (hPre : '\x0b' ∉ pre.toList) (hPost : '\x0b' ∉ post.toList)
    (hCode : (Reader.readAll {} (tokens none pre).proper).mode = .code) :
    ∃ move, Monotone move ∧ (scan region none (pre ++ gap ++ post)).table.unquoted =
      ((scan region none (pre ++ run ++ post)).table.moved move).unquoted := by
  obtain ⟨move, first, space, space', second, opened, blanks, opened', h, hPieces, hBlanks⟩ :=
    exists_areRelaid delimiters_areBroken comments_areSolid hRun.isLayout hGap.isLayout hPre hPost
  rw [← String.toList_append, ← String.toList_append, ← String.toList_append,
    ← String.toList_append] at h
  set text := pre ++ run ++ post with hText
  set text' := pre ++ gap ++ post with hText'
  have hSize : move text.utf8ByteSize = text'.utf8ByteSize := by
    have hSame := h.size
    rwa [String.utf8Len_toList, String.utf8Len_toList] at hSame
  set sentinel := Token.sentinel text.utf8ByteSize with hSentinel
  have hSentinel' : Token.sentinel text'.utf8ByteSize = sentinel.moved move := by
    rw [hSentinel, ← hSize]
    rfl
  have hList : (tokens none text).list = first ++ space ++ (second ++ [sentinel]) := by
    rw [(list_tokens h.splits).1, List.append_assoc]
  have hList' : (tokens none text').list =
      first ++ space' ++ (second ++ [sentinel]).map (·.moved move) := by
    rw [(list_tokens h.splits').1, hSentinel', List.map_append, List.append_assoc]
    rfl
  have hRigid : ∀ token ∈ first ++ (second ++ [sentinel]), TokenAll (·.IsRigid move) token := by
    rw [← List.append_assoc]
    have hAbsent := Word.isRigid_absent move
    refine List.forall_mem_append.2 ⟨fun token hMem => ?_, fun token hMem => ?_⟩
    · exact ⟨hAbsent _, hAbsent _, fun _ => h.rigid token hMem⟩
    · obtain rfl := List.mem_singleton.1 hMem
      exact ⟨hAbsent _, hAbsent _, by simp [hSentinel]⟩
  have hKept : ∃ stop start, Contiguous 0 first stop ∧
      Contiguous start (second ++ [sentinel]) text.utf8ByteSize ∧
      ∀ span : Span, span.start ≤ span.stop → span.stop ≤ stop ∨ start ≤ span.start →
        span.IsKept move text.toList text'.toList := by
    obtain ⟨stop, start, hBegin, hEnd, hSpans⟩ := h.kept
    rw [String.utf8Len_toList] at hEnd
    exact ⟨stop, start, hBegin, hEnd.append ⟨rfl, Nat.le_refl _, rfl⟩, hSpans⟩
  have hHere := mode_of_proper hPieces hBlanks hCode (space ++ (second ++ [sentinel]))
  obtain ⟨front, layout, layout', back, hRelaid, hEvents, hEvents'⟩ :=
    exists_relaid h.space h.space' h.before hRigid hKept hHere
  rw [← hList] at hEvents
  rw [← hList', hSize] at hEvents'
  exact ⟨move, h.monotone, hRelaid.scan hEvents hEvents' h.monotone h.zero hSize region⟩

end Tables

end HdlIndex.Verilog

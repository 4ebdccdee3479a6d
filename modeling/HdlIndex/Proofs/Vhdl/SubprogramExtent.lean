import HdlIndex.Proofs.Computed
import HdlIndex.Proofs.Vhdl.ElementReading
import HdlIndex.Proofs.Vhdl.Passages
import HdlIndex.Proofs.Vhdl.ProcessExtent
import HdlIndex.Proofs.Vhdl.SubprogramParameters
import HdlIndex.Proofs.Vhdl.SubprogramText

/-! The extent of a subprogram. The walk passes over a body, and it stays inside as long as the body
does. So it comes back to where the subprogram is declared behind its last semicolon, and what it
has found by then is what the heading gives. -/
namespace HdlIndex.Vhdl

namespace Walk

/-- The walk is inside of a body, and it tells whether the word in front of it is `end`. -/
structure Within (base : Walk) (home : Home) (ended : Bool) (nest : BodyNest) (last : Option Lexeme)
    (walk : Walk) : Prop where
  stands : base.Stands (.subprogramBody home nest) walk
  last : isNext last .end = ended

variable {base walk : Walk} {home : Home} {nest : BodyNest} {last next : Option Lexeme}
  {word : Token} {texts : List String}

theorem Within.isIdle (base : Walk) (home : Home) (ended : Bool) (nest : BodyNest) :
    IsIdle (base.Within home ended nest) := by
  intro event last walk hEvent h
  have hIdle : IsIdle (base.At (.subprogramBody home nest)) := At.isIdle fun _ _ => rfl
  exact ⟨hIdle event last walk hEvent h.stands, h.last⟩

/-- A word of a clause changes nothing but the number of open parentheses. -/
theorem Stands.step_clause (nest : BodyNest) (h : base.Stands (.subprogramBody home nest) walk)
    {depth : Nat} (hDepth : clauseDepth nest.depth word.text = some depth)
    (hIs : nest.pending = true → word.text ≠ "is") (next : Option Lexeme) :
    base.Within home false { nest with depth } (some (.ofToken word))
      (walk.step (.word (.ofToken word) last next)) := by
  have hText {spelling : String} (hSpelling : (Lexeme.ofToken word).symbol.spelling? =
      some spelling) : word.text = spelling := Symbol.eq_of_spelling? hSpelling
  have hNext {place : Place} (hRead : ∀ notes,
        ({ base with place := .subprogramBody home nest, notes } : Walk).readSubprogramBody home
          nest (.ofToken word) last next = { base with place, notes }) :
      base.Stands place (walk.step (.word (.ofToken word) last next)) :=
    Stands.step_word h fun notes => ⟨notes, hRead notes⟩
  obtain ⟨hOpen, rfl⟩ | ⟨hClose, hDepth⟩ | ⟨hWord, hSemicolon, rfl⟩ := clauseDepth_cases hDepth
  · have hSymbol : (Lexeme.ofToken word).symbol = .parenOpen := Lexeme.symbol_ofToken hOpen
    refine ⟨hNext fun notes => ?_, by rw [isNext_ofToken, hOpen]; rfl⟩
    rw [readSubprogramBody, hSymbol]
    rfl
  · have hSymbol : (Lexeme.ofToken word).symbol = .parenClose := Lexeme.symbol_ofToken hClose
    refine ⟨hNext fun notes => ?_, by rw [isNext_ofToken, hClose]; rfl⟩
    rw [readSubprogramBody, hSymbol, hDepth]
    rfl
  · refine ⟨hNext fun notes => ?_, ?_⟩
    · rw [readSubprogramBody]
      split
      · next hSymbol => exact absurd (by rw [hText (by rw [hSymbol]; rfl)]; decide) hWord
      · next hSymbol => exact absurd (by rw [hText (by rw [hSymbol]; rfl)]; decide) hWord
      · next hSymbol => rw [if_neg fun hPending => hIs hPending (hText (by rw [hSymbol]; rfl))]
      · next hSymbol => exact absurd (by rw [hText (by rw [hSymbol]; rfl)]; decide) hWord
      · next hSymbol => exact absurd (by rw [hText (by rw [hSymbol]; rfl)]; decide) hWord
      · next hSymbol => rw [if_neg (hSemicolon (hText (by rw [hSymbol]; rfl)))]
      · next hSymbol => exact absurd (by rw [hText (by rw [hSymbol]; rfl)]; decide) hWord
      · rfl
    · rw [isNext_ofToken, beq_eq_false_iff_ne]
      exact fun hEnd => hWord (by rw [hEnd]; decide)

/-- A clause is passed over. In the heading of a subprogram the word `is` is no part of one. -/
theorem brings_clause (nest : BodyNest) {depth depth' : Nat}
    (hClause : texts.foldlM clauseDepth depth = some depth')
    (hIs : nest.pending = true → "is" ∉ texts) :
    Brings texts (base.Within home false { nest with depth })
      (base.Within home false { nest with depth := depth' }) := by
  induction texts generalizing depth with
  | nil =>
      obtain rfl := Option.some.inj hClause
      exact .nil (.isIdle base home _ _)
  | cons text texts ih =>
      rw [List.foldlM_cons] at hClause
      obtain ⟨middle, hDepth, hRest⟩ := Option.bind_eq_some_iff.1 hClause
      refine .cons (.isIdle base home _ _) (fun word last next walk hText _ h => ?_)
        (ih hRest fun hPending hMem => hIs hPending (List.mem_cons_of_mem _ hMem))
      refine Stands.step_clause { nest with depth } h.stands (by rw [hText]; exact hDepth)
        (fun hPending hWord => hIs hPending ?_) next
      rw [← hText, hWord]
      exact List.mem_cons_self

/-- Clauses, and what keeps a clause where it is. -/
theorem brings_closed (base : Walk) (home : Home) (units : Nat)
    (hClause : texts.foldlM clauseDepth 0 = some 0) :
    Brings texts (base.Within home false ⟨units, 0, false⟩)
      (base.Within home false ⟨units, 0, false⟩) :=
  brings_clause ⟨units, 0, false⟩ hClause (by simp)

/-- A word that begins a subprogram begins a heading. -/
theorem brings_kind (kind : SubprogramKind) (units : Nat) :
    Brings [kind.keyword.text] (base.Within home false ⟨units, 0, false⟩)
      (base.Within home false ⟨units, 0, true⟩) := by
  refine .one (.isIdle base home _ _) (.isIdle base home _ _) fun word last next walk hText h => ?_
  have hSymbol : (Lexeme.ofToken word).symbol = .keyword kind.keyword :=
    Lexeme.symbol_keyword _ hText
  refine ⟨Stands.step_word h.stands fun notes =>
    ⟨notes, ?_⟩, by rw [isNext_ofToken, hText]; cases kind <;> rfl⟩
  simp only [read, readSubprogramBody, hSymbol, h.last]
  cases kind <;> rfl

/-- The word `is` behind a heading opens a body. -/
theorem brings_is (units : Nat) :
    Brings ["is"] (base.Within home false ⟨units, 0, true⟩)
      (base.Within home false ⟨units + 1, 0, false⟩) := by
  refine .one (.isIdle base home _ _) (.isIdle base home _ _) fun word last next walk hText h => ?_
  have hSymbol : (Lexeme.ofToken word).symbol = .keyword .is := Lexeme.symbol_keyword _ hText
  refine ⟨Stands.step_word h.stands fun notes => ⟨notes, ?_⟩, by rw [isNext_ofToken, hText]; rfl⟩
  simp only [read, readSubprogramBody, hSymbol]
  rfl

/-- Outside of parentheses a semicolon ends what is open of a heading. -/
theorem Stands.step_semicolon {units : Nat} {pending : Bool}
    (h : base.Stands (.subprogramBody home ⟨units, 0, pending⟩) walk) (hText : word.text = ";")
    (next : Option Lexeme) :
    base.Within home false ⟨units, 0, false⟩ (some (.ofToken word))
      (walk.step (.word (.ofToken word) last next)) := by
  have hSymbol : (Lexeme.ofToken word).symbol = .semicolon := Lexeme.symbol_ofToken hText
  refine ⟨Stands.step_word h fun notes => ⟨notes, ?_⟩, by rw [isNext_ofToken, hText]; rfl⟩
  simp only [read, readSubprogramBody, hSymbol]
  rfl

/-- A semicolon ends a heading without a body, a declaration and a statement. -/
theorem brings_semicolon (units : Nat) (pending : Bool) :
    Brings [";"] (base.Within home false ⟨units, 0, pending⟩)
      (base.Within home false ⟨units, 0, false⟩) :=
  .one (.isIdle base home _ _) (.isIdle base home _ _) fun _ _ next _ hText h =>
    h.stands.step_semicolon hText next

theorem closesUnit_keyword {here : Lexeme} {keyword : Keyword}
    (h : here.symbol = .keyword keyword) : closesUnit (some here) = ! isCompoundEnd keyword := by
  obtain ⟨token, symbol⟩ := here
  obtain rfl : symbol = .keyword keyword := h
  rfl

theorem closesUnit_of_not_isKeyword {here : Lexeme} (h : here.symbol.isKeyword = false) :
    closesUnit (some here) = true := by
  obtain ⟨token, symbol⟩ := here
  cases symbol with
  | keyword word => cases h
  | _ => rfl

/-- Behind the `end` of a statement one is in the same body. -/
theorem brings_endWords (compound : Compound) (label : Option Label) (units : Nat) :
    Brings (compound.endWords label) (base.Within home false ⟨units, 0, false⟩)
      (base.Within home false ⟨units, 0, false⟩) := by
  have hKeyword : Vhdl.clauseDepth 0 compound.keyword.text = some 0 ∧
      compound.keyword.text ≠ "is" := by
    cases compound <;> decide
  -- The two words that close the statement.
  have hEnd {rest : List String} (hRest : Brings rest (base.Within home false ⟨units, 0, false⟩)
      (base.Within home false ⟨units, 0, false⟩)) :
      Brings ("end" :: compound.keyword.text :: rest) (base.Within home false ⟨units, 0, false⟩)
        (base.Within home false ⟨units, 0, false⟩) := by
    refine .cons (Q := base.At (.subprogramBody home ⟨units, 0, false⟩)) (.isIdle base home _ _)
      (fun word last next walk hText hNext h => ?_)
      (.cons (At.isIdle fun _ _ => rfl) (fun word last next walk hText _ h => ?_) hRest)
    · obtain ⟨token, hToken, rfl⟩ := hNext _ rfl
      have hSymbol : (Lexeme.ofToken word).symbol = .keyword .end := Lexeme.symbol_keyword _ hText
      have hClosed : closesUnit (some (.ofToken token)) = false := by
        rw [closesUnit_keyword (Lexeme.symbol_keyword _ hToken)]
        cases compound <;> rfl
      refine Stands.step_word h.stands fun notes => ⟨notes, ?_⟩
      simp only [read, readSubprogramBody, hSymbol, hClosed]
      rfl
    · exact Stands.step_clause ⟨units, 0, false⟩ h (by rw [hText]; exact hKeyword.1)
        (fun _ => by rw [hText]; exact hKeyword.2) next
  cases label with
  | none => exact hEnd (brings_semicolon units false)
  | some label =>
      obtain ⟨name, repeated⟩ := label
      cases repeated with
      | false => exact hEnd (brings_semicolon units false)
      | true =>
          have hName : [name.text].foldlM Vhdl.clauseDepth 0 = some 0 := by simp [name.clauseDepth]
          exact hEnd ((brings_closed base home units hName).append (brings_semicolon units false))

/-- A label opens no parenthesis and closes none. -/
theorem foldlM_labelWords (label : Option Label) :
    (labelWords label).foldlM clauseDepth 0 = some 0 := by
  cases label with
  | none => rfl
  | some label =>
      refine foldlM_clauseDepth_self fun word hMem => ?_
      obtain rfl | hMem := List.mem_cons.1 hMem
      · exact label.name.clauseDepth 0
      · rw [List.mem_singleton.1 hMem]
        rfl

/-- Statements are passed over. -/
theorem brings_code (base : Walk) (home : Home) (units : Nat) {layer : Layer} (code : Code layer) :
    Brings code.words (base.Within home false ⟨units, 0, false⟩)
      (base.Within home false ⟨units, 0, false⟩) := by
  have hClause (clause : Clause) := brings_closed base home units clause.isClosed
  have hLabel (label : Option Label) := brings_closed base home units (foldlM_labelWords label)
  have hWord {word : String} (hWord : [word].foldlM clauseDepth 0 = some 0) :=
    brings_closed base home units hWord
  induction code with
  | done => exact .nil (.isIdle base home _ _)
  | simple clause rest ih =>
      exact (hClause clause).append ((brings_semicolon units false).append ih)
  | «if» label condition inside others rest ihInside ihOthers ihRest =>
      exact (hLabel label).append
        ((hWord rfl).append ((hClause condition).append ((hWord rfl).append
        (ihInside.append (ihOthers.append ((brings_endWords .if label units).append ihRest))))))
  | case label selector choices rest ihChoices ihRest =>
      exact (hLabel label).append ((hWord rfl).append ((hClause selector).append ((hWord rfl).append
        (ihChoices.append ((brings_endWords .case label units).append ihRest)))))
  | loop label scheme inside rest ihInside ihRest =>
      exact (hLabel label).append ((hClause scheme).append ((hWord rfl).append
        (ihInside.append ((brings_endWords .loop label units).append ihRest))))
  | elsif condition inside others ihInside ihOthers =>
      exact (hWord rfl).append
        ((hClause condition).append ((hWord rfl).append (ihInside.append ihOthers)))
  | «else» inside ihInside => exact (hWord rfl).append ihInside
  | when choice inside others ihInside ihOthers =>
      exact (hWord rfl).append
        ((hClause choice).append ((hWord rfl).append (ihInside.append ihOthers)))

/-- The heading of a subprogram inside of a body. -/
theorem brings_heading (heading : SubprogramHeading) (units : Nat) :
    Brings heading.words (base.Within home false ⟨units, 0, false⟩)
      (base.Within home false ⟨units, 0, true⟩) := by
  obtain ⟨hTail, hIs⟩ := heading.foldlM_tailWords
  refine (brings_kind heading.kind units).append
    (.append (Q := base.Within home false ⟨units, 0, true⟩) ?_ ?_)
  · refine brings_clause ⟨units, 0, true⟩ (by simp [heading.name.clauseDepth]) fun _ hMem => ?_
    exact heading.name.not_mem (by rw [← List.mem_singleton.1 hMem]; simp)
  · exact brings_clause ⟨units, 0, true⟩ hTail fun _ => hIs

/-- The `end` of a subprogram is no `end` of a statement. -/
theorem closesUnit_closingWords (heading : SubprogramHeading) (kind name : Bool)
    (h : Heads (heading.closingWords kind name) next) : closesUnit next = true := by
  have hKind {token : Token} (hText : token.text = heading.kind.keyword.text) :
      closesUnit (some (.ofToken token)) = true := by
    rw [closesUnit_keyword (Lexeme.symbol_keyword _ hText)]
    cases heading.kind <;> rfl
  have hName {token : Token} (hText : token.text = heading.name.text) :
      closesUnit (some (.ofToken token)) = true := by
    refine closesUnit_of_not_isKeyword ?_
    rw [Lexeme.symbol_ofToken rfl, symbol_of_isIdentifier (hText ▸ heading.name.isIdentifier)]
    rfl
  have hSemicolon {token : Token} (hText : token.text = ";") :
      closesUnit (some (.ofToken token)) = true := by
    refine closesUnit_of_not_isKeyword ?_
    rw [Lexeme.symbol_ofToken hText]
    rfl
  cases kind with
  | true =>
      obtain ⟨token, hText, rfl⟩ := h _ rfl
      exact hKind hText
  | false =>
      cases name with
      | true =>
          obtain ⟨token, hText, rfl⟩ := h _ rfl
          exact hName hText
      | false =>
          obtain ⟨token, hText, rfl⟩ := h _ rfl
          exact hSemicolon hText

/-- The words between the `end` of a subprogram inside of a body and the declarations behind it. -/
theorem brings_closingWords (heading : SubprogramHeading) (kind name : Bool) (units : Nat) :
    Brings (heading.closingWords kind name) (base.Within home true ⟨units, 0, false⟩)
      (base.Within home false ⟨units, 0, false⟩) := by
  have hIdle : IsIdle (base.At (.subprogramBody home ⟨units, 0, false⟩)) := At.isIdle fun _ _ => rfl
  refine .append (Q := base.At (.subprogramBody home ⟨units, 0, false⟩)) ?_
    (.append (Q := base.At (.subprogramBody home ⟨units, 0, false⟩)) ?_ ?_)
  · cases kind with
    | false => exact (Brings.nil (.isIdle base home _ _)).imp fun _ _ h => h.stands
    | true =>
        refine .one (.isIdle base home _ _) hIdle fun word last next walk hText h => ?_
        have hSymbol : (Lexeme.ofToken word).symbol = .keyword heading.kind.keyword :=
          Lexeme.symbol_keyword _ hText
        refine Stands.step_word h.stands fun notes => ⟨notes, ?_⟩
        simp only [read, readSubprogramBody, hSymbol, h.last]
        cases heading.kind <;> rfl
  · cases name with
    | false => exact .nil hIdle
    | true =>
        refine .one hIdle hIdle fun word last next walk hText h => ?_
        exact (Stands.step_clause ⟨units, 0, false⟩ h
          (by rw [hText]; exact heading.name.clauseDepth 0)
          (by simp) next).stands
  · exact .one hIdle (.isIdle base home _ _) fun word last next walk hText h =>
      Stands.step_semicolon h hText next

/-- The `end` of a subprogram inside of a body. -/
theorem brings_closing (heading : SubprogramHeading) (kind name : Bool) {units : Nat}
    (hUnits : units ≠ 0) :
    Brings (["end"] ++ heading.closingWords kind name)
      (base.Within home false ⟨units + 1, 0, false⟩)
      (base.Within home false ⟨units, 0, false⟩) := by
  refine .cons (.isIdle base home _ _) (fun word last next walk hText hNext h => ?_)
    (brings_closingWords heading kind name units)
  have hSymbol : (Lexeme.ofToken word).symbol = .keyword .end := Lexeme.symbol_keyword _ hText
  refine ⟨Stands.step_word h.stands fun notes => ⟨notes, ?_⟩, by rw [isNext_ofToken, hText]; rfl⟩
  simp only [read, readSubprogramBody, hSymbol, closesUnit_closingWords heading kind name hNext]
  rw [if_pos trivial, if_neg (by omega)]
  rfl

/-- Declarations are passed over, those of subprograms with their bodies. -/
theorem brings_declarations (base : Walk) (home : Home) {units : Nat} (hUnits : units ≠ 0)
    (part : DeclarativePart) :
    Brings part.words (base.Within home false ⟨units, 0, false⟩)
      (base.Within home false ⟨units, 0, false⟩) := by
  induction part generalizing units with
  | done => exact .nil (.isIdle base home _ _)
  | object kind clause rest ih =>
      have hKind : [kind.text].foldlM clauseDepth 0 = some 0 := by cases kind <;> rfl
      exact (brings_closed base home units hKind).append
        ((brings_closed base home units clause.isClosed).append
        ((brings_semicolon units false).append (ih hUnits)))
  | declaration heading rest ih =>
      exact (brings_heading heading units).append ((brings_semicolon units true).append (ih hUnits))
  | body heading declarations code repeatsKind repeatsName rest ihInside ihRest =>
      have hInside := ihInside (Nat.succ_ne_zero units)
      have hCode := brings_code base home (units + 1) code
      have hEnd := (brings_closing heading repeatsKind repeatsName hUnits).append (ihRest hUnits)
      rw [List.append_assoc] at hEnd
      exact (brings_heading heading units).append ((brings_is units).append (hInside.append
        ((brings_closed base home (units + 1) rfl).append (hCode.append hEnd))))

end Walk

namespace Walk

variable {base : Walk} {home : Home}

theorem isIdle_home (base : Walk) (home : Home) : IsIdle (base.At home.place) :=
  At.isIdle fun _ _ => by cases home <;> rfl

/-- Behind its own `end` a body is left, and the semicolon leads to where the subprogram began. -/
theorem brings_outerClosing (base : Walk) (home : Home) (heading : SubprogramHeading)
    (kind name : Bool) :
    Brings (["end"] ++ heading.closingWords kind name) (base.Within home false ⟨1, 0, false⟩)
      (base.At home.place) := by
  have hIdle : IsIdle (base.At (.skipStatement home 0)) := At.isIdle fun _ _ => rfl
  have hWord {text : String} (hNot : text ∉ ["(", ")", ";"]) :
      Brings [text] (base.At (.skipStatement home 0)) (base.At (.skipStatement home 0)) := by
    refine .one hIdle hIdle fun word last next walk hText h =>
      Stands.step_word h fun notes => ⟨notes, ?_⟩
    have hSame {spelling : String} (hSpelling : (Lexeme.ofToken word).symbol.spelling? =
        some spelling) : text = spelling := hText ▸ Symbol.eq_of_spelling? hSpelling
    rw [read]
    dsimp only
    rw [readSkipped]
    split
    · next hSymbol => exact absurd (by rw [hSame (by rw [hSymbol]; rfl)]; decide) hNot
    · next hSymbol => exact absurd (by rw [hSame (by rw [hSymbol]; rfl)]; decide) hNot
    · next hSymbol => exact absurd (by rw [hSame (by rw [hSymbol]; rfl)]; decide) hNot
    · rfl
  have hTail : Brings (heading.closingWords kind name) (base.At (.skipStatement home 0))
      (base.At home.place) := by
    refine .append (Q := base.At (.skipStatement home 0)) ?_
      (.append (Q := base.At (.skipStatement home 0)) ?_ ?_)
    · cases kind with
      | false => exact .nil hIdle
      | true => exact hWord (by cases heading.kind <;> decide)
    · cases name with
      | false => exact .nil hIdle
      | true =>
          refine hWord fun hMem => heading.name.not_mem ?_
          generalize heading.name.text = text at hMem
          fin_cases hMem <;> decide
    · refine .one hIdle (isIdle_home base home) fun word last next walk hText h =>
        Stands.step_word h fun notes =>
        ⟨notes, ?_⟩
      have hSymbol : (Lexeme.ofToken word).symbol = .semicolon := Lexeme.symbol_ofToken hText
      simp only [read, readSkipped, hSymbol]
      rfl
  refine .cons (.isIdle base home _ _) (fun word last next walk hText hNext h => ?_) hTail
  have hSymbol : (Lexeme.ofToken word).symbol = .keyword .end := Lexeme.symbol_keyword _ hText
  refine Stands.step_word h.stands fun notes => ⟨notes, ?_⟩
  simp only [read, readSubprogramBody, hSymbol, closesUnit_closingWords heading kind name hNext]
  rfl

/-- A body is passed over. -/
theorem brings_body (base : Walk) (home : Home) (body : SubprogramBody) :
    Brings body.words (base.Within home false ⟨1, 0, false⟩) (base.At home.place) :=
  (brings_declarations base home one_ne_zero body.declarations).append
    ((brings_closed base home 1 rfl).append ((brings_code base home 1 body.code).append
      (brings_outerClosing base home body.heading body.repeatsKind body.repeatsName)))

end Walk

/-- No body begins with the word that an instantiation has behind its `is`. -/
theorem SubprogramBody.exists_head (body : SubprogramBody) :
    ∃ text rest, body.words = text :: rest ∧ text ≠ "new" := by
  rw [words]
  cases body.declarations with
  | done => exact ⟨"begin", _, rfl, by decide⟩
  | object kind clause rest => exact ⟨kind.text, _, rfl, by cases kind <;> decide⟩
  | declaration heading rest =>
      exact ⟨heading.kind.keyword.text, _, rfl, by cases heading.kind <;> decide⟩
  | body heading => exact ⟨heading.kind.keyword.text, _, rfl, by cases heading.kind <;> decide⟩

/-- Wherever declarations are read, a subprogram is left behind its own `end`. What is between the
`is` of its heading and the semicolon leaves everything as it is, and there the walk is where the
subprogram began. -/
theorem run_subprogramBody (start : Walk) (limit : Option Nat) (size : Nat) (text : String)
    (body : SubprogramBody) (front heading inside rest : List Event) (home : Home)
    (hText : readEvents size (tokens limit text).list = front ++ (heading ++ (inside ++ rest)))
    (hUnquoted : ∀ event ∈ heading ++ inside, event.IsUnquoted)
    (hHeading : texts heading = body.heading.words ++ ["is"]) (hInside : texts inside = body.words)
    (hHome : (start.run front).place.Declares home) :
    (start.run (front ++ heading)).place = .subprogramBody home {} ∧
      (start.run (front ++ heading)).Stands home.place
        (start.run (front ++ heading ++ inside)) := by
  have hLinked := linked_readEvents size (tokens limit text).list
  rw [hText] at hLinked
  obtain ⟨last, hLinked⟩ := hLinked.exists_behind
  obtain ⟨words, after, hReads, hWords, hAfter⟩ := hLinked.exists_reads fun event hMem =>
    hUnquoted event (List.mem_append_left _ hMem)
  obtain ⟨insideWords, behind, hInsideReads, hInsideWords, -⟩ :=
    (hLinked.behind hReads).exists_reads fun event hMem =>
      hUnquoted event (List.mem_append_right _ hMem)
  rw [hHeading] at hWords
  rw [hInside] at hInsideWords
  obtain ⟨name, _, rfl, hName, hIs⟩ := List.map_eq_append_iff.1 hWords
  obtain ⟨is, rfl, hIsText⟩ := List.map_eq_singleton_iff.1 hIs
  -- Behind the word `is` one sees the first word of the body.
  have hNew : Walk.isNext after .new = false := by
    obtain ⟨text, texts, hHead, hNew⟩ := body.exists_head
    obtain ⟨first, others, rfl, hFirst, -⟩ := List.map_eq_cons_iff.1 (hInsideWords.trans hHead)
    rw [hAfter _ (hInsideReads.nextWord? rest), isNext_ofToken, hFirst]
    exact beq_false_of_ne hNew
  have hOpens : Walk.Passes [is] after (Walk.On (· = .subprogramHeader home))
      (Walk.On (· = .subprogramBody home {})) := by
    refine .cons (Walk.isIdle_header home) (fun last walk hPlace => ?_)
      (.nil (Walk.On.isIdle_eq fun _ => rfl))
    have hSymbol : (Lexeme.ofToken is).symbol = .keyword .is := Lexeme.symbol_keyword _ hIsText
    change (Walk.read _ _ _ _).place = _
    rw [Walk.read, show (walk.note _).place = _ from hPlace]
    dsimp only
    rw [Walk.readSubprogramHeader, hSymbol]
    simp only [List.head?_nil, Option.map_none, Option.none_or, hNew]
    rfl
  have hPlace : ((start.run front).run heading).place = .subprogramBody home {} :=
    (Walk.brings_outerHeading body.heading home name _ hName).append hOpens heading last _
      hReads hHome
  have hLast : Walk.isNext (lastOf last (name ++ [is])) .end = false := by
    rw [lastOf_append]
    refine (isNext_ofToken is .end).trans ?_
    rw [hIsText]
    rfl
  have hWithin : ((start.run front).run heading).Within home false ⟨1, 0, false⟩
      (lastOf last (name ++ [is])) ((start.run front).run heading) := ⟨⟨_, by rw [← hPlace]⟩, hLast⟩
  have hBody := Walk.brings_body _ home body _ _ hInsideWords inside _ _ hInsideReads hWithin
  simp only [Walk.run, List.foldl_append] at hPlace hBody ⊢
  exact ⟨hPlace, hBody⟩

/-- A procedure inside of a function, and a statement with an `end` of its own. -/
def functionText : String :=
  "package p is function f (a : t) return t is procedure q is begin null; end q; begin if a then b; end if; end; end;"

/-- Its reading: three words of the package with the spaces behind them, then the function. -/
def functionEvents : List Event :=
  readEvents functionText.utf8ByteSize (tokens none functionText).list

/-- The function. -/
def functionBody : SubprogramBody where
  heading :=
    { kind := .function
      name := ⟨"f", by decide⟩
      parameters := [⟨["a"], none, ⟨"t", by decide⟩, ⟨[], rfl⟩, by decide, by decide, by decide⟩]
      result := some ⟨"t", by decide⟩ }
  declarations := .body ⟨.procedure, ⟨"q", by decide⟩, [], none⟩ .done
    (.simple ⟨["null"], rfl⟩ .done) false true .done
  code := .if none ⟨["a"], rfl⟩ (.simple ⟨["b"], rfl⟩ .done) .done .done
  repeatsKind := false
  repeatsName := false

/-- A function inside of which a procedure, a loop and a case stand is passed over up to its own
end. -/
theorem run_subprogramBody_function :
    ((Walk.start .entityContext).run (functionEvents.take 27)).place =
      .subprogramBody .packageDeclarations {} ∧
      ((Walk.start .entityContext).run (functionEvents.take 27)).Stands .packageDeclarations
        ((Walk.start .entityContext).run (functionEvents.take 66)) := by
  have hEvents : functionEvents =
      readEvents functionText.utf8ByteSize (computed functionText).list := by
    rw [functionEvents, tokens_computed]
  -- All of this is computed at once, from one reading of the text.
  obtain ⟨hHome, hUnquoted, hHeading, hInside⟩ :
      ((Walk.start .entityContext).run (functionEvents.take 6)).place = .packageDeclarations ∧
      (∀ event ∈ (functionEvents.drop 6).take 21 ++ (functionEvents.drop 27).take 39,
        event.IsUnquoted) ∧
      texts ((functionEvents.drop 6).take 21) = functionBody.heading.words ++ ["is"] ∧
      texts ((functionEvents.drop 27).take 39) = functionBody.words := by
    rw [hEvents]
    decide +kernel
  have hFirst : functionEvents.take 6 ++ (functionEvents.drop 6).take 21 = functionEvents.take 27 :=
    List.take_add.symm
  have hFound : functionEvents.take 27 ++ (functionEvents.drop 27).take 39 =
      functionEvents.take 66 :=
    List.take_add.symm
  have hAll : functionEvents = functionEvents.take 6 ++ ((functionEvents.drop 6).take 21 ++
      ((functionEvents.drop 27).take 39 ++ functionEvents.drop 66)) := by
    rw [← List.append_assoc, hFirst, ← List.append_assoc, hFound, List.take_append_drop]
  have hDeclares :
      ((Walk.start .entityContext).run (functionEvents.take 6)).place.Declares
        .packageDeclarations :=
    .inl ⟨hHome, by decide⟩
  obtain ⟨hPlace, hStands⟩ :=
    run_subprogramBody (.start .entityContext) none functionText.utf8ByteSize functionText
      functionBody _ _ _ _ .packageDeclarations hAll hUnquoted hHeading hInside hDeclares
  rw [hFirst] at hPlace hStands
  rw [hFound] at hStands
  exact ⟨hPlace, hStands⟩

/-- A vertical tab is white space between two words, and it is no blank. So one does not see that
`if` stands right behind `end`, the body ends there, and the next `end` is taken for the one of the
package. -/
theorem scan_subprogramBody_verticalTab :
    let table (gap : String) := (scan .entityContext none
      ("package p is function f is begin if a then b; end" ++ gap ++
        "if; end; signal s : t; end;")).table
    (table " ").objects.names.map (·.text) = ["s"] ∧ (table "\x0b").objects.names = [] := by
  simp only [scan_computed]
  exact ⟨by decide +kernel, by decide +kernel⟩

end HdlIndex.Vhdl

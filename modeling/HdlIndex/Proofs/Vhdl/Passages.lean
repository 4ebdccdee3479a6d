import HdlIndex.Proofs.Vhdl.LinkedWords
import HdlIndex.Proofs.Vhdl.PartReading
import HdlIndex.Proofs.Vhdl.WordReading

/-! Passages of a walk, as triples: what holds of the walk and of the word in front of it is taken
to what holds behind some words. Where declarations are read, the word that a declaration begins
with is read alike, and the walk comes back there behind the declaration. -/
namespace HdlIndex.Vhdl

namespace Walk

/-- The words take the walk from `P` to `Q`. -/
def Passes (words : List Token) (after : Option Lexeme) (P Q : Option Lexeme → Walk → Prop) :
    Prop :=
  ∀ events last walk, Reads last words after events → P last walk →
    Q (lastOf last words) (walk.run events)

/-- Comments and white space keep the property. -/
def IsIdle (P : Option Lexeme → Walk → Prop) : Prop :=
  ∀ event last walk, event.IsLayout → P last walk → P last (walk.step event)

variable {words others : List Token} {word : Token} {after : Option Lexeme}
  {P Q R : Option Lexeme → Walk → Prop}

namespace Passes

/-- Without words nothing is passed but what the property allows to be idle. -/
theorem nil (hIdle : IsIdle P) : Passes [] after P P := by
  intro events last walk hReads hState
  induction events generalizing walk with
  | nil => exact hState
  | cons event events ih =>
      cases hReads with
      | layout hEvent hRest =>
          exact ih (walk.step event) hRest (hIdle event last walk hEvent hState)

/-- A passage is made of its first word and of what passes the rest. -/
theorem cons (hIdle : IsIdle P)
    (hStep : ∀ last walk, P last walk → Q (some (.ofToken word))
      (walk.step (.word (.ofToken word) last ((words.head?.map .ofToken).or after))))
    (hRest : Passes words after Q R) : Passes (word :: words) after P R := by
  intro events last walk hReads hState
  induction events generalizing walk with
  | nil => cases hReads
  | cons event events ih =>
      cases hReads with
      | layout hEvent hLater =>
          exact ih (walk.step event) hLater (hIdle event last walk hEvent hState)
      | word hLater => exact hRest events _ _ hLater (hStep last walk hState)

theorem append (h : Passes words ((others.head?.map .ofToken).or after) P Q)
    (h' : Passes others after Q R) : Passes (words ++ others) after P R := by
  intro events last walk hReads hState
  obtain ⟨front, back, rfl, hFront, hBack⟩ := hReads.split
  rw [lastOf_append, run, List.foldl_append]
  exact h' back _ _ hBack (h front last walk hFront hState)

theorem imp (h : Passes words after P Q) (hState : ∀ last walk, Q last walk → R last walk) :
    Passes words after P R :=
  fun events last walk hReads hFirst => hState _ _ (h events last walk hReads hFirst)

end Passes

/-- What the words that begin with a lexeme have of it. -/
def Heads (texts : List String) (next : Option Lexeme) : Prop :=
  ∀ text ∈ texts.head?, ∃ token : Token, token.text = text ∧ next = some (.ofToken token)

/-- Words with these texts take the walk from `P` to `Q`. -/
def Brings (texts : List String) (P Q : Option Lexeme → Walk → Prop) : Prop :=
  ∀ words after, words.map (·.text) = texts → Passes words after P Q

namespace Brings

variable {text : String} {first second : List String} {P Q R : Option Lexeme → Walk → Prop}

theorem nil (hIdle : IsIdle P) : Brings [] P P := by
  intro words after hWords
  obtain rfl := List.map_eq_nil_iff.1 hWords
  exact .nil hIdle

theorem append (h : Brings first P Q) (h' : Brings second Q R) : Brings (first ++ second) P R := by
  intro words after hWords
  obtain ⟨front, back, rfl, hFront, hBack⟩ := List.map_eq_append_iff.1 hWords
  exact (h front _ hFront).append (h' back after hBack)

theorem imp (h : Brings first P Q) (hState : ∀ last walk, Q last walk → R last walk) :
    Brings first P R :=
  fun words after hWords => (h words after hWords).imp hState

/-- One word and the word behind it. -/
theorem cons (hIdle : IsIdle P)
    (hStep : ∀ word last next walk, word.text = text → Heads second next → P last walk →
      Q (some (.ofToken word)) (walk.step (.word (.ofToken word) last next)))
    (hRest : Brings second Q R) : Brings (text :: second) P R := by
  intro words after hWords
  obtain ⟨word, rest, rfl, hText, hRests⟩ := List.map_eq_cons_iff.1 hWords
  refine .cons hIdle (fun last walk h => hStep word last _ walk hText ?_ h)
    (hRest rest after hRests)
  intro head hHead
  rw [← hRests, List.head?_map] at hHead
  obtain ⟨token, hToken, hText⟩ := Option.map_eq_some_iff.1 hHead
  exact ⟨token, hText, by rw [hToken]; rfl⟩

/-- One word, whatever stands behind it. -/
theorem one (hIdle : IsIdle P) (hIdle' : IsIdle Q)
    (hStep : ∀ word last next walk, word.text = text → P last walk →
      Q (some (.ofToken word)) (walk.step (.word (.ofToken word) last next))) : Brings [text] P Q :=
  cons hIdle (fun word last next walk hText _ => hStep word last next walk hText) (nil hIdle')

end Brings

end Walk

/-- Declarations are read at the place, and behind each of them the walk is back at `home`. Behind
the word `process` without a list, the declarations of the process begin. -/
def Place.Declares (place : Place) (home : Home) : Prop :=
  place = home.place ∧ home ≠ .entityContext ∨
    ∃ process, place = .processSensitivity process none ∧ home = .processDeclarations process

theorem Place.Declares.absorb {place : Place} {home : Home} (h : place.Declares home)
    (token : Token) :
    place.absorb token = place := by
  obtain ⟨rfl, -⟩ | ⟨process, rfl, -⟩ := h
  · cases home <;> rfl
  · rfl

/-- The symbol of a word that is spelled like a reserved word. -/
theorem isNext_ofToken (token : Token) (keyword : Keyword) :
    Walk.isNext (some (.ofToken token)) keyword = (token.text == keyword.text) := by
  rw [Walk.isNext, Option.any_some, Bool.eq_iff_iff, decide_eq_true_eq, beq_iff_eq]
  refine ⟨fun hSymbol => Symbol.eq_of_spelling? ?_, Lexeme.symbol_keyword keyword⟩
  rw [← Lexeme.symbol_ofToken rfl, hSymbol]
  rfl

namespace Walk

variable {base walk : Walk} {place : Place} {home : Home} {here : Lexeme}
  {before next : Option Lexeme}

/-- The walk is another one brought to a place, whatever word is in front of it. -/
def At (base : Walk) (place : Place) : Option Lexeme → Walk → Prop :=
  fun _ walk => base.Stands place walk

/-- A place that no blank changes is kept. -/
theorem At.isIdle (hPlace : ∀ token, token.isBlank = true → place.absorb token = place) :
    IsIdle (base.At place) := by
  rintro event last walk hEvent ⟨notes, rfl⟩
  cases event with
  | comment span => exact ⟨notes, rfl⟩
  | filler token => exact ⟨notes, by simp [step, hPlace token hEvent]⟩
  | word here before next => exact hEvent.elim

/-- A word is read where the walk stands. -/
theorem Stands.step_word (h : base.Stands place walk) {Q : Walk → Prop}
    (hRead : ∀ notes, Q (({ base with place, notes } : Walk).read here before next)) :
    Q (walk.step (.word here before next)) := by
  obtain ⟨notes, rfl⟩ := h
  exact hRead _

/-- From a place that blanks leave as it is, a passage starts with reading its first word there. -/
theorem At.passes {word : Token} {words : List Token} {after : Option Lexeme}
    {Q R : Option Lexeme → Walk → Prop}
    (hPlace : ∀ token, token.isBlank = true → place.absorb token = place)
    (hRead : ∀ last notes,
      Q (some (.ofToken word)) (({ base with place, notes } : Walk).read (.ofToken word) last
        ((words.head?.map .ofToken).or after)))
    (hRest : Passes words after Q R) : Passes (word :: words) after (base.At place) R := by
  refine Passes.cons (At.isIdle hPlace) (fun last walk h => ?_) hRest
  exact Stands.step_word h (hRead last)

/-- A type or a subprogram is declared alike wherever declarations are read. -/
theorem read_declaration (h : walk.place.Declares home) {keyword : Keyword}
    (hKeyword : keyword ∈ [.type, .subtype, .function, .procedure])
    (hSymbol : here.symbol = .keyword keyword) :
    walk.read here before next = walk.readItem home here := by
  rw [read]
  obtain ⟨hPlace, hHome⟩ | ⟨process, hPlace, rfl⟩ := h
  · rw [hPlace]
    cases home with
    | entityContext => exact absurd rfl hHome
    | entityHeader => fin_cases hKeyword <;> simp [Home.place, readEntityHeader, hSymbol]
    | architectureDeclarations =>
        fin_cases hKeyword <;> simp [Home.place, readArchitectureDeclarations, hSymbol]
    | architectureBody =>
        fin_cases hKeyword <;> simp [Home.place, readStatement, readFirst, hSymbol]
    | packageDeclarations | packageBody =>
        fin_cases hKeyword <;> simp [Home.place, readPackage, hSymbol]
    | processDeclarations process =>
        fin_cases hKeyword <;> simp [Home.place, readProcessDeclarations, hSymbol]
  · rw [hPlace]
    fin_cases hKeyword <;> simp [readSensitivity, hSymbol]

end Walk

end HdlIndex.Vhdl

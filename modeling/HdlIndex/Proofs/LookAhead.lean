import HdlIndex.Language
import HdlIndex.Proofs.Token.LookAhead
import HdlIndex.Proofs.Verilog.PartReading
import HdlIndex.Proofs.Vhdl.PartReading

/-! Looking ahead agrees with reading. The word that is seen ahead of a word is the first token
behind it that the reader meets outside of comments and strings and that is neither white space nor
the opener of a comment. -/
namespace HdlIndex

namespace Vhdl

/-- The reader of a token list in front of the token at an index. -/
def readerBefore (tokens : List Token) (index : Nat) : Reader :=
  Reader.readOver {} (tokens.take index) (tokens.drop index)

/-- The token at an index is handed to the walk as a word, with `next` ahead of it. -/
def Dispatches (tokens : List Token) (index : Nat) (next : Option Lexeme) : Prop :=
  ∃ token before, tokens[index]? = some token ∧ (readerBefore tokens (index + 1)).events =
    (readerBefore tokens index).events.push (.word (.ofToken token) before next)

/-- The first token from an index on that the reader meets. -/
def IsFirstMet (tokens : List Token) (start : Nat) (found : Option Token) : Prop :=
  Token.IsFirstMet comments (fun index => (readerBefore tokens index).mode =
    .code) tokens start found

variable {tokens : List Token} {index : Nat} {token : Token} {next : Option Lexeme}

theorem Mode.eq_code_iff {mode : Mode} : mode = .code ↔ mode.resumes? = some none := by
  cases mode <;> simp [Mode.resumes?]

/-- Reading goes on token by token. -/
theorem readerBefore_succ (h : tokens[index]? = some token) :
    readerBefore tokens (index + 1) =
      (readerBefore tokens index).read token (tokens.drop (index + 1)) :=
  Reader.isReader.readOver_succ {} h

/-- The reader is inside of the comment that looking ahead is inside of. -/
theorem tracks_reader (tokens : List Token) :
    Token.Tracks comments (fun index => (readerBefore tokens index).mode = .code) tokens
      fun index => (readerBefore tokens index).mode.resumes? :=
  Reader.isReader.tracks Reader.mode .code Mode.resumes? (fun _ => Mode.eq_code_iff)
    (fun rest _ _ hView hPass => (Reader.read_of_passOver _ rest hView hPass).1) {} tokens

/-- A token is handed to the walk by the reader in front of it. -/
theorem Dispatches.takes (h : Dispatches tokens index next) :
    ∃ token before, tokens[index]? = some token ∧
    (readerBefore tokens index).Takes token (tokens.drop (index + 1))
      (readerBefore tokens (index + 1)) [.word (.ofToken token) before next] := by
  obtain ⟨token, before, hToken, hEvents⟩ := h
  refine ⟨token, before, hToken, ?_⟩
  rw [readerBefore_succ hToken] at hEvents ⊢
  have hTakes := (readerBefore tokens index).takes token (tokens.drop (index + 1))
  have hList := congrArg Array.toList hEvents
  rw [Reader.isReader.events_read, Array.toList_push, List.append_cancel_left_eq] at hList
  rwa [hList] at hTakes

/-- What is handed to the walk is what looking ahead finds, and the reader stays outside of
comments. -/
theorem Dispatches.next_eq (h : Dispatches tokens index next) :
    next = (Token.nextSignificant comments none (tokens.drop (index + 1))).map .ofToken ∧
      (readerBefore tokens (index + 1)).mode = .code := by
  obtain ⟨token, before, -, hTakes⟩ := h.takes
  cases hTakes with
  | word hMode hBlank hText hAfter => exact ⟨rfl, hAfter⟩

/-- A word comes with the first token behind it that the reader meets. -/
theorem Dispatches.next_iff (h : Dispatches tokens index next) (found : Option Token) :
    next = found.map .ofToken ↔ IsFirstMet tokens (index + 1) found := by
  obtain ⟨rfl, hCode⟩ := h.next_eq
  exact (tracks_reader tokens).map_nextSignificant_iff
    (fun _ _ hEqual => congrArg Lexeme.token hEqual)
    (Mode.eq_code_iff.1 hCode) found

end Vhdl

namespace Verilog

/-- The reader of a token list in front of the token at an index. -/
def readerBefore (tokens : List Token) (index : Nat) : Reader :=
  Reader.readOver {} (tokens.take index) (tokens.drop index)

/-- The token at an index is handed to the walk as a word, with `next` ahead of it. -/
def Dispatches (tokens : List Token) (index : Nat) (next : Option Lexeme) : Prop :=
  ∃ token, tokens[index]? = some token ∧ (readerBefore tokens (index + 1)).events =
    (readerBefore tokens index).events.push (.word (.ofToken token) next)

/-- The first token from an index on that the reader meets. A directive is met as well, and so is
the sentinel. -/
def IsFirstMet (tokens : List Token) (start : Nat) (found : Option Token) : Prop :=
  Token.IsFirstMet comments (fun index => (readerBefore tokens index).mode =
    .code) tokens start found

variable {tokens : List Token} {index : Nat} {token : Token} {next : Option Lexeme}

theorem Mode.eq_code_iff {mode : Mode} : mode = .code ↔ mode.resumes? = some none := by
  cases mode <;> simp [Mode.resumes?]

/-- Reading goes on token by token. -/
theorem readerBefore_succ (h : tokens[index]? = some token) :
    readerBefore tokens (index + 1) =
      (readerBefore tokens index).read token (tokens.drop (index + 1)) :=
  Reader.isReader.readOver_succ {} h

/-- The reader is inside of the comment that looking ahead is inside of. -/
theorem tracks_reader (tokens : List Token) :
    Token.Tracks comments (fun index => (readerBefore tokens index).mode = .code) tokens
      fun index => (readerBefore tokens index).mode.resumes? :=
  Reader.isReader.tracks Reader.mode .code Mode.resumes? (fun _ => Mode.eq_code_iff)
    (fun rest _ _ hView hPass => (Reader.read_of_passOver _ rest hView hPass).1) {} tokens

/-- A token is handed to the walk by the reader in front of it. -/
theorem Dispatches.takes (h : Dispatches tokens index next) : ∃ token, tokens[index]? = some token ∧
    (readerBefore tokens index).Takes token (tokens.drop (index + 1))
      (readerBefore tokens (index + 1)) [.word (.ofToken token) next] := by
  obtain ⟨token, hToken, hEvents⟩ := h
  refine ⟨token, hToken, ?_⟩
  rw [readerBefore_succ hToken] at hEvents ⊢
  have hTakes := (readerBefore tokens index).takes token (tokens.drop (index + 1))
  have hList := congrArg Array.toList hEvents
  rw [Reader.isReader.events_read, Array.toList_push, List.append_cancel_left_eq] at hList
  rwa [hList] at hTakes

/-- What is handed to the walk is what looking ahead finds, and the reader stays outside of
comments. -/
theorem Dispatches.next_eq (h : Dispatches tokens index next) :
    next = (Token.nextSignificant comments none (tokens.drop (index + 1))).map .ofToken ∧
      (readerBefore tokens (index + 1)).mode = .code := by
  obtain ⟨token, -, hTakes⟩ := h.takes
  cases hTakes with
  | word hMode hBlank hText hAfter => exact ⟨rfl, hAfter⟩

/-- A word comes with the first token behind it that the reader meets. -/
theorem Dispatches.next_iff (h : Dispatches tokens index next) (found : Option Token) :
    next = found.map .ofToken ↔ IsFirstMet tokens (index + 1) found := by
  obtain ⟨rfl, hCode⟩ := h.next_eq
  exact (tracks_reader tokens).map_nextSignificant_iff
    (fun _ _ hEqual => congrArg Lexeme.token hEqual)
    (Mode.eq_code_iff.1 hCode) found

end Verilog

namespace Language

/-- The delimiters of a language. -/
def delimiters : Language → List Delimiter
  | vhdl => Vhdl.delimiters
  | verilog => Verilog.delimiters

/-- The comments of a language. -/
def comments : Language → List (String × String)
  | vhdl => Vhdl.comments
  | verilog => Verilog.comments

/-- The reader of a language is outside of comments, strings and directives in front of the token at
an index. -/
def ReadsCodeAt (language : Language) (tokens : List Token) (index : Nat) : Prop :=
  match language with
  | vhdl => (Vhdl.readerBefore tokens index).mode = .code
  | verilog => (Verilog.readerBefore tokens index).mode = .code

/-- The token at an index is handed to the walk of a language. -/
def Dispatches (language : Language) (tokens : List Token) (index : Nat) : Prop :=
  match language with
  | vhdl => ∃ next, Vhdl.Dispatches tokens index next
  | verilog => ∃ next, Verilog.Dispatches tokens index next

end Language

/-- Looking ahead agrees with reading, over every token list and at every word that is handed to a
walk: it sees the token that is met next, and none exactly if no further token is met. -/
theorem dispatches_firstMet (tokens : List Token) (index : Nat) :
    (∀ next, Vhdl.Dispatches tokens index next → ∀ found : Option Token,
      next = found.map .ofToken ↔ Vhdl.IsFirstMet tokens (index + 1) found) ∧
    (∀ next, Verilog.Dispatches tokens index next → ∀ found : Option Token,
      next = found.map .ofToken ↔ Verilog.IsFirstMet tokens (index + 1) found) :=
  ⟨fun _ h => h.next_iff, fun _ h => h.next_iff⟩

/-- A comment with a semicolon stands in front of the semicolon that is met, and a comment that is
never closed behind it. -/
theorem dispatches_firstMet_comments :
    (let tokens : List Token := [⟨"end", ⟨0, 3⟩⟩, ⟨"--", ⟨3, 5⟩⟩, ⟨";", ⟨5, 6⟩⟩, ⟨"/*", ⟨6, 8⟩⟩,
      ⟨"\n", ⟨8, 9⟩⟩, ⟨";", ⟨9, 10⟩⟩, ⟨"/*", ⟨10, 12⟩⟩, ⟨"end", ⟨12, 15⟩⟩]
    Vhdl.IsFirstMet tokens 1 (some ⟨";", ⟨9, 10⟩⟩) ∧ Vhdl.IsFirstMet tokens 6 none) ∧
    (let tokens : List Token := [⟨"end", ⟨0, 3⟩⟩, ⟨"/*", ⟨3, 5⟩⟩, ⟨";", ⟨5, 6⟩⟩, ⟨"//", ⟨6, 8⟩⟩,
      ⟨"*/", ⟨8, 10⟩⟩, ⟨";", ⟨10, 11⟩⟩, ⟨"//", ⟨11, 13⟩⟩, ⟨"end", ⟨13, 16⟩⟩]
    Verilog.IsFirstMet tokens 1 (some ⟨";", ⟨10, 11⟩⟩) ∧ Verilog.IsFirstMet tokens 6 none) := by
  constructor
  · intro tokens
    have hFirst : Vhdl.Dispatches tokens 0 (some (.ofToken ⟨";", ⟨9, 10⟩⟩)) :=
      ⟨⟨"end", ⟨0, 3⟩⟩, none, rfl, by decide +kernel⟩
    have hLast : Vhdl.Dispatches tokens 5 none :=
      ⟨⟨";", ⟨9, 10⟩⟩, some (.ofToken ⟨"end", ⟨0, 3⟩⟩), rfl, by decide +kernel⟩
    exact ⟨((dispatches_firstMet tokens 0).1 _ hFirst _).1 rfl,
      ((dispatches_firstMet tokens 5).1 _ hLast _).1 rfl⟩
  · intro tokens
    have hFirst : Verilog.Dispatches tokens 0 (some (.ofToken ⟨";", ⟨10, 11⟩⟩)) :=
      ⟨⟨"end", ⟨0, 3⟩⟩, rfl, by decide +kernel⟩
    have hLast : Verilog.Dispatches tokens 5 none := ⟨⟨";", ⟨10, 11⟩⟩, rfl, by decide +kernel⟩
    exact ⟨((dispatches_firstMet tokens 0).2 _ hFirst _).1 rfl,
      ((dispatches_firstMet tokens 5).2 _ hLast _).1 rfl⟩

end HdlIndex

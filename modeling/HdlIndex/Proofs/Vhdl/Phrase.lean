import HdlIndex.Proofs.Text.Collected
import HdlIndex.Proofs.Token.Lexes
import HdlIndex.Vhdl.Symbol
import Mathlib.Data.List.Chain
import Mathlib.Tactic.FinCases

/-! Texts that are written in pieces: words, symbols, and single spaces. Pieces stand side by side
where no delimiter can be read across their border, and there the tokenizer finds them again. What
is collected from the tokens of a phrase is the text that it is written in. -/
namespace HdlIndex

namespace Vhdl

/-- The symbols, apart from quotes and from what opens a comment. -/
def symbols : List String :=
  ["(", ")", ";", ",", "<=", ":=", "=>", ">=", "/=", "**", "*/", ":", "<", ">", "=", "+", "-", "*",
   "/", "&", "|", "[", "]"]

/-- The delimiters of two characters. -/
def compounds : List String := ["--", "/*", "*/", "<=", ":=", "=>", ">=", "/=", "**"]

/-- The character is no blank and no part of a symbol. -/
def isWordChar (c : Char) : Bool :=
  ! Text.isBlank c && ! "-/*<:=>();,'\"+&|[]".toList.contains c

/-- The text is an identifier, a reserved word, or a literal without quotes. -/
def IsWord (text : String) : Prop := text ≠ "" ∧ text.toList.all isWordChar

/-- The kinds of pieces. -/
inductive PieceKind where
  | space
  | symbol
  | word
deriving DecidableEq, Repr

/-- The kind of a piece. What is nothing else has to be a word. -/
def PieceKind.of (piece : String) : PieceKind :=
  if piece = " " then .space else if piece ∈ symbols then .symbol else .word

/-- The text is a single space, a symbol or a word. -/
def IsPiece (piece : String) : Prop := PieceKind.of piece = .word → IsWord piece

/-- The first character of what stands behind a symbol makes another delimiter of it. -/
def Merges (symbol : String) (c : Char) : Prop := String.ofList (symbol.toList ++ [c]) ∈ compounds

/-- The second piece may stand right behind the first one: it is of another kind, or else the first
one is a symbol that it does not merge with. -/
def Joins (piece next : String) : Prop :=
  (PieceKind.of piece = .symbol → ∀ c ∈ next.toList.head?, ¬ Merges piece c) ∧
  (PieceKind.of piece ≠ .symbol → PieceKind.of piece ≠ PieceKind.of next)

/-- The pieces can be told apart where they stand. -/
structure IsWritten (pieces : List String) : Prop where
  valid : ∀ piece ∈ pieces, IsPiece piece
  joins : List.IsChain Joins pieces

/-- The pieces of an expression. No space is at its ends. -/
structure IsPhrase (pieces : List String) : Prop extends IsWritten pieces where
  starts : pieces.head? ≠ some " "
  ends : pieces.getLast? ≠ some " "

instance (text : String) : Decidable (IsWord text) := inferInstanceAs (Decidable (_ ∧ _))

instance (piece : String) : Decidable (IsPiece piece) := inferInstanceAs (Decidable (_ → _))

instance (symbol : String) (c : Char) : Decidable (Merges symbol c) :=
  inferInstanceAs (Decidable (_ ∈ _))

-- One character is looked at, not all characters there are.
instance : DecidableRel Joins := fun piece next =>
  decidable_of_iff
    ((PieceKind.of piece = .symbol → next.toList.head?.all fun c => ! decide (Merges piece c)) ∧
      (PieceKind.of piece ≠ .symbol → PieceKind.of piece ≠ PieceKind.of next))
    (by rw [Joins]; cases next.toList.head? <;> simp)

instance (pieces : List String) : Decidable (IsWritten pieces) :=
  decidable_of_iff ((∀ piece ∈ pieces, IsPiece piece) ∧ List.IsChain Joins pieces)
    ⟨fun h => ⟨h.1, h.2⟩, fun h => ⟨h.1, h.2⟩⟩

instance (pieces : List String) : Decidable (IsPhrase pieces) :=
  decidable_of_iff (IsWritten pieces ∧ pieces.head? ≠ some " " ∧ pieces.getLast? ≠ some " ")
    ⟨fun h => ⟨h.1, h.2.1, h.2.2⟩, fun h => ⟨h.1, h.2, h.3⟩⟩

variable {piece next text : String} {pieces others : List String}

theorem isGap_of_isWordChar {c : Char} (h : isWordChar c = true) : Delimiter.isGap c = false := by
  rw [isWordChar, Bool.and_eq_true, Bool.not_eq_true'] at h
  exact Delimiter.isGap_eq_false h.1

/-- The characters of a word begin no delimiter. -/
theorem plain_of_isWordChar {c : Char} (h : isWordChar c = true) :
    Delimiter.Plain delimiters c := by
  have hGap := isGap_of_isWordChar h
  have hLine : c ≠ '\n' := by
    rintro rfl
    cases h
  simp [isWordChar] at h
  apply Delimiter.plain_of_leads
  simp [delimiters, Delimiter.ofString, Delimiter.leads, hGap, h.2, hLine]

/-- A symbol is found, unless the character behind it makes another delimiter of it. -/
theorem takeFirst?_symbol {symbol : String} {rest : List Char} (h : symbol ∈ symbols)
    (hRest : ∀ c ∈ rest.head?, ¬ Merges symbol c) :
    Delimiter.takeFirst? delimiters (symbol.toList ++ rest) = some symbol.toList.length := by
  cases rest with
  | nil => fin_cases h <;> rfl
  | cons c rest =>
      have hNext : ∀ d, Merges symbol d → d ≠ c := by
        rintro d hMerges rfl
        exact hRest d rfl hMerges
      fin_cases h <;>
        simp [Merges, compounds, ← String.toList_inj] at hNext <;>
        simp [delimiters, Delimiter.takeFirst?, Delimiter.ofString, Delimiter.take?,
          Delimiter.isGap, hNext]

theorem isSpaced_delimiters : Delimiter.IsSpaced delimiters := ⟨by decide, by decide⟩

/-- A space is found, unless another blank follows it. -/
theorem takeFirst?_space {rest : List Char} (hRest : ∀ c ∈ rest.head?, Delimiter.isGap c = false) :
    Delimiter.takeFirst? delimiters (" ".toList ++ rest) = some " ".toList.length :=
  Delimiter.takeFirst?_space isSpaced_delimiters hRest

theorem IsWord.isWordChar_of_mem (h : IsWord text) {c : Char} (hMem : c ∈ text.toList) :
    isWordChar c = true :=
  List.all_eq_true.1 h.2 c hMem

theorem PieceKind.of_eq_space (h : of piece = .space) : piece = " " := by
  rw [of] at h
  split at h
  · assumption
  · split at h <;> cases h

theorem PieceKind.of_eq_symbol (h : of piece = .symbol) : piece ∈ symbols := by
  rw [of] at h
  split at h
  · cases h
  · split at h
    · assumption
    · cases h

/-- Only these characters make another delimiter of a symbol. -/
theorem Merges.mem {symbol : String} {c : Char} (h : Merges symbol c) :
    c ∈ ['-', '*', '/', '=', '>'] := by
  have hLast : compounds.all fun compound =>
      compound.toList.getLast?.all (['-', '*', '/', '=', '>'].contains ·) := by decide
  simpa using List.all_eq_true.1 hLast _ h

theorem Joins.of_head
    (hKind : PieceKind.of piece ≠ .symbol → PieceKind.of piece ≠ PieceKind.of next)
    (hHead : ∀ c ∈ next.toList.head?, c ∉ ['-', '*', '/', '=', '>']) : Joins piece next :=
  ⟨fun _ c hc hMerges => hHead c hc hMerges.mem, hKind⟩

/-- A comma and a semicolon may stand behind every piece. -/
theorem Joins.mark {mark : String} (h : mark ∈ [",", ";"]) : Joins piece mark := by
  apply Joins.of_head
  · intro hSymbol hKind
    rw [hKind] at hSymbol
    fin_cases h <;> exact hSymbol (by decide)
  · intro c hc
    fin_cases h <;> (obtain rfl := Option.some.inj hc; decide)

/-- A space may stand behind everything but a space. -/
theorem Joins.space (h : piece ≠ " ") : Joins piece " " := by
  apply Joins.of_head
  · intro _ hKind
    exact h (PieceKind.of_eq_space hKind)
  · intro c hc
    obtain rfl := Option.some.inj hc
    decide

/-- Everything but a space may stand behind a space. -/
theorem Joins.of_space (h : next ≠ " ") : Joins " " next := by
  refine ⟨fun hSymbol => absurd hSymbol (by decide), fun _ hKind => ?_⟩
  exact h (PieceKind.of_eq_space hKind.symm)

/-- No piece is empty. -/
theorem IsPiece.ne_empty (h : IsPiece piece) : piece ≠ "" := by
  rintro rfl
  exact (h rfl).1 rfl

/-- A piece opens no comment and no string, and it is no tick. -/
theorem IsPiece.plain (h : IsPiece piece) : piece ∉ ["--", "/*", "\"", "'"] := by
  intro hMem
  fin_cases hMem <;> exact absurd h (by decide)

/-- There is no blank in a piece that is no space. -/
theorem IsPiece.isBlank_of_mem (h : IsPiece piece) (hSpace : piece ≠ " ") {c : Char}
    (hMem : c ∈ piece.toList) : Text.isBlank c = false := by
  cases hKind : PieceKind.of piece with
  | space => exact absurd (PieceKind.of_eq_space hKind) hSpace
  | symbol =>
      have hSymbols : symbols.all fun symbol => symbol.toList.all (! Text.isBlank ·) := by decide
      have hSymbol := List.all_eq_true.1 hSymbols piece (PieceKind.of_eq_symbol hKind)
      simpa using List.all_eq_true.1 hSymbol c hMem
  | word =>
      have hChar := (h hKind).isWordChar_of_mem hMem
      rw [isWordChar, Bool.and_eq_true, Bool.not_eq_true'] at hChar
      exact hChar.1

theorem IsPiece.isGap_of_head? (h : IsPiece piece) (hSpace : piece ≠ " ") {c : Char}
    (hHead : c ∈ piece.toList.head?) : Delimiter.isGap c = false := by
  rw [← Bool.not_eq_true]
  intro hGap
  have hBlank := h.isBlank_of_mem hSpace (List.mem_of_head? hHead)
  rw [Delimiter.isBlank_of_isGap hGap] at hBlank
  cases hBlank

namespace IsWritten

theorem nil : IsWritten [] := ⟨by simp, .nil⟩

/-- Pieces are written as they are split if each of them is, and if none merges with the next
one. -/
theorem cons_iff :
    IsWritten (piece :: pieces) ↔
      IsPiece piece ∧ (∀ next ∈ pieces.head?, Joins piece next) ∧ IsWritten pieces := by
  constructor
  · rintro ⟨hValid, hJoins⟩
    rw [List.forall_mem_cons] at hValid
    rw [List.isChain_cons] at hJoins
    exact ⟨hValid.1, hJoins.1, hValid.2, hJoins.2⟩
  · rintro ⟨hPiece, hNext, hValid, hJoins⟩
    exact ⟨List.forall_mem_cons.2 ⟨hPiece, hValid⟩, List.isChain_cons.2 ⟨hNext, hJoins⟩⟩

/-- Two runs of pieces may be joined if the last of the first does not merge with the first of the
second. -/
theorem append_iff :
    IsWritten (pieces ++ others) ↔ IsWritten pieces ∧ IsWritten others ∧
      ∀ piece ∈ pieces.getLast?, ∀ next ∈ others.head?, Joins piece next := by
  constructor
  · rintro ⟨hValid, hJoins⟩
    rw [List.forall_mem_append] at hValid
    rw [List.isChain_append] at hJoins
    exact ⟨⟨hValid.1, hJoins.1⟩, ⟨hValid.2, hJoins.2.1⟩, hJoins.2.2⟩
  · rintro ⟨⟨hValid, hJoins⟩, ⟨hValid', hJoins'⟩, hBorder⟩
    exact ⟨List.forall_mem_append.2 ⟨hValid, hValid'⟩,
      List.isChain_append.2 ⟨hJoins, hJoins', hBorder⟩⟩

/-- A space may stand in front of everything that begins with none. -/
theorem space_cons (h : IsWritten pieces) (hStart : pieces.head? ≠ some " ") :
    IsWritten (" " :: pieces) := by
  refine cons_iff.2 ⟨by decide, ?_, h⟩
  intro next hNext
  apply Joins.of_space
  rintro rfl
  exact hStart hNext

/-- Every other piece may stand in front of what is empty or begins with a space. -/
theorem cons_space (hPiece : IsPiece piece) (hSpace : piece ≠ " ") (h : IsWritten pieces)
    (hHead : ∀ next ∈ pieces.head?, next = " ") : IsWritten (piece :: pieces) := by
  refine cons_iff.2 ⟨hPiece, ?_, h⟩
  intro next hNext
  obtain rfl := hHead next hNext
  exact Joins.space hSpace

/-- What is written begins with the first piece. -/
theorem mem_head?_join (h : IsWritten pieces) {c : Char}
    (hc : c ∈ (String.join pieces).toList.head?) :
    ∃ piece ∈ pieces.head?, c ∈ piece.toList.head? := by
  cases pieces with
  | nil => simp at hc
  | cons piece pieces =>
      have hNonempty : piece.toList ≠ [] := by simpa using (cons_iff.1 h).1.ne_empty
      rw [String.join_cons, String.toList_append, List.head?_append_of_ne_nil _ hNonempty] at hc
      exact ⟨piece, rfl, hc⟩

/-- What is written ends with the last piece. -/
theorem mem_getLast?_join (h : IsWritten pieces) {c : Char}
    (hc : c ∈ (String.join pieces).toList.getLast?) :
    ∃ piece ∈ pieces.getLast?, c ∈ piece.toList.getLast? := by
  obtain rfl | ⟨before, last, rfl⟩ := List.eq_nil_or_concat' pieces
  · simp at hc
  · have hPiece : IsPiece last := h.valid last (by simp)
    have hNonempty : last.toList ≠ [] := by simpa using hPiece.ne_empty
    rw [String.join_append, String.toList_append, String.join_cons, String.join_nil,
      String.append_empty, List.getLast?_append_of_ne_nil _ hNonempty] at hc
    exact ⟨last, by simp, hc⟩

/-- A symbol or a space is found where it is written. -/
theorem takeFirst?_eq (h : IsWritten (piece :: pieces)) (hWord : PieceKind.of piece ≠ .word) :
    Delimiter.takeFirst? delimiters (piece.toList ++ (String.join pieces).toList) =
      some piece.toList.length := by
  obtain ⟨-, hNext, hRest⟩ := cons_iff.1 h
  cases hKind : PieceKind.of piece with
  | word => exact absurd hKind hWord
  | symbol =>
      apply takeFirst?_symbol (PieceKind.of_eq_symbol hKind)
      intro c hc
      obtain ⟨next, hMem, hHead⟩ := hRest.mem_head?_join hc
      exact (hNext next hMem).1 hKind c hHead
  | space =>
      obtain rfl := PieceKind.of_eq_space hKind
      apply takeFirst?_space
      intro c hc
      obtain ⟨next, hMem, hHead⟩ := hRest.mem_head?_join hc
      have hOther : next ≠ " " := by
        rintro rfl
        exact (hNext " " hMem).2 (by decide) rfl
      exact (hRest.valid next (List.mem_of_head? hMem)).isGap_of_head? hOther hHead

/-- A text that is written in pieces is lexed into them. -/
theorem lexes (h : IsWritten pieces) :
    Lexes delimiters (String.join pieces).toList (pieces.map String.toList) := by
  induction pieces with
  | nil => exact .nil
  | cons piece pieces ih =>
      obtain ⟨hPiece, hNext, hRest⟩ := cons_iff.1 h
      rw [String.join_cons, String.toList_append, List.map_cons]
      by_cases hWord : PieceKind.of piece = .word
      · have hChars := hPiece hWord
        refine .word (by simpa using hChars.1)
          (fun c hc => plain_of_isWordChar (hChars.isWordChar_of_mem hc)) ?_ (ih hRest)
        cases pieces with
        | nil => exact .inl rfl
        | cons next pieces =>
            have hOther : PieceKind.of next ≠ .word := by
              rw [← hWord]
              exact Ne.symm ((hNext next rfl).2 (by simp [hWord]))
            rw [String.join_cons, String.toList_append, hRest.takeFirst?_eq hOther]
            exact .inr (Option.some_ne_none _)
      · exact .delimiter (h.takeFirst?_eq hWord) (ih hRest)

end IsWritten

end Vhdl

section Collected

namespace Vhdl

open Capture

variable {capture : Capture} {tokens : List Token}

/-- The token of a piece is blank where the piece is a space. -/
theorem IsPiece.isBlank_token {token : Token} (h : IsPiece token.text) :
    token.isBlank = decide (token.text = " ") := by
  by_cases hSpace : token.text = " "
  · simp only [Token.isBlank, hSpace]
    decide
  · have hNonempty : token.text.toList ≠ [] := by simpa using h.ne_empty
    obtain ⟨c, chars, hChars⟩ := List.exists_cons_of_ne_nil hNonempty
    have hPlain : Text.isBlank c = false := by
      apply h.isBlank_of_mem hSpace
      rw [hChars]
      exact List.mem_cons_self
    have hBlank : Text.isAsciiBlank c = false := by
      rw [← Bool.not_eq_true]
      intro hBlank
      rw [Text.isBlank_of_isAsciiBlank hBlank] at hPlain
      cases hPlain
    simp [Token.isBlank, hChars, hBlank, hSpace]

/-- A piece is added as it stands, if it is not a second space. -/
theorem IsPiece.reversed_push {token : Token} (h : IsPiece token.text)
    (hSpace : token.text = " " → ∃ c ∈ capture.reversed.head?, c ≠ ' ') :
    (capture.push token).reversed = token.text.toList.reverse ++ capture.reversed := by
  have hEmpty : token.isEmpty = false := by simpa [Token.isEmpty] using h.ne_empty
  rw [push, hEmpty, h.isBlank_token]
  by_cases hText : token.text = " "
  · obtain ⟨c, hHead, hc⟩ := hSpace hText
    obtain ⟨chars, hChars⟩ : ∃ chars, capture.reversed = c :: chars :=
      ⟨capture.reversed.tail, (List.cons_head?_tail hHead).symm⟩
    simp [hText, pushBlank, hChars, hc]
  · simp [hText, pushText]

/-- What is written in the tokens is added as it stands, if it does not begin with a second
space. -/
theorem IsWritten.reversed_pushAll (h : IsWritten (tokens.map (·.text)))
    (hSpace : (tokens.map (·.text)).head? = some " " → ∃ c ∈ capture.reversed.head?, c ≠ ' ') :
    (capture.pushAll tokens).reversed =
      (String.join (tokens.map (·.text))).toList.reverse ++ capture.reversed := by
  induction tokens generalizing capture with
  | nil => rfl
  | cons token tokens ih =>
      rw [List.map_cons, cons_iff] at h
      obtain ⟨hPiece, hNext, hRest⟩ := h
      have hPush : (capture.push token).reversed =
          token.text.toList.reverse ++ capture.reversed :=
        hPiece.reversed_push fun hText => hSpace (by simp [hText])
      have hBehind : (tokens.map (·.text)).head? = some " " →
          ∃ c ∈ (capture.push token).reversed.head?, c ≠ ' ' := by
        intro hHead
        have hText : token.text ≠ " " := by
          intro hText
          have hJoins := hNext " " hHead
          rw [hText] at hJoins
          exact hJoins.2 (by decide) rfl
        have hNonempty : token.text.toList ≠ [] := by simpa using hPiece.ne_empty
        obtain ⟨chars, c, hChars⟩ :=
          (List.eq_nil_or_concat' token.text.toList).resolve_left hNonempty
        refine ⟨c, by simp [hPush, hChars], ?_⟩
        rintro rfl
        have hPlain : Text.isBlank ' ' = false := by
          apply hPiece.isBlank_of_mem hText
          rw [hChars]
          exact List.mem_append_right chars (List.mem_singleton_self ' ')
        cases hPlain
      rw [pushAll, List.foldl_cons, ← pushAll, ih hRest hBehind, hPush, List.map_cons,
        String.join_cons, String.toList_append, List.reverse_append, List.append_assoc]

/-- The text collected from a phrase is the phrase. -/
theorem IsPhrase.text_pushAll (h : IsPhrase (tokens.map (·.text))) :
    (Capture.fresh.pushAll tokens).text = String.join (tokens.map (·.text)) := by
  have hReversed : (Capture.fresh.pushAll tokens).reversed =
      (String.join (tokens.map (·.text))).toList.reverse ++ [] :=
    h.reversed_pushAll fun hStart => absurd hStart h.starts
  rw [text, hReversed, List.append_nil, List.reverse_reverse, Text.trim_eq_self,
    String.ofList_toList]
  · intro c hc
    obtain ⟨first, hFirst, hHead⟩ := h.mem_head?_join hc
    apply (h.valid first (List.mem_of_head? hFirst)).isBlank_of_mem _ (List.mem_of_head? hHead)
    rintro rfl
    exact h.starts hFirst
  · intro c hc
    obtain ⟨last, hLast, hEnd⟩ := h.mem_getLast?_join hc
    apply (h.valid last (List.mem_of_getLast? hLast)).isBlank_of_mem _ (List.mem_of_getLast? hEnd)
    rintro rfl
    exact h.ends hLast

end Vhdl

end Collected

end HdlIndex

import HdlIndex.Design
import HdlIndex.Proofs.Text.Folding
import HdlIndex.Proofs.Token.Seams

/-! The tokens and the scan of a fixed text, computed. Splitting a text compares each of its
characters with every delimiter, and recurs on the length of what is left. For the evaluation of
fixed texts the same tokens are computed here by one step for each character at most, and letters
and digits are passed over by their numbers: no delimiter begins with them. What a scan makes of a
text depends on the text and its tokens alone, so it is evaluated from these tokens. -/
namespace HdlIndex

open String (utf8Len)

/-- A letter, a digit or an underscore, by its number. -/
def Text.isInert (c : Char) : Bool :=
  let code := c.toNat
  (Nat.ble 97 code && Nat.ble code 122) || (Nat.ble 65 code && Nat.ble code 90) ||
    (Nat.ble 48 code && Nat.ble code 57) || Nat.beq code 95

/-- The delimiter does not begin with a letter, a digit or an underscore. -/
def Delimiter.sparesInert : Delimiter → Bool
  | .literal (c :: _) => ! Text.isInert c
  | .literal [] | .blank => true

/-- Cuts at the leftmost place where a delimiter matches, and looks for none at letters and
digits. -/
def cutPast? (delimiters : List Delimiter) (before : List Char) : List Char → Option Cut
  | [] => none
  | c :: chars =>
    if Text.isInert c then cutPast? delimiters (c :: before) chars
    else match Delimiter.takeFirst? delimiters (c :: chars) with
      | some count => some ⟨before.reverse, (c :: chars).take count, (c :: chars).drop count⟩
      | none => cutPast? delimiters (c :: before) chars

/-- The tokens in front of the end of a text, cut at most `steps` times, and whether a word is under
way there. -/
def splitWithin (delimiters : List Delimiter) : Nat → Nat → List Char → List Token × Bool
  | 0, _, _ | _ + 1, _, [] => ([], false)
  | steps + 1, offset, c :: chars =>
    match cutPast? delimiters [] (c :: chars) with
    | some cut =>
      let middle := offset + utf8Len cut.word
      let (tokens, opened) := splitWithin delimiters steps (middle + utf8Len cut.delimiter) cut.rest
      (.placed offset cut.word :: .placed middle cut.delimiter :: tokens, opened)
    | none => ([.placed offset (c :: chars)], true)

/-- The tokens of a whole text. -/
def computeTokens (delimiters : List Delimiter) (closed : Bool) (chars : List Char) : Tokens :=
  let (tokens, opened) := splitWithin delimiters chars.length 0 chars
  let size := utf8Len chars
  ⟨tokens ++ SplitsUpTo.closing closed opened size ++
    (if closed then [.sentinel size] else []), size⟩

section Tokens

variable {delimiters : List Delimiter} {before chars : List Char} {c : Char}

theorem Text.isInert_of_isGap (h : Delimiter.isGap c = true) : isInert c = false := by
  simp only [Delimiter.isGap, Bool.or_eq_true, beq_iff_eq] at h
  rcases h with (((rfl | rfl) | rfl) | rfl) | rfl <;> rfl

variable (hSpares : ∀ delimiter ∈ delimiters, delimiter.sparesInert = true)

include hSpares

/-- No delimiter of the language begins with an inert character, so that a word goes on at it. -/
theorem Delimiter.plain_of_isInert (hInert : Text.isInert c = true) : Plain delimiters c := by
  refine plain_of_leads fun delimiter hMem => ?_
  have hSpare := hSpares delimiter hMem
  rw [← Bool.not_eq_true]
  intro hLeads
  cases delimiter with
  | blank =>
      rw [Text.isInert_of_isGap hLeads] at hInert
      cases hInert
  | literal text =>
      cases text with
      | nil => cases hLeads
      | cons first text =>
          obtain rfl : c = first := beq_iff_eq.1 hLeads
          rw [sparesInert, hInert] at hSpare
          cases hSpare

/-- Passing inert characters without a look at the delimiters cuts at the same place. -/
theorem cutPast?_eq : cutPast? delimiters before chars = cutFrom? delimiters before chars := by
  induction chars generalizing before with
  | nil => rfl
  | cons c chars ih =>
      rw [cutPast?, cutFrom?, ih]
      split
      · next hInert => rw [Delimiter.plain_of_isInert hSpares hInert]
      · rfl

/-- A step for each character is enough, since every cut takes one at least. -/
theorem splitWithin_splits {steps : Nat} (offset : Nat) (hSteps : chars.length ≤ steps) :
    SplitsUpTo delimiters offset chars (splitWithin delimiters steps offset chars).1
      (splitWithin delimiters steps offset chars).2 := by
  induction steps generalizing offset chars with
  | zero =>
      obtain rfl := List.eq_nil_of_length_eq_zero (Nat.le_zero.1 hSteps)
      exact .done offset
  | succ steps ih =>
      cases chars with
      | nil => exact .done offset
      | cons c chars =>
          rw [splitWithin, cutPast?_eq hSpares]
          split
          · next cut hCut =>
            have hRest := length_rest_of_cutFrom? hCut
            exact .cut hCut (ih _ (Nat.le_of_lt_succ (hRest.trans_le hSteps)))
          · next hCut => exact .last (List.cons_ne_nil c chars) hCut

/-- The computed tokens are those of the text. -/
theorem tokenize_eq_computeTokens (closed : Bool) (text : String) :
    tokenize delimiters none closed text = computeTokens delimiters closed text.toList := by
  obtain ⟨hList, hScanned⟩ :=
    (splitWithin_splits hSpares 0 (Nat.le_refl text.toList.length)).tokenize closed
  rw [← String.utf8Len_toList] at hList hScanned
  calc tokenize delimiters none closed text
      = ⟨(tokenize delimiters none closed text).list,
        (tokenize delimiters none closed text).scanned⟩ := rfl
    _ = computeTokens delimiters closed text.toList := by rw [hList, hScanned]; rfl

end Tokens

namespace Vhdl

/-- The table of a text by its tokens. -/
def tableOf (region : Region) (text : String) (tokens : Tokens) : Table :=
  let size := text.utf8ByteSize
  let events := readEvents size tokens.list
  tabulate text events tokens.scanned (walkThrough region events size)

/-- The tokens of a text. Its characters are folded on the way to them. -/
def computed (text : String) : Tokens :=
  computeTokens delimiters false (text.toList.map Char.toLower)

theorem delimiters_spareInert : ∀ delimiter ∈ delimiters, delimiter.sparesInert = true := by
  decide +kernel

theorem tokens_computed (text : String) : tokens none text = computed text := by
  rw [computed, ← Text.toList_foldCase, ← tokenize_eq_computeTokens delimiters_spareInert]
  rfl

/-- A scan makes the table of the tokens of the text. -/
theorem scan_eq_tableOf (region : Region) (text : String) :
    (scan region none text).table = tableOf region text (tokens none text) := rfl

theorem scan_computed (region : Region) (text : String) :
    (scan region none text).table = tableOf region text (computed text) := by
  rw [scan_eq_tableOf, tokens_computed]

end Vhdl

namespace Verilog

/-- The table of a text by its tokens. -/
def tableOf (region : Region) (text : String) (tokens : Tokens) : Table :=
  let size := text.utf8ByteSize
  let events := readEvents size tokens.list
  tabulate text events tokens.scanned (walkThrough region events size)

/-- The tokens of a text. -/
def computed (text : String) : Tokens := computeTokens delimiters true text.toList

theorem delimiters_spareInert : ∀ delimiter ∈ delimiters, delimiter.sparesInert = true := by
  decide +kernel

theorem tokens_computed (text : String) : tokens none text = computed text :=
  tokenize_eq_computeTokens delimiters_spareInert true text

/-- A scan makes the table of the tokens with a sentinel. -/
theorem scan_eq_tableOf (region : Region) (text : String) :
    (scan region none text).table = tableOf region text (tokens none text) := rfl

theorem scan_computed (region : Region) (text : String) :
    (scan region none text).table = tableOf region text (computed text) := by
  rw [scan_eq_tableOf, tokens_computed]

end Verilog

/-- The design of a text, by the tokens that are computed. -/
def Start.designOf (start : Start) (text : String) : Design :=
  match start with
  | vhdl region => .vhdl (Vhdl.tableOf region text (Vhdl.computed text))
  | verilog region => .verilog (Verilog.tableOf region text (Verilog.computed text))

theorem scan_computed (start : Start) (text : String) :
    (scan start none text).design = start.designOf text := by
  cases start with
  | vhdl region => exact congrArg Design.vhdl (Vhdl.scan_computed region text)
  | verilog region => exact congrArg Design.verilog (Verilog.scan_computed region text)

end HdlIndex

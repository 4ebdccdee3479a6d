import HdlIndex.Proofs.BlockComments
import HdlIndex.Proofs.Token.Joined

/-! Where a string ends. A quote inside of a string is judged by the token in front of it, so by the
last character in front of it: behind a backslash it does not close the string. By the language it
does so behind two of them, since the first one escapes the second. -/
namespace HdlIndex

open String (utf8Len)

/-- The number of characters of a string behind its opening quote, the closing quote included. The
first quote closes it that is not kept from it by the characters of the string in front of it. These
are passed from the last one back. -/
def stringLength? (isKept : List Char → Bool) (passed : List Char) : List Char → Option Nat
  | [] => none
  | c :: chars =>
    if c = '"' ∧ isKept passed = false then some 1
    else (stringLength? isKept (c :: passed) chars).map (· + 1)

/-- Behind an odd number of backslashes the last one is not escaped itself. -/
def isEscapedByRun (passed : List Char) : Bool := (passed.takeWhile (· == '\\')).length % 2 == 1

/-- A backslash stands right in front. -/
def isBehindBackslash (passed : List Char) : Bool := passed.head? == some '\\'

section Length

variable {isKept isKept' : List Char → Bool} {passed chars piece : List Char} {count : Nat}

/-- Everything but quotes is passed over. -/
theorem stringLength?_append (h : '"' ∉ piece) (chars : List Char) :
    stringLength? isKept passed (piece ++ chars) =
      (stringLength? isKept (piece.reverse ++ passed) chars).map (· + piece.length) := by
  induction piece generalizing passed with
  | nil => simp
  | cons c piece ih =>
      rw [List.mem_cons, not_or] at h
      have hOther : ¬ (c = '"' ∧ isKept passed = false) := fun hQuote => h.1 hQuote.1.symm
      rw [List.cons_append, stringLength?, if_neg hOther, ih h.2, Option.map_map, List.reverse_cons,
        List.append_assoc]
      rfl

/-- The more quotes are kept from closing a string, the longer it is. -/
theorem stringLength?_eq_none (hMore : ∀ passed, isKept passed = true → isKept' passed = true)
    (h : stringLength? isKept passed chars = none) : stringLength? isKept' passed chars = none := by
  induction chars generalizing passed with
  | nil => rfl
  | cons c chars ih =>
      rw [stringLength?] at h ⊢
      split at h
      · cases h
      · next hOpen =>
        have hOpen' : ¬ (c = '"' ∧ isKept' passed = false) := by
          rintro ⟨hQuote, hKept'⟩
          refine hOpen ⟨hQuote, ?_⟩
          rw [← Bool.not_eq_true] at hKept' ⊢
          exact fun hKept => hKept' (hMore passed hKept)
        rw [if_neg hOpen', ih (Option.map_eq_none_iff.1 h)]
        rfl

/-- It is no longer if its closing quote is not among the additional ones. -/
theorem stringLength?_eq_some (hMore : ∀ passed, isKept passed = true → isKept' passed = true)
    (h : stringLength? isKept passed (piece ++ '"' :: chars) = some (piece.length + 1))
    (hCloses : isKept' (piece.reverse ++ passed) = false) :
    stringLength? isKept' passed (piece ++ '"' :: chars) = some (piece.length + 1) := by
  induction piece generalizing passed with
  | nil =>
      rw [List.nil_append, stringLength?, if_pos ⟨rfl, hCloses⟩]
      rfl
  | cons c piece ih =>
      rw [List.cons_append, stringLength?] at h ⊢
      split at h
      · simp at h
      · next hOpen =>
        have hOpen' : ¬ (c = '"' ∧ isKept' passed = false) := by
          rintro ⟨hQuote, hKept'⟩
          refine hOpen ⟨hQuote, ?_⟩
          rw [← Bool.not_eq_true] at hKept' ⊢
          exact fun hKept => hKept' (hMore passed hKept)
        rw [Option.map_eq_some_iff] at h
        obtain ⟨length, hLength, hSame⟩ := h
        obtain rfl : length = piece.length + 1 := by simpa using hSame
        rw [if_neg hOpen', ih hLength (by simpa using hCloses)]
        rfl

/-- A quote that an odd run of backslashes escapes has a backslash in front of it. The converse
fails for two of them. -/
theorem isBehindBackslash_of_run (passed : List Char) (h : isEscapedByRun passed = true) :
    isBehindBackslash passed = true := by
  cases passed with
  | nil => cases h
  | cons c passed =>
      by_cases hChar : c = '\\'
      · simp [isBehindBackslash, hChar]
      · simp [isEscapedByRun, hChar] at h

end Length

/-- A quote is a delimiter, and all other ones have neither quotes nor backslashes. -/
def Delimiter.isUnquoted : Delimiter → Bool
  | .literal text => text == ['"'] || text.all fun c => ! (c == '"' || c == '\\')
  | .blank => true

namespace Verilog

section Reading

variable {reader : Reader} {token closer : Token} {tokens others : List Token}
  {passed chars : List Char} {cut : Cut} {offset : Nat} {opened : Bool}

theorem takeFirst?_quote (rest : List Char) :
    Delimiter.takeFirst? delimiters ('"' :: rest) ≠ none := by
  rw [Delimiter.IsMark.takeFirst? (by decide)]
  exact Option.some_ne_none 1

/-- A text is cut at a quote, or at what has neither quotes nor backslashes. -/
theorem cut_isUnquoted (h : cut? delimiters chars = some cut) :
    cut.delimiter = ['"'] ∨ '"' ∉ cut.delimiter ∧ '\\' ∉ cut.delimiter := by
  obtain ⟨delimiter, hMem, hMatch⟩ := cut_matches h
  cases hMatch with
  | blank hRun hGap =>
      right
      constructor
      all_goals
        intro hChar
        cases hGap _ hChar
  | literal hText =>
      have hAll : delimiters.all Delimiter.isUnquoted = true := by decide
      have hPlain := List.all_eq_true.1 hAll _ hMem
      rw [Delimiter.isUnquoted, Bool.or_eq_true, beq_iff_eq] at hPlain
      refine hPlain.imp id fun hPlain => ⟨fun hChar => ?_, fun hChar => ?_⟩
      all_goals simpa using List.all_eq_true.1 hPlain _ hChar

namespace Reader

/-- Inside of a string a token is judged by the one in front of it. -/
theorem read_inString (h : reader.mode = .string) (token : Token) (rest : List Token) :
    reader.read token rest = { reader.emit (.filler token) with
      mode := if token.text = "\"" ∧ reader.isEscaped = false then .code else .string
      passed := some token } := by
  rw [read, h]
  simp

theorem isEscaped_read (reader : Reader) (token : Token) (rest : List Token) :
    (reader.read token rest).isEscaped = decide (token.text.toList.getLast? = some '\\') := rfl

theorem readOver_cons_inString (h : reader.mode = .string) (token : Token)
    (tokens rest : List Token) :
    reader.readOver (token :: tokens) rest = (reader.read token []).readOver tokens rest := by
  rw [readOver, read_inString h, read_inString h]

/-- The reader is inside of a string at each of the tokens and behind them. -/
def StaysInString (reader : Reader) (tokens : List Token) : Prop :=
  ∀ front, front <+: tokens → ∀ rest, (reader.readOver front rest).mode = .string

theorem StaysInString.nil (h : reader.mode = .string) : reader.StaysInString [] := by
  intro front hFront rest
  rw [List.prefix_nil.1 hFront]
  exact h

/-- A string stays open over a token that leaves it open, and over what it then stays open over. -/
theorem StaysInString.cons (h : reader.mode = .string)
    (hRest : (reader.read token []).StaysInString tokens) :
    reader.StaysInString (token :: tokens) := by
  intro front hFront rest
  rcases List.prefix_cons_iff.1 hFront with rfl | ⟨front, rfl, hTokens⟩
  · exact h
  · rw [readOver_cons_inString h]
    exact hRest front hTokens rest

/-- Everything but quotes is part of the string. -/
theorem StaysInString.of_forall (h : reader.mode = .string)
    (hTokens : ∀ token ∈ tokens, token.text ≠ "\"") :
    reader.StaysInString tokens := by
  induction tokens generalizing reader with
  | nil => exact .nil h
  | cons token tokens ih =>
      rw [List.forall_mem_cons] at hTokens
      refine .cons h (ih ?_ hTokens.2)
      rw [read_inString h]
      simp [hTokens.1]

/-- No token but a quote ends a string. -/
theorem StaysInString.append (h : reader.StaysInString tokens)
    (hOthers : ∀ token ∈ others, token.text ≠ "\"") : reader.StaysInString (tokens ++ others) := by
  induction tokens generalizing reader with
  | nil => exact .of_forall (h [] List.nil_prefix []) hOthers
  | cons token tokens ih =>
      have hMode : reader.mode = .string := h [] List.nil_prefix []
      refine .cons hMode (ih fun front hFront rest => ?_)
      rw [← readOver_cons_inString hMode]
      exact h (token :: front) (List.cons_prefix_cons.2 ⟨rfl, hFront⟩) rest

/-- What a reader makes of the tokens of the text behind an opening quote, when so many characters
of that text belong to the string: it stays in the string up to the quote that closes it, and code
goes on there. -/
def ReadsString (reader : Reader) (offset : Nat) (chars : List Char) (tokens : List Token) :
    Option Nat → Prop
  | some count => ∃ inner closer behind, tokens = inner ++ closer :: behind ∧ closer.text = "\"" ∧
      closer.span.stop = offset + utf8Len (chars.take count) ∧ reader.StaysInString inner ∧
      ∀ rest, (reader.readOver (inner ++ [closer]) rest).mode = .code
  | none => reader.StaysInString tokens

/-- A word and a delimiter that do not close the string are passed over. -/
theorem ReadsString.pass {word delimiter : Token} {front chars : List Char} {start : Nat}
    {length : Option Nat} (h : reader.mode = .string) (hWord : (reader.read word []).mode = .string)
    (hStart : start = offset + utf8Len front)
    (hRest : ((reader.read word []).read delimiter []).ReadsString start chars tokens length) :
    reader.ReadsString offset (front ++ chars) (word :: delimiter :: tokens)
      (length.map (· + front.length)) := by
  cases length with
  | none => exact .cons h (.cons hWord hRest)
  | some count =>
      obtain ⟨inner, closer, behind, rfl, hText, hStop, hInner, hCode⟩ := hRest
      refine ⟨word :: delimiter :: inner, closer, behind, rfl, hText, ?_,
        .cons h (.cons hWord hInner), ?_⟩
      · show _ = offset + utf8Len ((front ++ chars).take (count + front.length))
        rw [hStop, hStart, Nat.add_comm count, List.take_length_add_append, String.utf8Len_append,
          Nat.add_assoc]
      · intro rest
        rw [List.cons_append, List.cons_append, readOver_cons_inString h,
          readOver_cons_inString hWord]
        exact hCode rest

/-- A quote closes the string behind a word that does not end with a backslash. -/
theorem ReadsString.close {word : Token} {front chars : List Char} (h : reader.mode = .string)
    (hWord : (reader.read word []).mode = .string) (hFree : (reader.read word []).isEscaped = false)
    (hText : closer.text = "\"") (hStop : closer.span.stop = offset + utf8Len front) :
    reader.ReadsString offset (front ++ chars) (word :: closer :: tokens) (some front.length) := by
  refine ⟨[word], closer, tokens, rfl, hText, ?_, .cons h (.nil hWord), fun rest => ?_⟩
  · rw [List.take_left, hStop]
  · rw [List.singleton_append, readOver_cons_inString h, readOver_cons_inString hWord, readOver,
      read_inString hWord, if_pos ⟨hText, hFree⟩]

end Reader

/-- The last character of a word decides whether it stands behind a backslash, and that of what was
passed where the word is empty. -/
theorem isBehindBackslash_word (h : isBehindBackslash passed = false) (word : List Char) :
    isBehindBackslash (word.reverse ++ passed) = decide (word.getLast? = some '\\') := by
  rw [isBehindBackslash, List.head?_append, List.head?_reverse]
  cases word.getLast? with
  | none => exact h
  | some c => simp [Bool.beq_eq_decide_eq]

/-- A delimiter without a backslash escapes nothing behind it. -/
theorem isBehindBackslash_delimiter {delimiter : List Char} (hSome : delimiter ≠ [])
    (h : '\\' ∉ delimiter) (passed : List Char) :
    isBehindBackslash (delimiter.reverse ++ passed) = false := by
  obtain ⟨front, c, rfl⟩ := (List.eq_nil_or_concat' delimiter).resolve_left hSome
  rw [List.mem_append, not_or, List.mem_singleton] at h
  simpa [isBehindBackslash] using Ne.symm h.2

/-- The length of a string by the words and delimiters of its text. -/
theorem stringLength?_cut (h : cut? delimiters chars = some cut) (passed : List Char) :
    stringLength? isBehindBackslash passed chars =
      if cut.delimiter = ['"'] ∧ isBehindBackslash (cut.word.reverse ++ passed) = false then
        some (cut.word ++ cut.delimiter).length
      else
        (stringLength? isBehindBackslash (cut.delimiter.reverse ++ (cut.word.reverse ++ passed))
          cut.rest).map (· + (cut.word ++ cut.delimiter).length) := by
  obtain ⟨hParts, -, -⟩ := cut?_eq_some h
  rw [hParts, stringLength?_append (not_mem_word takeFirst?_quote h), List.length_append]
  rcases cut_isUnquoted h with hQuote | ⟨hOther, -⟩
  · rw [hQuote, List.singleton_append, stringLength?]
    by_cases hKept : isBehindBackslash (cut.word.reverse ++ passed) = false
    · rw [if_pos ⟨rfl, hKept⟩, if_pos ⟨rfl, hKept⟩, Option.map_some, Nat.add_comm]
      rfl
    · rw [if_neg fun h => hKept h.2, if_neg fun h => hKept h.2, Option.map_map]
      simp [Function.comp_def, Nat.add_assoc, Nat.add_comm 1]
  · have hNot : cut.delimiter ≠ ['"'] := fun hQuote => hOther (by simp [hQuote])
    rw [stringLength?_append hOther, if_neg fun h => hNot h.1, Option.map_map]
    simp [Function.comp_def, Nat.add_assoc, Nat.add_comm cut.word.length]

/-- The tokens of a string end with the first quote that has no backslash right in front of it: the
token in front of a quote ends with the character in front of it, since no delimiter has
backslashes. -/
theorem readsString (h : SplitsUpTo delimiters offset chars tokens opened)
    (hMode : reader.mode = .string) (hPassed : isBehindBackslash passed = false) :
    reader.ReadsString offset chars tokens (stringLength? isBehindBackslash passed chars) := by
  have hPlain : ∀ {word : List Char}, '"' ∉ word →
      ∀ offset, (Token.placed offset word).text ≠ "\"" := by
    intro word hFree offset hText
    exact hFree (by simp [Token.eq_of_text_placed hText])
  induction h generalizing reader passed with
  | done offset => exact .nil hMode
  | @cut offset chars cut tokens opened hCut rest ih =>
      obtain ⟨hParts, -, -⟩ := cut?_eq_some hCut
      have hChars : chars = (cut.word ++ cut.delimiter) ++ cut.rest := by
        rw [hParts, List.append_assoc]
      have hStart : offset + utf8Len cut.word + utf8Len cut.delimiter =
          offset + utf8Len (cut.word ++ cut.delimiter) := by
        rw [String.utf8Len_append, Nat.add_assoc]
      set word := Token.placed offset cut.word with hWord
      set delimiter := Token.placed (offset + utf8Len cut.word) cut.delimiter with hDelimiter
      have hWordMode : (reader.read word []).mode = .string := by
        have hOther := hPlain (not_mem_word takeFirst?_quote hCut) offset
        rw [Reader.read_inString hMode, if_neg fun hQuote => hOther hQuote.1]
      have hEscaped : (reader.read word []).isEscaped =
          isBehindBackslash (cut.word.reverse ++ passed) := by
        rw [Reader.isEscaped_read, isBehindBackslash_word hPassed, hWord, Token.placed,
          String.toList_ofList]
      rw [stringLength?_cut hCut]
      split
      · next hCloses =>
        rw [hChars]
        refine .close hMode hWordMode (hEscaped.trans hCloses.2) ?_ hStart
        rw [hDelimiter, hCloses.1]
        rfl
      · next hOpen =>
        have hDelimiterMode : ((reader.read word []).read delimiter []).mode = .string := by
          rw [Reader.read_inString hWordMode, hEscaped]
          exact if_neg fun hQuote => hOpen ⟨Token.eq_of_text_placed hQuote.1, hQuote.2⟩
        have hSlash : '\\' ∉ cut.delimiter := by
          rcases cut_isUnquoted hCut with hQuote | ⟨-, hSlash⟩
          · simp [hQuote]
          · exact hSlash
        obtain ⟨_, -, hMatch⟩ := cut_matches hCut
        rw [hChars]
        exact .pass hMode hWordMode hStart
          (ih hDelimiterMode (isBehindBackslash_delimiter hMatch.ne_nil hSlash _))
  | @last offset chars hChars hCut =>
      have hFree := not_mem_last takeFirst?_quote hCut
      have hLength : stringLength? isBehindBackslash passed chars = none := by
        rw [← List.append_nil chars, stringLength?_append hFree]
        rfl
      rw [hLength]
      exact .of_forall hMode (by simpa using hPlain hFree offset)

end Reading

/-- A quote is met in code at a byte offset: it is the token at an index, and opens a string. -/
def OpensString (text : String) (offset index : Nat) : Prop :=
  (∃ opener, (tokens none text).list[index]? = some opener ∧ opener.text = "\"" ∧
    opener.span.start = offset) ∧ (readerBefore (tokens none text).list index).mode = .code

/-- The string that the token at an index opens has so many of the characters behind its quote,
which begin at a byte offset. At the tokens between its quotes the reader is inside of it, and it is
in code behind the closing one. Without a closing quote the reader is inside of the string to the
end. -/
def StringAt (list : List Token) (index offset : Nat) (chars : List Char) : Option Nat → Prop
  | some count => ∃ last closer, index < last ∧ list[last]? = some closer ∧ closer.text = "\"" ∧
      closer.span.stop = offset + utf8Len (chars.take count) ∧
      (∀ inner, index < inner → inner ≤ last → (readerBefore list inner).mode = .string) ∧
      (readerBefore list (last + 1)).mode = .code
  | none => ∀ inner, index < inner → (readerBefore list inner).mode = .string

section Texts

variable {pre rest : String} {index offset : Nat} {chars : List Char} {length : Option Nat}
  {before behind tail : List Token} {opener : Token}

/-- The readers behind the opener of a string read on inside of it. -/
theorem readerBefore_behind
    (hCode : (readerBefore (before ++ opener :: behind) before.length).mode = .code)
    (hOpener : opener.text = "\"") : ∃ reader : Reader, reader.mode = .string ∧
      ∀ count, readerBefore (before ++ opener :: behind) (before.length + 1 + count) =
        reader.readOver (behind.take count) (behind.drop count) := by
  rw [readerBefore, List.take_left, List.drop_left] at hCode
  refine ⟨(Reader.readOver {} before (opener :: behind)).read opener behind, ?_, fun count => ?_⟩
  · rw [Reader.read, hCode]
    simp [Reader.readCode, hOpener]
  · have hTake : (before ++ opener :: behind).take (before.length + 1 + count) =
        before ++ opener :: behind.take count := by
      rw [Nat.add_assoc, List.take_length_add_append, Nat.add_comm 1, List.take_succ_cons]
    have hDrop : (before ++ opener :: behind).drop (before.length + 1 + count) =
        behind.drop count := by
      rw [Nat.add_assoc, List.drop_length_add_append, Nat.add_comm 1, List.drop_succ_cons]
    rw [readerBefore, hTake, hDrop, Reader.isReader.readOver_append, Reader.readOver,
      List.cons_append, List.take_append_drop]

/-- A quote that is met in code opens the string that a reader reads behind it. -/
theorem stringAt_of_reads
    (hCode : (readerBefore (before ++ opener :: (behind ++ tail)) before.length).mode = .code)
    (hOpener : opener.text = "\"") (hTail : ∀ token ∈ tail, token.text ≠ "\"")
    (hReads : ∀ reader : Reader, reader.mode = .string →
      reader.ReadsString offset chars behind length) :
    StringAt (before ++ opener :: (behind ++ tail)) before.length offset chars length := by
  obtain ⟨reader, hMode, hReader⟩ := readerBefore_behind hCode hOpener
  have hReads := hReads reader hMode
  cases length with
  | none =>
      have hStays := Reader.StaysInString.append hReads hTail
      intro inner hInner
      obtain ⟨count, rfl⟩ := Nat.exists_eq_add_of_lt hInner
      rw [Nat.add_right_comm, hReader]
      exact hStays _ (List.take_prefix ..) _
  | some count =>
      obtain ⟨inner, closer, later, rfl, hCloser, hStop, hStays, hBack⟩ := hReads
      rw [List.append_assoc, List.cons_append] at hReader ⊢
      refine ⟨before.length + 1 + inner.length, closer, by omega, ?_, hCloser, hStop, ?_, ?_⟩
      · rw [Nat.add_assoc, List.getElem?_append_right (Nat.le_add_right ..),
          Nat.add_sub_cancel_left, Nat.add_comm 1, List.getElem?_cons_succ]
        simp
      · intro place hBehind hPlace
        obtain ⟨count, rfl⟩ := Nat.exists_eq_add_of_lt hBehind
        rw [Nat.add_right_comm, hReader, List.take_append_of_le_length (by omega)]
        exact hStays _ (List.take_prefix ..) _
      · have hTake : (inner ++ closer :: (later ++ tail)).take (inner.length + 1) = inner ++
            [closer] := by
          rw [List.take_length_add_append]
          rfl
        rw [Nat.add_assoc, hReader, hTake]
        exact hBack _

/-- A string ends at the first quote that has no backslash right in front of it. -/
theorem OpensString.stringAt (h : OpensString (pre ++ "\"" ++ rest) pre.utf8ByteSize index) :
    StringAt (tokens none (pre ++ "\"" ++ rest)).list index (pre.utf8ByteSize + 1) rest.toList
      (stringLength? isBehindBackslash [] rest.toList) := by
  obtain ⟨⟨opener, hToken, hOpener, hStart⟩, hCode⟩ := h
  have hChars : (pre ++ "\"" ++ rest).toList = pre.toList ++ (['"'] ++ rest.toList) := by
    rw [String.toList_append, String.toList_append, List.append_assoc]
    rfl
  obtain ⟨front, opened, hSplits⟩ := SplitsUpTo.total delimiters 0 (pre ++ "\"" ++ rest).toList
  have hList := (list_tokens hSplits).1
  have hTail : ∀ token ∈ [Token.sentinel (pre ++ "\"" ++ rest).utf8ByteSize],
      token.text ≠ "\"" := by
    rw [List.forall_mem_singleton]
    exact (by decide : Token.sentinelText ≠ "\"")
  rw [hChars] at hSplits
  rw [hList] at hToken hCode ⊢
  obtain ⟨before, behind, rfl, hTokens, hBehind⟩ := hSplits.behind_piece
    ⟨'"', List.mem_singleton_self _, takeFirst?_quote⟩ hTail hToken hOpener
    (by rw [hStart, String.utf8Len_toList])
  rw [hTokens] at hCode ⊢
  rw [String.utf8Len_toList] at hBehind
  exact stringAt_of_reads hCode hOpener hTail fun reader hMode => readsString hBehind hMode rfl

end Texts

/-- Over every text and wherever a quote is met in code: the string that it opens ends at the first
quote that has no backslash right in front of it, and code goes on there. Without such a quote it
reaches to the end of the text. So a string without a closing quote by the language reaches to the
end of the text, and any other one ends at that quote, unless the string ends with a backslash. -/
theorem string_ends (pre rest : String) (index : Nat)
    (hOpens : OpensString (pre ++ "\"" ++ rest) pre.utf8ByteSize index) :
    let Ends :=
      StringAt (tokens none (pre ++ "\"" ++ rest)).list index (pre.utf8ByteSize + 1) rest.toList
    Ends (stringLength? isBehindBackslash [] rest.toList) ∧
      (stringLength? isEscapedByRun [] rest.toList = none → Ends none) ∧
      ∀ inner post, rest = inner ++ "\"" ++ post →
        stringLength? isEscapedByRun [] rest.toList = some (inner.length + 1) →
        inner.toList.getLast? ≠ some '\\' → Ends (some (inner.length + 1)) := by
  intro Ends
  have hEnds : Ends (stringLength? isBehindBackslash [] rest.toList) := hOpens.stringAt
  refine ⟨hEnds, fun hNone => ?_, ?_⟩
  · rwa [stringLength?_eq_none isBehindBackslash_of_run hNone] at hEnds
  · rintro inner post rfl hLength hLast
    have hChars : (inner ++ "\"" ++ post).toList = inner.toList ++ '"' :: post.toList := by
      rw [String.toList_append, String.toList_append, List.append_assoc]
      rfl
    have hCloses : isBehindBackslash (inner.toList.reverse ++ []) = false := by
      rw [isBehindBackslash_word rfl]
      exact decide_eq_false hLast
    rw [hChars] at hLength hEnds
    rw [← String.length_toList] at hLength ⊢
    rwa [stringLength?_eq_some isBehindBackslash_of_run hLength hCloses] at hEnds

/-- A string with an escaped quote ends at the quote behind it. -/
theorem string_ends_escapedQuote :
    let pre := "x "
    let rest := "a\\\" b\" y"
    OpensString (pre ++ "\"" ++ rest) 2 3 ∧
      StringAt (tokens none (pre ++ "\"" ++ rest)).list 3 3 rest.toList (some 6) := by
  intro pre rest
  have hOpens : OpensString (pre ++ "\"" ++ rest) 2 3 :=
    ⟨⟨⟨"\"", ⟨2, 3⟩⟩, by decide +kernel, rfl, rfl⟩, by decide +kernel⟩
  exact ⟨hOpens, (string_ends pre rest 3 hOpens).2.2 "a\\\" b" " y" rfl (by decide) (by decide)⟩

/-- But a string that ends with an escaped backslash is not closed, and all that follows is lost. -/
theorem string_runsOn :
    let rest := "\\\\\" w"
    (OpensString ("" ++ "\"" ++ rest) 0 1 ∧ stringLength? isEscapedByRun [] rest.toList = some 3 ∧
      ¬ StringAt (tokens none ("" ++ "\"" ++ rest)).list 1 1 rest.toList (some 3)) ∧
    (scan .moduleBody none "reg a = \"\\\\\"; reg b;").table.objects.names.map (·.text) =
      ["a"] := by
  intro rest
  have hOpens : OpensString ("" ++ "\"" ++ rest) 0 1 :=
    ⟨⟨⟨"\"", ⟨0, 1⟩⟩, by decide +kernel, rfl, rfl⟩, by decide +kernel⟩
  have hLength : stringLength? isBehindBackslash [] rest.toList = none := by decide
  have hEnds : StringAt (tokens none ("" ++ "\"" ++ rest)).list 1 1 rest.toList
      (stringLength? isBehindBackslash [] rest.toList) := hOpens.stringAt
  rw [hLength] at hEnds
  refine ⟨⟨hOpens, by decide, ?_⟩, by decide +kernel⟩
  rintro ⟨last, _, hBehind, -, -, -, -, hCode⟩
  cases (hEnds (last + 1) (by omega)).symm.trans hCode

end Verilog

end HdlIndex

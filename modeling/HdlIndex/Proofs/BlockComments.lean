import HdlIndex.Proofs.Lexical
import HdlIndex.Proofs.LookAhead
import HdlIndex.Proofs.Token.BlockComment
import HdlIndex.Proofs.Truncated

/-! Block comments of both languages. A comment ends at the first closer that its text has, unless a
delimiter that begins in front of that closer takes its star: both languages take the opener of a
comment as a whole inside of a comment too, and VHDL the power operator. -/
namespace HdlIndex

open String (utf8Len)

namespace Vhdl

theorem isTied_iff {c d : Char} : Delimiter.isTied delimiters c d = true ↔
    c = '*' ∧ (d = '/' ∨ d = '*') ∨ c = '/' ∧ (d = '*' ∨ d = '=') := by
  simp [Delimiter.isTied, delimiters, Delimiter.ofString]
  grind

/-- The delimiters of VHDL take stars and slashes in these ways. -/
theorem delimiters_readStars : Delimiter.ReadsStars delimiters where
  closer rest := rfl
  tied hTied rest := by
    rcases isTied_iff.1 hTied with ⟨rfl, rfl | rfl⟩ | ⟨rfl, rfl | rfl⟩ <;> rfl
  star := by decide
  slash := by decide
  starred := by decide

/-- The reader takes block comments as one in general does. -/
theorem Reader.takesBlocks : TakesBlocks Reader.read Reader.events Reader.finish Reader.mode .code
    Mode.blockComment Event.comment where
  opener hMode hText rest := by
    rw [Reader.read, hMode]
    simp [Reader.readCode, hText]
  inside hMode hText rest := by
    rw [Reader.read, hMode]
    simp [hText, hMode]
  closer hMode hText rest := by
    rw [Reader.read, hMode]
    simp [hText, Reader.emit]
  ended hMode size := by
    rw [Reader.finish, hMode]

end Vhdl

namespace Verilog

theorem isTied_iff {c d : Char} : Delimiter.isTied delimiters c d = true ↔
    c = '*' ∧ d = '/' ∨ c = '/' ∧ (d = '*' ∨ d = '/') := by
  simp [Delimiter.isTied, delimiters, Delimiter.ofString]
  grind

/-- And so do those of Verilog. -/
theorem delimiters_readStars : Delimiter.ReadsStars delimiters where
  closer rest := rfl
  tied hTied rest := by
    rcases isTied_iff.1 hTied with ⟨rfl, rfl⟩ | ⟨rfl, rfl | rfl⟩ <;> rfl
  star := by decide
  slash := by decide
  starred := by decide

/-- The reader takes block comments as one in general does. -/
theorem Reader.takesBlocks : TakesBlocks Reader.read Reader.events Reader.finish Reader.mode .code
    Mode.blockComment Event.comment where
  opener hMode hText rest := by
    rw [Reader.read, hMode]
    simp [Reader.readCode, hText]
  inside hMode hText rest := by
    rw [Reader.read, hMode]
    simp [hText, hMode]
  closer hMode hText rest := by
    rw [Reader.read, hMode]
    simp [hText, Reader.emit]
  ended hMode size := by
    rw [Reader.finish, hMode]

end Verilog

section Languages

variable {language : Language} {start : Start} {pre rest : String}

namespace Language

/-- The tokens of a whole text. -/
def tokens (language : Language) (text : String) : List Token :=
  match language with
  | vhdl => (Vhdl.tokens none text).list
  | verilog => (Verilog.tokens none text).list

/-- Behind so many tokens of a text its reader is outside of comments, strings and directives. -/
def IsInCode (language : Language) (text : String) (count : Nat) : Prop :=
  match language with
  | vhdl => (Vhdl.readerBefore (Vhdl.tokens none text).list count).mode = .code
  | verilog => (Verilog.readerBefore (Verilog.tokens none text).list count).mode = .code

instance (language : Language) (text : String) (count : Nat) :
    Decidable (language.IsInCode text count) :=
  match language with
  | vhdl => inferInstanceAs (Decidable ((Vhdl.readerBefore _ count).mode = .code))
  | verilog => inferInstanceAs (Decidable ((Verilog.readerBefore _ count).mode = .code))

/-- The opener of a block comment is met in code at a byte offset. -/
def MeetsComment (language : Language) (text : String) (offset : Nat) : Prop :=
  ∃ index opener, (language.tokens text)[index]? = some opener ∧ opener.text = "/*" ∧
    opener.span.start = offset ∧ language.IsInCode text index

/-- A block comment is closed at a byte offset, and code goes on behind it. -/
def ClosesComment (language : Language) (text : String) (offset : Nat) : Prop :=
  ∃ index closer, (language.tokens text)[index]? = some closer ∧ closer.text = "*/" ∧
    closer.span.stop = offset ∧ language.IsInCode text (index + 1)

end Language

/-- The design has the comment at a range of its text. -/
def Start.Records (start : Start) (text : String) (span : Span) : Prop :=
  ⟨String.ofList (Text.trimEnd (span.slice text).toList), span⟩ ∈
    (scan start none text).design.comments

/-- What a block comment of `count` characters behind its opener is in a text. Without a closer it
reaches to the end of the text. -/
def Start.HasComment (start : Start) (pre rest : String) (count : Option Nat) : Prop :=
  let text := pre ++ "/*" ++ rest
  match count with
  | some count =>
    let stop := pre.utf8ByteSize + 2 + utf8Len (rest.toList.take count)
    start.Records text ⟨pre.utf8ByteSize, stop⟩ ∧ start.language.ClosesComment text stop
  | none => start.Records text ⟨pre.utf8ByteSize, text.utf8ByteSize⟩

/-- Folding the letters of a text changes nothing about its comments. -/
theorem Vhdl.commentLength?_toLower (chars : List Char) :
    commentLength? delimiters (chars.map Char.toLower) = commentLength? delimiters chars := by
  have hSame : ∀ {c d : Char}, d.toLower = d → d.val.toNat < 97 → (c.toLower = d ↔ c = d) :=
    fun hFolded hLetter => ⟨fun h => Text.eq_of_toLower_eq h hLetter, fun h => h ▸ hFolded⟩
  have hStar : ∀ {c : Char}, c.toLower = '*' ↔ c = '*' := hSame rfl (by decide)
  have hSlash : ∀ {c : Char}, c.toLower = '/' ↔ c = '/' := hSame rfl (by decide)
  have hEquals : ∀ {c : Char}, c.toLower = '=' ↔ c = '=' := hSame rfl (by decide)
  refine commentLength?_map (fun c d => by rw [hStar, hSlash]) (fun c d => ?_) chars
  rw [Bool.eq_iff_iff, isTied_iff, isTied_iff, hStar, hStar, hSlash, hSlash, hEquals]

/-- The characters of a text around the opener of a comment. -/
theorem toList_comment (pre rest : String) :
    (pre ++ "/*" ++ rest).toList = pre.toList ++ '/' :: '*' :: rest.toList := by
  rw [String.toList_append, String.toList_append, List.append_assoc]
  rfl

namespace Language

/-- The tokens of a text from the opener of a comment on, up to the first closer among them. -/
theorem MeetsComment.tokens (h : language.MeetsComment (pre ++ "/*" ++ rest) pre.utf8ByteSize) :
    ∃ before opener behind, language.tokens (pre ++ "/*" ++ rest) = before ++ opener :: behind ∧
      opener.text = "/*" ∧ opener.span.start = pre.utf8ByteSize ∧
      language.IsInCode (pre ++ "/*" ++ rest) before.length ∧
      EndsComment behind ((commentLength? language.delimiters rest.toList).map fun count =>
        pre.utf8ByteSize + 2 + utf8Len (rest.toList.take count)) := by
  obtain ⟨index, opener, hToken, hOpener, hStart, hCode⟩ := h
  have hChars := toList_comment pre rest
  generalize pre ++ "/*" ++ rest = text at hToken hCode hChars
  cases language with
  | verilog =>
      obtain ⟨front, opened, hSplits⟩ := SplitsUpTo.total Verilog.delimiters 0 text.toList
      have hList := (Verilog.list_tokens hSplits).1
      have hTail : ∀ token ∈ [Token.sentinel text.utf8ByteSize], token.text ≠ "/*" ∧
          token.text ≠ "*/" := by
        rw [List.forall_mem_singleton]
        exact (by decide : Token.sentinelText ≠ "/*" ∧ Token.sentinelText ≠ "*/")
      rw [hChars] at hSplits
      rw [tokens, hList] at hToken ⊢
      obtain ⟨before, behind, rfl, hTokens, hBehind⟩ := hSplits.blockComment
        Verilog.delimiters_readStars hTail hToken hOpener (by rw [hStart, String.utf8Len_toList])
      rw [String.utf8Len_toList] at hBehind
      exact ⟨before, opener, behind, hTokens, hOpener, hStart, hCode, hBehind⟩
  | vhdl =>
      obtain ⟨front, opened, hSplits⟩ :=
        SplitsUpTo.total Vhdl.delimiters 0 (Text.foldCase text).toList
      have hList := Vhdl.list_tokens hSplits
      have hTail : ∀ token ∈ SplitsUpTo.closing false opened text.utf8ByteSize,
          token.text ≠ "/*" ∧ token.text ≠ "*/" := by
        intro token hMem
        rw [SplitsUpTo.closing] at hMem
        split at hMem
        · rw [List.mem_singleton.1 hMem]
          exact ⟨by simp [Token.placed], by simp [Token.placed]⟩
        · cases hMem
      have hFolded : (Text.foldCase text).toList =
          pre.toList.map Char.toLower ++ '/' :: '*' :: rest.toList.map Char.toLower := by
        rw [Text.toList_foldCase, hChars, List.map_append]
        rfl
      have hSize : utf8Len (pre.toList.map Char.toLower) = pre.utf8ByteSize := by
        rw [Text.utf8Len_map_toLower, String.utf8Len_toList]
      rw [hFolded] at hSplits
      rw [tokens, hList] at hToken ⊢
      obtain ⟨before, behind, rfl, hTokens, hBehind⟩ := hSplits.blockComment
        Vhdl.delimiters_readStars hTail hToken hOpener (hStart.trans hSize.symm)
      simp only [Vhdl.commentLength?_toLower, hSize, ← List.map_take,
        Text.utf8Len_map_toLower] at hBehind
      exact ⟨before, opener, behind, hTokens, hOpener, hStart, hCode, hBehind⟩

end Language

namespace Start

variable {text : String} {opener closer : Token} {before inner behind : List Token}

/-- The tokens from an opener in code to the closer behind it are one comment. -/
theorem records_of_closer
    (hTokens : start.language.tokens text = before ++ opener :: (inner ++ closer :: behind))
    (hCode : start.language.IsInCode text before.length) (hOpener : opener.text = "/*")
    (hInner : ∀ token ∈ inner, token.text ≠ "*/") (hCloser : closer.text = "*/") :
    start.Records text ⟨opener.span.start, closer.span.stop⟩ ∧
      start.language.ClosesComment text closer.span.stop := by
  cases start with
  | vhdl region =>
      change (Vhdl.tokens none text).list = _ at hTokens
      change (Vhdl.readerBefore _ _).mode = _ at hCode
      rw [hTokens] at hCode
      obtain ⟨hToken, hMode, hMem⟩ :=
        Vhdl.Reader.takesBlocks.comment_of_closer Vhdl.Reader.isReader hCode hOpener hInner hCloser
          text.utf8ByteSize
      rw [← hTokens] at hToken hMode hMem
      exact ⟨List.mem_map_of_mem (List.mem_filterMap.2 ⟨_, hMem, rfl⟩), _, closer, hToken,
        hCloser, rfl, hMode⟩
  | verilog region =>
      change (Verilog.tokens none text).list = _ at hTokens
      change (Verilog.readerBefore _ _).mode = _ at hCode
      rw [hTokens] at hCode
      obtain ⟨hToken, hMode, hMem⟩ :=
        Verilog.Reader.takesBlocks.comment_of_closer Verilog.Reader.isReader hCode hOpener
          hInner hCloser text.utf8ByteSize
      rw [← hTokens] at hToken hMode hMem
      exact ⟨List.mem_map_of_mem (List.mem_filterMap.2 ⟨_, hMem, rfl⟩), _, closer, hToken,
        hCloser, rfl, hMode⟩

/-- Without a closer the comment reaches to the end of the text. -/
theorem records_of_end (hTokens : start.language.tokens text = before ++ opener :: behind)
    (hCode : start.language.IsInCode text before.length) (hOpener : opener.text = "/*")
    (hBehind : ∀ token ∈ behind, token.text ≠ "*/") :
    start.Records text ⟨opener.span.start, text.utf8ByteSize⟩ := by
  cases start with
  | vhdl region =>
      change (Vhdl.tokens none text).list = _ at hTokens
      change (Vhdl.readerBefore _ _).mode = _ at hCode
      rw [hTokens] at hCode
      have hMem := Vhdl.Reader.takesBlocks.comment_of_end Vhdl.Reader.isReader hCode hOpener hBehind
        text.utf8ByteSize
      rw [← hTokens] at hMem
      exact List.mem_map_of_mem (List.mem_filterMap.2 ⟨_, hMem, rfl⟩)
  | verilog region =>
      change (Verilog.tokens none text).list = _ at hTokens
      change (Verilog.readerBefore _ _).mode = _ at hCode
      rw [hTokens] at hCode
      have hMem :=
        Verilog.Reader.takesBlocks.comment_of_end Verilog.Reader.isReader hCode hOpener hBehind
          text.utf8ByteSize
      rw [← hTokens] at hMem
      exact List.mem_map_of_mem (List.mem_filterMap.2 ⟨_, hMem, rfl⟩)

/-- A block comment ends where the delimiters see a closer. -/
theorem hasComment (h : start.language.MeetsComment (pre ++ "/*" ++ rest) pre.utf8ByteSize) :
    start.HasComment pre rest (commentLength? start.language.delimiters rest.toList) := by
  obtain ⟨before, opener, behind, hTokens, hOpener, hStart, hCode, hBehind⟩ := h.tokens
  cases hCount : commentLength? start.language.delimiters rest.toList with
  | none =>
      rw [hCount] at hBehind
      rw [HasComment, ← hStart]
      exact records_of_end hTokens hCode hOpener hBehind
  | some count =>
      rw [hCount] at hBehind
      obtain ⟨inner, closer, later, rfl, hInner, hCloser, hStop⟩ := hBehind
      have hComment := records_of_closer hTokens hCode hOpener hInner hCloser
      rw [hStart, hStop] at hComment
      exact hComment

end Start

/-- Over every text of either language, from every start and wherever the opener of a block comment
is met in code: the comment ends where the delimiters see a closer, and code goes on behind it. That
is at the first closer that the text has, unless its star is tied to the character in front of it,
and at the end of a text that has no closer. -/
theorem scan_blockComment (start : Start) (pre rest : String)
    (hMet : start.language.MeetsComment (pre ++ "/*" ++ rest) pre.utf8ByteSize) :
    start.HasComment pre rest (commentLength? start.language.delimiters rest.toList) ∧
      (¬ "*/".toList <:+: rest.toList → start.HasComment pre rest none) ∧
      ∀ inner post, rest = inner ++ "*/" ++ post → ¬ "*/".toList <:+: inner.toList →
        (∀ c ∈ inner.toList.getLast?, Delimiter.isTied start.language.delimiters c '*' = false) →
        let stop := (pre ++ "/*" ++ inner ++ "*/").utf8ByteSize
        start.Records (pre ++ "/*" ++ rest) ⟨pre.utf8ByteSize, stop⟩ ∧
          start.language.ClosesComment (pre ++ "/*" ++ rest) stop := by
  have hComment := start.hasComment hMet
  refine ⟨hComment, fun hNone => ?_, ?_⟩
  · rwa [commentLength?_eq_none hNone] at hComment
  · rintro inner post rfl hFirst hFree
    have hChars : (inner ++ "*/" ++ post).toList = inner.toList ++ '*' :: '/' :: post.toList := by
      rw [String.toList_append, String.toList_append, List.append_assoc]
      rfl
    have hTake : (inner.toList ++ '*' :: '/' :: post.toList).take (inner.toList.length + 2) =
        (inner ++ "*/").toList := by
      rw [List.take_length_add_append, String.toList_append]
      rfl
    have hStop : (pre ++ "/*" ++ inner ++ "*/").utf8ByteSize =
        pre.utf8ByteSize + 2 + (inner ++ "*/").utf8ByteSize := by
      rw [String.append_assoc, String.utf8ByteSize_append, String.utf8ByteSize_append]
      rfl
    rw [hChars, commentLength?_of_first hFirst hFree, Start.HasComment, hChars, hTake,
      String.utf8Len_toList, ← hStop] at hComment
    exact hComment

/-- Stars, slashes and operators stand in the comment of a VHDL text and in that of a Verilog
text. -/
theorem scan_blockComment_operators :
    (Start.file .vhdl).Records "x /* ** / /= */ y" ⟨2, 15⟩ ∧
      (Start.file .verilog).Records "x /* ***/ y" ⟨2, 9⟩ := by
  have hVhdl : Language.vhdl.MeetsComment ("x " ++ "/*" ++ " ** / /= */ y") 2 :=
    ⟨3, ⟨"/*", ⟨2, 4⟩⟩, by decide +kernel, rfl, rfl, by decide +kernel⟩
  have hVerilog : Language.verilog.MeetsComment ("x " ++ "/*" ++ " ***/ y") 2 :=
    ⟨3, ⟨"/*", ⟨2, 4⟩⟩, by decide +kernel, rfl, rfl, by decide +kernel⟩
  exact ⟨((scan_blockComment (.file .vhdl) "x " " ** / /= */ y" hVhdl).2.2 " ** / /= " " y" rfl
      (by decide) (forall_mem_of_all (by decide))).1,
    ((scan_blockComment (.file .verilog) "x " " ***/ y" hVerilog).2.2 " **" " y" rfl
      (by decide) (forall_mem_of_all (by decide))).1⟩

/-- But the power operator takes the star of a closer in VHDL, and so does an opener in both
languages: the comment goes on to the end of these texts. -/
theorem blockComment_runsOn :
    ((scan (.file .vhdl) none "/* a **/ b").design.comments.map (·.span) = [⟨0, 10⟩] ∧
      Language.vhdl.MeetsComment "/* a **/ b" 0 ∧ ¬ "*/".toList <:+: " a *".toList) ∧
    ((scan (.file .verilog) none "/* a /*/ b").design.comments.map (·.span) = [⟨0, 10⟩] ∧
      Language.verilog.MeetsComment "/* a /*/ b" 0 ∧ ¬ "*/".toList <:+: " a /".toList) :=
  ⟨⟨by decide +kernel,
    ⟨1, ⟨"/*", ⟨0, 2⟩⟩, by decide +kernel, rfl, rfl, by decide +kernel⟩, by decide⟩,
    ⟨by decide +kernel,
      ⟨1, ⟨"/*", ⟨0, 2⟩⟩, by decide +kernel, rfl, rfl, by decide +kernel⟩, by decide⟩⟩

end Languages

end HdlIndex

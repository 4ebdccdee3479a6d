import HdlIndex.Proofs.Verilog.Seeking

/-! Lines that hold a compiler directive. The walk passes over them, but a word that looks ahead
does not: it sees the directive instead of the word behind the line. Where the last word in front of
the line does not look for the word behind it, the line changes the places of a table only, and the
text of a parameter clause that it stands in. -/
namespace HdlIndex.Verilog

open String (utf8Len)

/-- A line of blanks, a compiler directive, and its arguments up to the new-line. A directive that
includes a file is another matter, as the file is recorded. -/
structure DirectiveLine where
  indent : String
  directive : String
  arguments : String
  isBlank : ∀ c ∈ indent.toList, Text.isAsciiBlank c = true ∧ c ≠ '\n'
  isLineDirective : isLineDirective directive = true
  not_include : directive ≠ "`include"
  one_line : '\n' ∉ arguments.toList
  apart : arguments = "" ∨ Delimiter.takeFirst? delimiters arguments.toList ≠ none

/-- The line as it is written. -/
def DirectiveLine.text (line : DirectiveLine) : String :=
  line.indent ++ line.directive ++ line.arguments ++ "\n"

/-- What the line covers from its directive up to its new-line, in a text where the line begins at a
byte offset. -/
def DirectiveLine.place (line : DirectiveLine) (offset : Nat) : Span :=
  ⟨offset + line.indent.utf8ByteSize,
    offset + (line.indent ++ line.directive ++ line.arguments).utf8ByteSize⟩

/-- The text ends with a new-line that is met outside of comments, strings and directives. -/
structure EndsLine (text : String) : Prop where
  newline : text.toList.getLast? = some '\n'
  code : (Reader.readAll {} (tokens none text).proper.dropLast).mode = .code

/-- What the last word of a text looks for behind the text. -/
def soughtBehind (region : Region) (text : String) : List Symbol :=
  (Walk.start region).sought (Reader.readAll {} (tokens none text).proper).events.toList []

namespace DirectiveLine

variable (line : DirectiveLine) {reader : Reader} {token : Token} {gaps others rest : List Token}
  {start : Nat}

/-- The name of a directive is split off as one token. -/
theorem plain : ∀ c ∈ line.directive.toList, Delimiter.Plain delimiters c := by
  have hMem := line.isLineDirective
  rw [Verilog.isLineDirective, List.contains_iff_mem] at hMem
  have hEvery : ∀ text ∈ lineDirectives,
      text.toList.all (fun c => ! delimiters.any (·.leads c)) = true := by decide +kernel
  exact Delimiter.plain_of_all (hEvery _ hMem)

/-- A directive begins with a backtick, so that it is a word of its own and has no meaning. -/
theorem symbol : line.directive.toList.head? = some '`' ∧ Symbol.ofText line.directive = .other ∧
    (∀ text ∈ ["//", "/*", "\""], line.directive ≠ text) := by
  have hMem := line.isLineDirective
  rw [Verilog.isLineDirective, List.contains_iff_mem] at hMem
  have hEvery : ∀ text ∈ lineDirectives, text.toList.head? = some '`' ∧
      Symbol.ofText text = .other ∧ ∀ other ∈ ["//", "/*", "\""], text ≠ other := by decide +kernel
  exact hEvery _ hMem

/-- The line includes no file. -/
theorem not_isPrefixOf (behind : List Char) :
    "`include".toList.isPrefixOf (line.directive.toList ++ behind) = false := by
  have hMem := line.isLineDirective
  rw [Verilog.isLineDirective, List.contains_iff_mem] at hMem
  have hEvery : ∀ text ∈ lineDirectives, text = "`include" ∨
      ¬ text.toList <+: "`include".toList ∧ ¬ "`include".toList <+: text.toList := by decide +kernel
  obtain ⟨hShort, hLong⟩ := (hEvery _ hMem).resolve_left line.not_include
  rw [← Bool.not_eq_true, List.isPrefixOf_iff_prefix]
  intro hPrefix
  exact (List.prefix_or_prefix_of_prefix hPrefix (List.prefix_append _ _)).elim hLong hShort

/-- A directive line is one line. -/
theorem newline_notMem : '\n' ∉ line.directive.toList ++ line.arguments.toList := by
  rw [List.mem_append, not_or]
  refine ⟨fun hMem => ?_, line.one_line⟩
  have hFound := line.plain _ hMem []
  rw [Delimiter.takeFirst?_newline delimiters_areBroken] at hFound
  cases hFound

/-- The directive is a word, up to the first delimiter of the arguments. -/
theorem splits_word (offset : Nat) : ∃ others opened,
    SplitsUpTo delimiters offset (line.directive.toList ++ line.arguments.toList)
      (.placed offset line.directive.toList :: others) opened := by
  rcases line.apart with hNone | hFound
  · obtain ⟨letters, hLetters⟩ := List.head?_eq_some_iff.1 line.symbol.1
    refine ⟨[], true, ?_⟩
    rw [hNone, String.toList_empty, List.append_nil]
    exact .last (by simp [hLetters]) (cutFrom?_plain [] line.plain)
  · obtain ⟨count, hCount⟩ := Option.ne_none_iff_exists'.1 hFound
    obtain ⟨_, delimiter, _, -, -, hTake⟩ := Delimiter.takeFirst?_eq_some hCount
    obtain ⟨piece, behind, hParts, rfl, -⟩ := Delimiter.matches_of_take? hTake
    rw [hParts] at hCount
    have hCut := cut?_append line.plain hCount
    obtain ⟨tokens, opened, hRest⟩ := SplitsUpTo.total delimiters
      (offset + utf8Len line.directive.toList + utf8Len piece) behind
    rw [hParts]
    exact ⟨_, opened, .cut hCut hRest⟩

/-- A new-line alone is a delimiter behind an empty word. -/
theorem splits_newline (offset : Nat) :
    SplitsUpTo delimiters offset ['\n'] [.placed offset [], .placed offset ['\n']] false := by
  have hCut : cut? delimiters ['\n'] = some ⟨[], ['\n'], []⟩ := by
    rw [cut?, cutFrom?, Delimiter.takeFirst?_newline delimiters_areBroken]
    rfl
  exact .cut hCut (.done _)

/-- Tokens of a part without a new-line are neither a new-line nor the sentinel. -/
theorem ne_newline_of_splits {chars : List Char} {tokens : List Token} {opened : Bool}
    {offset : Nat}
    (h : SplitsUpTo delimiters offset chars tokens opened) (hNewline : '\n' ∉ chars) :
    ∀ token ∈ tokens, token.text ≠ "\n" ∧ token.isSentinel = false := by
  intro token hMem
  obtain ⟨start, part, rfl, hPart⟩ := h.placed_of_mem token hMem
  refine ⟨fun hText => hNewline (hPart _ ?_), Token.isSentinel_placed start part⟩
  have hChars : part = ['\n'] := by
    rw [← String.toList_ofList (l := part)]
    exact congrArg String.toList hText
  simp [hChars]

/-- The new-line ends the directive and its arguments. Where they end with a delimiter, an empty
word stands between it and the new-line. -/
theorem splits_body (offset : Nat) : ∃ others,
    SplitsUpTo delimiters offset (line.directive.toList ++ line.arguments.toList ++ ['\n'])
      (.placed offset line.directive.toList :: others ++
        [.placed (offset + utf8Len (line.directive.toList ++ line.arguments.toList)) ['\n']])
          false ∧
    ∀ token ∈ others, token.text ≠ "\n" ∧ token.isSentinel = false := by
  obtain ⟨others, opened, hSplits⟩ := line.splits_word offset
  set stop := offset + utf8Len (line.directive.toList ++ line.arguments.toList)
  have hSeam : Seam (line.directive.toList ++ line.arguments.toList) ['\n'] := by
    rintro c - d hHead
    obtain rfl : '\n' = d := Option.some.inj hHead
    exact ⟨.inr rfl, by simp [Delimiter.isGap_newline]⟩
  have hBoth := hSplits.append delimiters_areBroken hSeam (by simp) (splits_newline stop)
  have hOthers := (List.forall_mem_cons.1 (ne_newline_of_splits hSplits line.newline_notMem)).2
  cases opened with
  | true => exact ⟨others, hBoth, hOthers⟩
  | false =>
      refine ⟨others ++ [.placed stop []], by simpa using hBoth,
        List.forall_mem_append.2 ⟨hOthers, ?_⟩⟩
      rw [List.forall_mem_singleton]
      exact ⟨(by decide : String.ofList [] ≠ "\n"), Token.isSentinel_placed stop []⟩

theorem isGap_of_mem_indent : ∀ c ∈ line.indent.toList, Delimiter.isGap c = true := by
  intro c hMem
  obtain ⟨hBlank, hLine⟩ := line.isBlank c hMem
  simpa [Delimiter.isWhite, hLine] using Delimiter.isWhite_of_isAsciiBlank hBlank

/-- The blanks in front of a directive are a delimiter of their own, if there are any. -/
theorem splits_indent {tokens : List Token} {opened : Bool} (offset : Nat)
    (h : SplitsUpTo delimiters (offset + utf8Len line.indent.toList)
      (line.directive.toList ++ line.arguments.toList ++ ['\n']) tokens opened) :
    ∃ gaps, SplitsUpTo delimiters offset line.text.toList (gaps ++ tokens) opened ∧
      ∀ token ∈ gaps, token.isBlank = true := by
  obtain ⟨letters, hLetters⟩ := List.head?_eq_some_iff.1 line.symbol.1
  have hChars : line.text.toList =
      line.indent.toList ++ (line.directive.toList ++ line.arguments.toList ++ ['\n']) := by
    simp [text]
  rw [hChars]
  by_cases hNone : line.indent = ""
  · exact ⟨[], by simpa [hNone] using h, by simp⟩
  · have hRun :=
      SplitsUpTo.run delimiters_areBroken (by simpa using hNone) line.isGap_of_mem_indent offset
    have hSeam : Seam line.indent.toList
        (line.directive.toList ++ line.arguments.toList ++ ['\n']) := by
      intro c hLast d hHead
      have hGap := line.isGap_of_mem_indent c (List.mem_of_mem_getLast? hLast)
      obtain rfl : '`' = d := by simpa [hLetters] using hHead
      exact ⟨.inl (Delimiter.isWhite_of_isGap hGap), by simp [Delimiter.isGap]⟩
    refine ⟨[.placed offset [], .placed offset line.indent.toList],
      hRun.append delimiters_areBroken hSeam (by simp) h, ?_⟩
    rw [List.forall_mem_cons, List.forall_mem_singleton]
    refine ⟨Token.isBlank_placed offset [], ?_⟩
    rw [Token.isBlank, Token.placed, String.toList_ofList, List.all_eq_true]
    exact fun c hMem => (line.isBlank c hMem).1

/-- The tokens of the line: blanks, the directive, its arguments, and the new-line. Only the last
one of them is a new-line, so that the reader stays inside of the directive up to there. -/
theorem splits (offset : Nat) : ∃ gaps others,
    SplitsUpTo delimiters offset line.text.toList
      (gaps ++ .placed (line.place offset).start line.directive.toList :: others ++
        [.placed (line.place offset).stop ['\n']]) false ∧
    (∀ token ∈ gaps, token.isBlank = true) ∧
    ∀ token ∈ others, token.text ≠ "\n" ∧ token.isSentinel = false := by
  obtain ⟨others, hBody, hOthers⟩ := line.splits_body (offset + line.indent.utf8ByteSize)
  have hStop : offset + line.indent.utf8ByteSize +
      utf8Len (line.directive.toList ++ line.arguments.toList) = (line.place offset).stop := by
    simp only [place, String.utf8Len_append, String.utf8Len_toList, String.utf8ByteSize_append]
    omega
  rw [hStop] at hBody
  obtain ⟨gaps, hSplits, hGaps⟩ :=
    line.splits_indent offset (by rwa [String.utf8Len_toList] : SplitsUpTo delimiters _ _ _ false)
  exact ⟨gaps, others, by simpa [place] using hSplits, hGaps, hOthers⟩

end DirectiveLine

section Reading

variable {mode middle after : Mode} {tokens others : List Token} {events events' : List Event}
  {start : Nat}

/-- Whatever stands behind the tokens, a reader in the first mode reads them as the events, and is
in the second mode behind them. -/
def Mode.Reads (mode : Mode) (tokens : List Token) (events : List Event) (after : Mode) : Prop :=
  ∀ reader : Reader, reader.mode = mode → ∀ rest,
    reader.emittedOver tokens rest = events ∧ (reader.readOver tokens rest).mode = after

namespace Mode.Reads

/-- Readings of adjacent tokens are one reading. -/
theorem append (h : mode.Reads tokens events middle) (h' : middle.Reads others events' after) :
    mode.Reads (tokens ++ others) (events ++ events') after := by
  intro reader hMode rest
  obtain ⟨hEvents, hMiddle⟩ := h reader hMode (others ++ rest)
  obtain ⟨hEvents', hAfter⟩ := h' _ hMiddle rest
  rw [Reader.isReader.emittedOver_append, Reader.isReader.readOver_append, hEvents, hEvents']
  exact ⟨rfl, hAfter⟩

/-- A token that is read alike by all readers in a mode. -/
theorem single {token : Token} (h : ∀ reader : Reader, reader.mode = mode → ∀ rest,
      (reader.read token rest).mode = after ∧
        (reader.read token rest).events = reader.events ++ events.toArray) :
    mode.Reads [token] events after := by
  intro reader hMode rest
  have hForget : reader.forget.mode = mode := hMode
  refine ⟨?_, (h reader hMode _).1⟩
  rw [Reader.emittedOver, Reader.emittedOver, Reader.emitted, List.append_nil, (h _ hForget _).2]
  simp [Reader.forget]

/-- Blanks outside of comments and strings are fillers. -/
theorem blanks (h : ∀ token ∈ tokens, token.isBlank = true) :
    Mode.code.Reads tokens (tokens.map .filler) .code := by
  induction tokens with
  | nil => exact fun reader hMode rest => ⟨rfl, hMode⟩
  | cons token tokens ih =>
      rw [List.forall_mem_cons] at h
      have hHere : Mode.code.Reads [token] [.filler token] .code :=
        .single fun reader hMode rest => by
          rw [Reader.read, hMode]
          dsimp only
          rw [Reader.readCode_blank h.1]
          exact ⟨hMode, by simp [Reader.emit]⟩
      exact hHere.append (ih h.2)

/-- A directive goes on up to the new-line. -/
theorem arguments (h : ∀ token ∈ tokens, token.text ≠ "\n" ∧ token.isSentinel = false) :
    (Mode.directive start).Reads tokens [] (.directive start) := by
  induction tokens with
  | nil => exact fun reader hMode rest => ⟨rfl, hMode⟩
  | cons token tokens ih =>
      rw [List.forall_mem_cons] at h
      have hHere : (Mode.directive start).Reads [token] [] (.directive start) :=
        .single fun reader hMode rest => by
          have hEnd : ¬ (decide (token.text = "\n") || token.isSentinel) = true := by simp [h.1]
          rw [Reader.read, hMode]
          dsimp only
          rw [if_neg hEnd]
          exact ⟨hMode, by simp⟩
      exact hHere.append (ih h.2)

end Mode.Reads

/-- The line is read as its blanks and one directive. -/
theorem DirectiveLine.reads (line : DirectiveLine) {gaps others : List Token} (start stop : Nat)
    (hGaps : ∀ token ∈ gaps, token.isBlank = true)
    (hOthers : ∀ token ∈ others, token.text ≠ "\n" ∧ token.isSentinel = false) :
    Mode.code.Reads
      (gaps ++ .placed start line.directive.toList :: others ++ [.placed stop ['\n']])
      (gaps.map .filler ++ [.directive ⟨start, stop⟩]) .code := by
  obtain ⟨-, -, hNot⟩ := line.symbol
  set word := Token.placed start line.directive.toList with hWord
  have hText : word.text = line.directive := String.ofList_toList
  have hOpens : Mode.code.Reads [word] [] (.directive start) := .single fun reader hMode rest => by
    rw [Reader.read, hMode]
    dsimp only
    rw [Reader.readCode, hText, if_neg (hNot _ (by simp)), if_neg (hNot _ (by simp)),
      if_neg (hNot _ (by simp)), if_neg (by simp [hWord, Token.isSentinel_placed]),
      if_pos line.isLineDirective]
    exact ⟨rfl, by simp⟩
  have hCloses :
      (Mode.directive start).Reads [.placed stop ['\n']] [.directive ⟨start, stop⟩] .code :=
    .single fun reader hMode rest => by
      rw [Reader.read, hMode]
      exact ⟨rfl, by simp [Reader.emit, Token.placed]⟩
  have hLine :=
    (Mode.Reads.blanks hGaps).append (hOpens.append ((Mode.Reads.arguments hOthers).append hCloses))
  simpa using hLine

end Reading

section Seeking

/-- Words without a meaning of their own are not looked for. -/
theorem Block.seeks_ne_other (block : Block) (here : Lexeme) :
    ∀ symbol ∈ block.seeks here, symbol ≠ .other := by
  rw [seeks]
  split
  · simp
  split
  case h_2 | h_3 | h_9 => simp
  all_goals split <;> simp

/-- What a walk looks for ahead always has a meaning of its own. -/
theorem Walk.seeks_ne_other (walk : Walk) (here : Lexeme) :
    ∀ symbol ∈ walk.seeks here, symbol ≠ .other := by
  rw [seeks]
  split
  · simp
  split
  · rw [seeksItem]
    split
    · simp
    · split <;> simp
  · split <;> simp
  · split <;> simp
  · split
    · simp
    · exact Block.seeks_ne_other _ here
  · exact Block.seeks_ne_other _ here
  · simp

/-- So over a whole run nothing without a meaning is looked for. -/
theorem Walk.sought_ne_other {walk : Walk} {symbols : List Symbol}
    (h : ∀ symbol ∈ symbols, symbol ≠ .other) (events : List Event) :
    ∀ symbol ∈ walk.sought events symbols, symbol ≠ .other := by
  induction events generalizing walk symbols with
  | nil => exact h
  | cons event events ih =>
      apply ih
      cases event with
      | comment span => exact h
      | filler token =>
          rw [seeksBehind]
          split
          · exact h
          · simp
      | word here next => exact walk.seeks_ne_other here
      | _ => simp [seeksBehind]

end Seeking

section Inserting

variable {region : Region} {pre post : String}

/-- A directive other than that of an included file includes nothing. -/
theorem DirectiveLine.includedFile? (line : DirectiveLine) (pre post : String) :
    Verilog.includedFile? (pre ++ line.text ++ post) (line.place pre.utf8ByteSize) = none := by
  have hSlice : (line.place pre.utf8ByteSize).slice (pre ++ line.text ++ post) =
      line.directive ++ line.arguments := by
    refine Span.Covers.slice_eq ⟨(pre ++ line.indent).toList,
      ("\n" ++ post).toList, by simp [text], ?_⟩
    simp [place, String.utf8Len_append, String.utf8Len_toList, Nat.add_assoc]
  rw [Verilog.includedFile?, hSlice, String.toList_append, line.not_isPrefixOf]
  rfl

/-- So the line has nothing that a table keeps apart from words. -/
theorem DirectiveLine.isQuiet (line : DirectiveLine) (pre post : String) (gaps : List Token) :
    ∀ event ∈ gaps.map Event.filler ++ [.directive (line.place pre.utf8ByteSize)],
      event.IsQuiet (pre ++ line.text ++ post) := by
  rw [List.forall_mem_append, List.forall_mem_map, List.forall_mem_singleton]
  refine ⟨fun token _ => ⟨rfl, rfl, by simp [Event.directive?]⟩, ⟨rfl, rfl, ?_⟩⟩
  intro span hSpan
  obtain rfl := Option.some.inj hSpan
  exact line.includedFile? pre post

/-- The directive is what a word in front of the line sees ahead. -/
theorem DirectiveLine.lookAhead (line : DirectiveLine) {gaps : List Token} {start : Nat}
    (hGaps : ∀ token ∈ gaps, token.isBlank = true) (rest : List Token) :
    Verilog.lookAhead (gaps ++ .placed start line.directive.toList :: rest) =
      some (.ofToken (.placed start line.directive.toList)) := by
  obtain ⟨hHead, -, hNot⟩ := line.symbol
  obtain ⟨letters, hLetters⟩ := List.head?_eq_some_iff.1 hHead
  have hText : (Token.placed start line.directive.toList).text = line.directive :=
    String.ofList_toList
  have hBlank : (Token.placed start line.directive.toList).isBlank = false := by
    rw [Token.isBlank_placed, hLetters]
    rfl
  have hComment : comments.find? (·.1 = (Token.placed start line.directive.toList).text) =
      none := by
    rw [hText]
    have hLine := hNot "//" (by simp)
    have hBlock := hNot "/*" (by simp)
    simp [comments, hLine.symm, hBlock.symm]
  rw [Verilog.lookAhead, Token.nextSignificant_append_of_passOver (Token.passOver_blanks hGaps),
    Token.nextSignificant, hBlank, hComment]
  rfl

/-- To a walk the line is the blanks in front of the directive. -/
theorem DirectiveLine.run_space {gaps : List Token} (hGaps : ∀ token ∈ gaps, token.isBlank = true)
    (walk : Walk) (span : Span) :
    walk.space.run (gaps.map .filler ++ [.directive span]) = walk.space := by
  have hFillers : ∀ event ∈ gaps.map Event.filler, event.IsLayout := by
    simpa [Event.IsLayout] using hGaps
  rw [Walk.run_append, Walk.run_layout hFillers]
  rfl

namespace EndsLine

variable {lead : List Token} {last : Token}

/-- The new-line that a text ends with is read as a blank. -/
theorem reads_newline (hText : last.text = "\n") : Mode.code.Reads [last] [.filler last] .code :=
  Mode.Reads.blanks (by simp [Token.isBlank, hText, Text.isAsciiBlank])

/-- A text that ends with a line break ends in code in front of that break. -/
theorem code_lead (h : EndsLine pre)
    (hSplits : SplitsUpTo delimiters 0 pre.toList (lead ++ [last]) false) (rest : List Token) :
    (Reader.readOver {} lead rest).mode = .code := by
  have hCode := h.code
  rw [proper_tokens hSplits, List.dropLast_concat, Reader.isReader.readAll_eq_readOver] at hCode
  exact (congrArg Reader.mode (Reader.forget_readOver_ahead {} lead [] rest)).trans hCode

/-- Behind the new-line the reader is outside of comments, strings and directives, whatever
follows. -/
theorem code_behind (h : EndsLine pre)
    (hSplits : SplitsUpTo delimiters 0 pre.toList (lead ++ [last]) false) (hText : last.text = "\n")
    (rest : List Token) : (Reader.readOver {} (lead ++ [last]) rest).mode = .code := by
  rw [Reader.isReader.readOver_append]
  exact (reads_newline hText _ (h.code_lead hSplits _) _).2

/-- The walk comes to the end of a text by a space. -/
theorem run_space (h : EndsLine pre)
    (hSplits : SplitsUpTo delimiters 0 pre.toList (lead ++ [last]) false) (hText : last.text = "\n")
    (rest : List Token) : (Walk.start region).run (Reader.emittedOver {} (lead ++ [last]) rest) =
      ((Walk.start region).run (Reader.emittedOver {} lead ([last] ++ rest))).space := by
  rw [Reader.isReader.emittedOver_append, (reads_newline hText _ (h.code_lead hSplits _) _).1,
    Walk.run_append]
  exact Walk.step_blank (by simp [Token.isBlank, hText, Text.isAsciiBlank])
    (by simp [Token.isEmpty, hText])

/-- The words in front of a directive line are walked through alike with it and without it: what
they look for is not the directive, and not the word behind the line. -/
theorem run_alike (h : EndsLine pre) (line : DirectiveLine) {gaps : List Token} (start size : Nat)
    (others : List Token)
    (hSplits : SplitsUpTo delimiters 0 pre.toList (lead ++ [last]) false) (hText : last.text = "\n")
    (hGaps : ∀ token ∈ gaps, token.isBlank = true)
    (hSought : ∀ symbol ∈ soughtBehind region pre,
      Walk.isNext (lookAhead (tokens none post).list) symbol = false) :
    (Walk.start region).run (Reader.emittedOver {} (lead ++ [last])
        (gaps ++ .placed start line.directive.toList :: others)) =
      (Walk.start region).run (Reader.emittedOver {} (lead ++ [last])
        (shift size (tokens none post).list)) := by
  refine Walk.run_sought [] (h.code_behind hSplits hText []) fun symbol hMem => ?_
  have hSought' : symbol ∈ soughtBehind region pre := by
    rw [soughtBehind, proper_tokens hSplits, Reader.isReader.readAll_eq_readOver]
    rwa [Reader.isReader.emittedOver_eq] at hMem
  have hOther : symbol ≠ .other := Walk.sought_ne_other (by simp) _ symbol hMem
  have hSymbol : (Lexeme.ofToken (.placed start line.directive.toList)).symbol = .other := by
    show Symbol.ofText (String.ofList line.directive.toList) = .other
    rw [String.ofList_toList]
    exact line.symbol.2.1
  rw [lookAhead_shift, isNext_moved, hSought symbol hSought', line.lookAhead hGaps]
  simp [Walk.isNext, hSymbol, hOther.symm]

/-- Behind a new-line the tokens of the two parts are put together as they are. -/
theorem splits_line (h : EndsLine pre) (line : DirectiveLine) {inner : List Token}
    (hSplits : SplitsUpTo delimiters 0 pre.toList (lead ++ [last]) false)
    (hLine : SplitsUpTo delimiters pre.utf8ByteSize line.text.toList inner false) :
    SplitsUpTo delimiters 0 (pre ++ line.text).toList (lead ++ [last] ++ inner) false := by
  have hSize : 0 + utf8Len pre.toList = pre.utf8ByteSize := by
    rw [Nat.zero_add, String.utf8Len_toList]
  rw [← hSize] at hLine
  rw [String.toList_append]
  exact hSplits.append delimiters_areBroken (.of_newline h.newline _) (by simp) hLine

/-- A directive line behind a text that ends a line is inserted there. It adds no word, it leaves
the reader outside of comments, strings and directives, and it is one more blank to the walk. -/
theorem isInserted (h : EndsLine pre) (line : DirectiveLine)
    (hSought : ∀ symbol ∈ soughtBehind region pre,
      Walk.isNext (lookAhead (tokens none post).list) symbol = false) :
    ∃ first inner, IsInserted region pre line.text post first inner (tokens none post).list := by
  obtain ⟨lead, last, hSplits, hText⟩ := SplitsUpTo.of_newline delimiters_areBroken h.newline 0
  obtain ⟨gaps, others, hLine, hGaps, hOthers⟩ := line.splits pre.utf8ByteSize
  have hReads := line.reads (line.place pre.utf8ByteSize).start (line.place pre.utf8ByteSize).stop
    hGaps hOthers
  have hBoth := h.splits_line line hSplits hLine
  have hEnd : (pre ++ line.text).toList.getLast? = some '\n' := by simp [DirectiveLine.text]
  refine ⟨lead ++ [last], _,
    { list := tokens_append hSplits h.newline
      list_inserted := tokens_append hBoth hEnd
      front := by
        have hFront := hSplits.contiguous
        rwa [Nat.zero_add, String.utf8Len_toList] at hFront
      back := contiguous_tokens post
      sized := List.forall_mem_append.2
        ⟨fun token hMem _ => stop_eq_of_mem hSplits token hMem, stop_eq_of_mem_tokens post⟩
      code := h.code_behind hSplits hText []
      code_inserted := fun reader hMode => (hReads reader hMode _).2
      quiet := fun reader hMode => by
        rw [(hReads reader hMode _).1]
        exact line.isQuiet pre post gaps
      walk := ?_ }⟩
  -- Behind the new-line the line is one more blank, and the words in front of it do not see it.
  show Walk.run _ (Reader.emittedOver _ _ _) = _
  rw [(hReads _ (h.code_behind hSplits hText _) _).1, h.run_space hSplits hText,
    DirectiveLine.run_space hGaps, ← h.run_space hSplits hText]
  simpa only [List.append_assoc, List.cons_append] using
    h.run_alike line (line.place pre.utf8ByteSize).start (pre ++ line.text).utf8ByteSize _ hSplits
      hText hGaps hSought

end EndsLine

/-- A directive line between two lines changes the places of a table only, and the text of a
parameter clause that it stands in, as long as the last word in front of it does not look for the
word behind it. -/
theorem scan_directiveLine (hPre : EndsLine pre) (line : DirectiveLine)
    (hSought : ∀ symbol ∈ soughtBehind region pre,
      Walk.isNext (lookAhead (tokens none post).list) symbol = false) :
    (scan region none (pre ++ line.text ++ post)).table.unplaced.unclaused =
      (scan region none (pre ++ post)).table.unplaced.unclaused := by
  obtain ⟨first, inner, hInserted⟩ := hPre.isInserted line hSought
  exact hInserted.scan.1

/-- A directive line between two items of a body, where no word is sought behind it. -/
theorem scan_directiveLine_endif :
    let pre := "module m;\nalways @*\n  q = d;\n"
    let post := "wire w;\nendmodule\n"
    (EndsLine pre ∧
      ∀ symbol ∈ soughtBehind .moduleContext pre,
        Walk.isNext (lookAhead (tokens none post).list) symbol = false) ∧
      (scan .moduleContext none (pre ++ "`endif // X\n" ++ post)).table.unplaced.unclaused =
        (scan .moduleContext none (pre ++ post)).table.unplaced.unclaused := by
  intro pre post
  let line : DirectiveLine :=
    { indent := "", directive := "`endif", arguments := " // X"
      isBlank := by simp
      isLineDirective := by decide +kernel
      not_include := by decide
      one_line := by decide
      apart := .inr (by decide) }
  have hPre : EndsLine pre := ⟨by decide +kernel, by decide +kernel⟩
  have hSought : ∀ symbol ∈ soughtBehind .moduleContext pre,
      Walk.isNext (lookAhead (tokens none post).list) symbol = false := by decide +kernel
  exact ⟨⟨hPre, hSought⟩, scan_directiveLine hPre line hSought⟩

/-- A statement that ends an always block looks for an `else`. It does not see past a directive, and
the always block ends in front of it. -/
theorem scan_directiveLine_else :
    let pre := "module m; always @*\nif (a) q = b;\n"
    let post := "else r = c;\nendmodule"
    EndsLine pre ∧
    (scan .moduleContext none (pre ++ "`undef X\n" ++ post)).table.unplaced.unclaused ≠
      (scan .moduleContext none (pre ++ post)).table.unplaced.unclaused :=
  ⟨⟨by decide +kernel, by decide +kernel⟩, by decide +kernel⟩

end Inserting

end HdlIndex.Verilog

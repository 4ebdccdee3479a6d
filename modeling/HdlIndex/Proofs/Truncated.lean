import HdlIndex.Proofs.Verilog.Truncated
import HdlIndex.Proofs.Vhdl.Truncated

/-! A scan under a limit is the scan of a beginning of the text. The limit decides which pairs of
words and delimiters are read. What is not read is seen by nothing but by what was open where
reading stopped: a comment, a generic or parameter list, a process or always block. -/
namespace HdlIndex

/-- What was open where reading stopped. -/
structure Stop where
  comment : Bool
  clause : Bool
  process : Bool
deriving DecidableEq, Repr

namespace Start

/-- The tokens of a text. -/
def tokens (start : Start) (limit : Option Nat) (text : String) : Tokens :=
  match start with
  | vhdl _ => Vhdl.tokens limit text
  | verilog _ => Verilog.tokens limit text

/-- What is open behind the tokens of a text: the reader is inside of a comment, or the walk inside
of a generic or parameter list or of a process. -/
def stop (start : Start) (limit : Option Nat) (text : String) : Stop :=
  match start with
  | vhdl region =>
    { comment := (Vhdl.readerAt limit text).mode.comment?.isSome
      clause := (Vhdl.walkAt region limit text).place.isInClause
      process := (Vhdl.walkAt region limit text).place.process?.isSome }
  | verilog region =>
    { comment := (Verilog.readerAt limit text).mode.comment?.isSome
      clause := (Verilog.walkAt region limit text).place.isInClause
      process := (Verilog.walkAt region limit text).place.process?.isSome }

end Start

namespace Design

/-- The text of the generic clause or of the parameter list. -/
def genericDefinition : Design → String
  | vhdl table => table.genericDefinition
  | verilog table => table.genericDefinition

/-- A table without the parts that an open end can reach into, and without its remarks. -/
def apart : Design → Design
  | vhdl table => .vhdl { table with
      toFindings := table.toFindings.apart
      genericDefinition := ""
      comments := {}
      diagnostics := [] }
  | verilog table => .verilog { table with
      toFindings := table.toFindings.apart
      genericDefinition := ""
      comments := {}
      diagnostics := [] }

/-- The ranges of a design's table but for those of comments, processes and always blocks. -/
def wordSpans : Design → List Span
  | vhdl table => table.names.map (·.span) ++ table.keywords
  | verilog table =>
    table.names.map (·.span) ++ table.types.map (·.span) ++ table.includeFiles.spans ++
      table.keywords

/-- The table of a text of `size` bytes of which `scanned` were read is that of the part that was
read, with a remark on the rest. A comment or a process that was open there is the last one, and it
reaches to the end of the whole text instead. -/
structure Continues (design part : Design) (stop : Stop) (scanned size : Nat) : Prop where
  apart : design.apart = part.apart
  comments : AgreeUpToEnd (fun last last' => last.span = ⟨last'.span.start, size⟩) stop.comment
    design.comments part.comments
  clause : stop.clause = false → design.genericDefinition = part.genericDefinition
  processes : AgreeUpToEnd (fun last last' => last = last'.close size) stop.process
    design.processes part.processes
  diagnostics : design.diagnostics = part.diagnostics ++
    if scanned < size then [.truncated scanned size] else []

/-- Nothing of a table comes from behind what was read, but for what was open there. An open comment
or process reaches to the end of the whole text of `size` bytes. -/
structure IsReadFrom (design : Design) (read : String) (stop : Stop) (size : Nat) : Prop where
  words : ∀ span ∈ design.wordSpans, span.Within read
  names : ∀ name ∈ design.names, name.span.slice (design.source read) = name.text
  comments : ∀ comment ∈ uncut stop.comment design.comments, comment.span.Within read ∧
    comment.text = String.ofList (Text.trimEnd (comment.span.slice read).toList)
  openComment : stop.comment = true → ∃ last ∈ design.comments.getLast?,
    last.span.start ≤ read.utf8ByteSize ∧ last.span.stop = size
  processes : ∀ process ∈ uncut stop.process design.processes, process.span.Within read
  openProcess : stop.process = true → ∃ last ∈ design.processes.getLast?,
    last.span.start ≤ read.utf8ByteSize ∧ last.span.stop = size
  genericDefinition : stop.clause = false → design.genericDefinition.toList <:+: read.toList

end Design

section Words

/-- The names of a table are found apart from its processes, but for the words of these. -/
theorem Vhdl.Findings.names_congr {found found' : Vhdl.Findings}
    (hApart : found.apart = found'.apart)
    (hWords : found.processes.toList.flatMap (·.words) =
      found'.processes.toList.flatMap (·.words)) :
    found.names = found'.names := by
  have hNames (found : Vhdl.Findings) :
      found.names = found.apart.names ++ found.processes.toList.flatMap (·.words) :=
    congrArg (· ++ _) (List.append_nil _).symm
  rw [hNames, hNames found', hApart, hWords]

/-- The names of a table are those of its parts without processes, and the words of its
processes. -/
theorem Verilog.Findings.names_congr {found found' : Verilog.Findings}
    (hApart : found.apart = found'.apart)
    (hWords : found.processes.toList.flatMap (·.words) =
      found'.processes.toList.flatMap (·.words)) :
    found.names = found'.names := by
  have hNames (found : Verilog.Findings) :
      found.names = found.apart.names ++ found.processes.toList.flatMap (·.words) :=
    congrArg (· ++ _) (List.append_nil _).symm
  rw [hNames, hNames found', hApart, hWords]

variable {design part : Design} {stop : Stop} {scanned size : Nat}

/-- To close a process leaves its words as they are. -/
theorem Design.Continues.words_eq (h : design.Continues part stop scanned size) :
    design.processes.flatMap (·.words) = part.processes.flatMap (·.words) := by
  have hWords : design.processes.map (·.words) = part.processes.map (·.words) :=
    h.processes.map_eq fun last last' hLast => congrArg (·.words) hLast
  rw [List.flatMap_def, List.flatMap_def, hWords]

/-- The words are the same, and they are taken from the same form of the source. -/
theorem Design.Continues.names_eq (h : design.Continues part stop scanned size) :
    design.names = part.names ∧ design.wordSpans = part.wordSpans ∧
    design.source = part.source := by
  have hWords := h.words_eq
  have hApart := h.apart
  cases design with
  | vhdl table =>
      cases part with
      | verilog part => cases hApart
      | vhdl part =>
          have hTable := Design.vhdl.inj hApart
          have hKeywords : table.keywords = part.keywords := congrArg (·.keywords) hTable
          have hNames : table.names = part.names :=
            Vhdl.Findings.names_congr (congrArg (·.toFindings) hTable) hWords
          exact ⟨hNames, by rw [wordSpans, wordSpans, hNames, hKeywords], rfl⟩
  | verilog table =>
      cases part with
      | vhdl part => cases hApart
      | verilog part =>
          have hTable := Design.verilog.inj hApart
          have hTypes : table.types = part.types := congrArg (·.types) hTable
          have hFiles : table.includeFiles = part.includeFiles := congrArg (·.includeFiles) hTable
          have hKeywords : table.keywords = part.keywords := congrArg (·.keywords) hTable
          have hNames : table.names = part.names :=
            Verilog.Findings.names_congr (congrArg (·.toFindings) hTable) hWords
          refine ⟨by rw [names, names, hNames, hFiles], ?_, rfl⟩
          rw [wordSpans, wordSpans, hNames, hTypes, hFiles, hKeywords]

/-- The ranges of words, comments and processes are among those of the table. -/
theorem Design.mem_spans {span : Span} (h : span ∈ design.wordSpans ∨
    span ∈ design.comments.map (·.span) ∨ span ∈ design.processes.map (·.span)) :
    span ∈ design.spans := by
  cases design <;>
    simp only [wordSpans, comments, processes, spans, Vhdl.Table.spans, Verilog.Table.spans,
      Words.spans, List.mem_append] at h ⊢ <;> tauto

/-- The text of a generic or parameter list is a part of the text. -/
theorem genericDefinition_infix (start : Start) (limit : Option Nat) (text : String) :
    (scan start limit text).design.genericDefinition.toList <:+: text.toList := by
  have hSlice (clause : Option Span) :
      ((clause.map (·.slice text)).getD "").toList <:+: text.toList := by
    cases clause with
    | none => exact List.nil_infix
    | some span => exact span.slice_infix text
  cases start with
  | vhdl region => exact hSlice _
  | verilog region => exact hSlice _

end Words

/-- A table that continues the table of a part does so as a design. -/
theorem Vhdl.Table.Continues.design {table part : Vhdl.Table} {mode : Vhdl.Mode}
    {place : Vhdl.Place} {scanned size : Nat} (h : table.Continues part mode place scanned size) :
    (Design.vhdl table).Continues (.vhdl part)
      ⟨mode.comment?.isSome, place.isInClause, place.process?.isSome⟩ scanned size where
  apart := by
    have hFound := h.found
    have hKeywords := h.keywords
    simp only [Design.apart, hFound, hKeywords]
  comments := h.comments
  clause hStop := (h.clause hStop).2
  processes := h.processes
  diagnostics := h.diagnostics

theorem Verilog.Table.Continues.design {table part : Verilog.Table} {mode : Verilog.Mode}
    {place : Verilog.Place} {scanned size : Nat}
      (h : table.Continues part mode place scanned size) :
    (Design.verilog table).Continues (.verilog part)
      ⟨mode.comment?.isSome, place.isInClause, place.process?.isSome⟩ scanned size where
  apart := by
    have hFound := h.found
    have hFiles := h.includeFiles
    have hKeywords := h.keywords
    simp only [Design.apart, hFound, hFiles, hKeywords]
  comments := h.comments
  clause hStop := (h.clause hStop).2
  processes := h.processes
  diagnostics := h.diagnostics

/-- Every scan is the scan of what it read, but for what was open there. -/
theorem scan_continues (start : Start) (limit : Option Nat) (text : String) :
    (scan start limit text).design.Continues
      (scan start none ((start.tokens limit text).readPart text)).design (start.stop limit text)
      (start.tokens limit text).scanned text.utf8ByteSize := by
  cases start with
  | vhdl region => exact (Vhdl.scan_continues region limit text).design
  | verilog region => exact (Verilog.scan_continues region limit text).design

/-- A scan that stops inside of a text has read the pairs that begin within the limit, and finds
what the scan of what it read finds. -/
theorem scan_truncated (start : Start) {limit : Nat} {text : String}
    (hStopped : (start.tokens (some limit) text).scanned < text.utf8ByteSize) :
    (start.tokens (some limit) text).proper =
        ((pairUp (start.tokens none text).proper).filter
          (·.word.span.start ≤ limit)).flatMap WordPair.tokens ∧
      limit < (start.tokens (some limit) text).scanned ∧
      (scan start (some limit) text).design.Continues
        (scan start none ((start.tokens (some limit) text).readPart text)).design
        (start.stop (some limit) text)
        (start.tokens (some limit) text).scanned text.utf8ByteSize ∧
      (scan start (some limit) text).design.diagnostics =
        (scan start none ((start.tokens (some limit) text).readPart text)).design.diagnostics ++
          [.truncated (start.tokens (some limit) text).scanned text.utf8ByteSize] := by
  have hContinues := scan_continues start (some limit) text
  have hRemark := hContinues.diagnostics
  rw [if_pos hStopped] at hRemark
  cases start with
  | vhdl region =>
      have hFolded : (tokenize Vhdl.delimiters (some limit) false (Text.foldCase text)).scanned <
          (Text.foldCase text).utf8ByteSize :=
        hStopped.trans_eq (Text.utf8ByteSize_foldCase text).symm
      obtain ⟨hPairs, hBeyond⟩ := tokenize_pairs_within hFolded
      exact ⟨hPairs, hBeyond, hContinues, hRemark⟩
  | verilog region =>
      have hRead : (tokenize Verilog.delimiters (some limit) true text).scanned <
          text.utf8ByteSize :=
        hStopped
      obtain ⟨hPairs, hBeyond⟩ := tokenize_pairs_within hRead
      exact ⟨hPairs, hBeyond, hContinues, hRemark⟩

/-- Reading stops inside of a port, where nothing is open that the rest of the text could end. -/
theorem scan_truncated_ports :
    let start := Start.vhdl .start
    let text := "entity e is port (a : in bit; b : in bit);"
    (scan start (some 30) text).design.Continues
      (scan start none "entity e is port (a : in bit; b ").design ⟨false, false, false⟩ 32 42 := by
  intro start text
  have hStopped : (start.tokens (some 30) text).scanned < text.utf8ByteSize := by decide +kernel
  have hScanned : (start.tokens (some 30) text).scanned = 32 := by decide +kernel
  have hPart : (start.tokens (some 30) text).readPart text =
      "entity e is port (a : in bit; b " := by
    decide +kernel
  have hStop : start.stop (some 30) text = ⟨false, false, false⟩ := by decide +kernel
  have hSize : text.utf8ByteSize = 42 := by decide +kernel
  obtain ⟨-, -, hContinues, -⟩ := scan_truncated start hStopped
  rwa [hPart, hStop, hScanned, hSize] at hContinues

/-- What was read is no longer than the text. -/
theorem Start.size_readPart_le (start : Start) (limit : Option Nat) (text : String) :
    ((start.tokens limit text).readPart text).utf8ByteSize ≤ text.utf8ByteSize := by
  obtain ⟨rest, hText⟩ : ∃ rest, text = (start.tokens limit text).readPart text ++ rest := by
    cases start with
    | vhdl region => exact (Vhdl.readPart_append limit text).imp fun _ h => h.1
    | verilog region => exact (Verilog.readPart_append limit text).imp fun _ h => h.1
  have hSize := congrArg String.utf8ByteSize hText
  rw [String.utf8ByteSize_append] at hSize
  omega

/-- Whatever the limit, nothing of a table comes from behind what was read, but for what was open
there: a comment, a generic or parameter list, and the range of a process. -/
theorem scan_isReadFrom (start : Start) (limit : Option Nat) (text : String) :
    (scan start limit text).design.IsReadFrom ((start.tokens limit text).readPart text)
      (start.stop limit text) text.utf8ByteSize := by
  have hContinues := scan_continues start limit text
  have hSize := start.size_readPart_le limit text
  generalize (start.tokens limit text).readPart text = read at hContinues hSize ⊢
  have hRead := scan_isFaithful start none read
  have hInfix := genericDefinition_infix start none read
  generalize (scan start none read).design = part at hContinues hRead hInfix
  obtain ⟨hNames, hSpans, hSource⟩ := hContinues.names_eq
  have hComment : ∀ comment ∈ part.comments, comment.span.Within read := fun comment hMem =>
    hRead.spans _ (Design.mem_spans (.inr (.inl (List.mem_map_of_mem hMem))))
  have hProcess : ∀ process ∈ part.processes, process.span.Within read := fun process hMem =>
    hRead.spans _ (Design.mem_spans (.inr (.inr (List.mem_map_of_mem hMem))))
  refine ⟨?words, ?names, ?comments, ?openComment, ?processes, ?openProcess, ?clause⟩
  case words =>
    rw [hSpans]
    exact fun span hMem => hRead.spans span (Design.mem_spans (.inl hMem))
  case names =>
    rw [hNames, hSource]
    exact hRead.names
  case comments =>
    rw [hContinues.comments.uncut_eq]
    intro comment hMem
    exact ⟨hComment comment (mem_of_mem_uncut hMem), hRead.comments comment (mem_of_mem_uncut hMem)⟩
  case openComment =>
    intro hOpen
    obtain ⟨last, hLast, last', hLast', hSpan⟩ := (hOpen ▸ hContinues.comments).exists_last
    have hWithin := hComment last' (List.mem_of_getLast? hLast')
    refine ⟨last, hLast, ?_, congrArg (·.stop) hSpan⟩
    rw [hSpan]
    exact hWithin.ordered.trans hWithin.stop_le
  case processes =>
    rw [hContinues.processes.uncut_eq]
    exact fun process hMem => hProcess process (mem_of_mem_uncut hMem)
  case openProcess =>
    intro hOpen
    obtain ⟨last, hLast, last', hLast', rfl⟩ := (hOpen ▸ hContinues.processes).exists_last
    have hWithin := hProcess last' (List.mem_of_getLast? hLast')
    have hStart := hWithin.ordered.trans hWithin.stop_le
    exact ⟨_, hLast, hStart, max_eq_left (hStart.trans hSize)⟩
  case clause =>
    intro hStop
    rw [hContinues.clause hStop]
    exact hInfix

/-- Under the limit this text is read up to its seventh byte, and its comment goes on behind it. -/
theorem scan_comment_unread :
    ((Start.vhdl .start).tokens (some 3) "-- abc def").scanned = 7 ∧
      (scan (.vhdl .start) (some 3) "-- abc def").design.comments = [⟨"-- abc def", ⟨0, 10⟩⟩] ∧
      ¬ ∀ span ∈ (scan (.vhdl .start) (some 3) "-- abc def").design.spans,
        span.stop ≤ ((Start.vhdl .start).tokens (some 3) "-- abc def").scanned := by
  decide +kernel

end HdlIndex

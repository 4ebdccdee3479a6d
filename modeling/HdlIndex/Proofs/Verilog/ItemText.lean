import HdlIndex.Proofs.Aligned
import HdlIndex.Proofs.Token.Joined
import HdlIndex.Proofs.Verilog.PartReading
import HdlIndex.Proofs.Verilog.ReadingWords
import HdlIndex.Proofs.Verilog.StatementRun
import HdlIndex.Proofs.Verilog.WordReading

/-! Texts whose tokens are known: where no token is quoted or commented out, each one makes one
event, and the sentinel ends what is open at the end. The written form of parameters and ports is
such a text, put together from its pieces. -/
namespace HdlIndex.Verilog

section Lexed

variable {word : String} {words : List String}

/-- The word is one token where spaces stand around it: its characters begin no delimiter, or it is
one itself. It is not quoted, nor commented out, nor a directive. -/
def isLexeme (word : String) : Bool :=
  isPlainText word && ! word.isEmpty && word.toList.all (! Text.isBlank ·) &&
    (word.toList.all (fun c => ! delimiters.any (·.leads c)) ||
      Delimiter.takeFirst? delimiters word.toList == some word.toList.length)

theorem isSpaced_delimiters : Delimiter.IsSpaced delimiters := ⟨by decide, by decide⟩

theorem isPlainText_of_isLexeme (h : isLexeme word = true) : isPlainText word = true := by
  simp only [isLexeme, Bool.and_eq_true] at h
  exact h.1.1.1

theorem isSolid_of_isLexeme (h : isLexeme word = true) : IsSolid word := by
  simp only [isLexeme, Bool.and_eq_true, Bool.not_eq_true', List.all_eq_true] at h
  exact ⟨by simpa [String.isEmpty_eq_false_iff] using h.1.1.2, h.1.2⟩

/-- A lexeme is what the splitter finds, so that writing it down and splitting it again gives the
same token. -/
theorem finds_of_isLexeme (h : isLexeme word = true) : Delimiter.Finds delimiters word := by
  obtain ⟨hNonempty, hChars⟩ := isSolid_of_isLexeme h
  simp only [isLexeme, Bool.and_eq_true, Bool.or_eq_true, beq_iff_eq] at h
  rcases h.2 with hPlain | hFound
  · refine .inl fun c hMem => Delimiter.plain_of_leads fun delimiter hDelimiter => ?_
    have hLeads := List.all_eq_true.1 hPlain c hMem
    simp only [Bool.not_eq_true', List.any_eq_false] at hLeads
    simpa using hLeads delimiter hDelimiter
  · refine .inr fun rest => ?_
    rw [Delimiter.takeFirst?_append_space isSpaced_delimiters (by simpa using hNonempty)
      fun c hMem => Delimiter.isGap_eq_false (hChars c hMem), hFound]

/-- Where it stands alone, it is its own token. -/
theorem isLexed_of_isLexeme (h : isLexeme word = true) : IsLexed delimiters [word] := by
  obtain ⟨hNonempty, -⟩ := isSolid_of_isLexeme h
  simp only [isLexeme, Bool.and_eq_true, Bool.or_eq_true, beq_iff_eq] at h
  have hAlone : Lexes delimiters (word.toList ++ []) [word.toList] := by
    rcases h.2 with hPlain | hFound
    · exact .word (by simpa using hNonempty) (Delimiter.plain_of_all hPlain) (.inl rfl) .nil
    · exact .delimiter (by rw [List.append_nil, hFound]) .nil
  rwa [List.append_nil] at hAlone

/-- The tokens of a text that is lexed into words are the words, and the sentinel behind them. -/
theorem tokens_of_isLexed (h : IsLexed delimiters words) :
    ∃ front, (tokens none (String.join words)).list =
        front ++ [.sentinel (String.join words).utf8ByteSize] ∧
      (front.filter (! ·.isEmpty)).map (·.text) = words ∧
      (tokens none (String.join words)).scanned = (String.join words).utf8ByteSize := by
  obtain ⟨hScanned, hRow⟩ := h.tokenize true
  obtain ⟨front, hList, -⟩ := tokenize_splitsInto delimiters none true (String.join words)
  rw [if_pos rfl, hScanned] at hList
  refine ⟨front, hList, ?_, hScanned⟩
  rw [hList, List.filter_append, if_pos rfl, List.filter_singleton] at hRow
  have hFront := List.append_cancel_right hRow
  rw [hFront, Token.text_row]

/-- No expression under way takes up a token without characters. -/
theorem Place.absorb_of_isEmpty {place : Place} {token : Token} (h : token.isEmpty = true) :
    place.absorb token = place := by
  cases place <;> simp [absorb, Capture.absorb_of_isEmpty h]

/-- Tokens without characters may be left out. -/
theorem leads_of_filter {tokens : List Token} {after : Option Token} {P Q : Walk → Prop}
    (h : machine.Leads (tokens.filter (! ·.isEmpty)) after P Q) :
    machine.Leads tokens after P Q := by
  refine .of_filter (fun token walk hEmpty => ?_) h
  simp [machine, Walk.step, Place.absorb_of_isEmpty hEmpty]

/-- They are plain, so that it suffices to look at the others. -/
theorem isPlainText_of_filter {tokens : List Token}
    (h : ∀ word ∈ (tokens.filter (! ·.isEmpty)).map (·.text), isPlainText word = true) :
    ∀ token ∈ tokens, isPlainText token.text = true := by
  refine isPlainText_of_significant fun word hMem => h word ?_
  rw [← significant_filter] at hMem
  obtain ⟨token, hToken, rfl⟩ := List.mem_map.1 hMem
  exact List.mem_map_of_mem (List.mem_of_mem_filter hToken)

theorem nextSignificant_sentinel (offset : Nat) :
    Token.nextSignificant comments none [.sentinel offset] = some (.sentinel offset) := by
  have hBlank : Token.sentinelText.toList.all Text.isAsciiBlank = false := by decide
  have hComment : comments.find? (·.1 = Token.sentinelText) = none := by decide
  rw [Token.nextSignificant, Token.isBlank, Token.sentinel, hBlank, hComment]
  rfl

/-- What the tokens of a text lead to, the walk through the text leads to, and the sentinel ends
what is open behind them. -/
theorem run_of_isLexed {P Q : Walk → Prop} (h : IsLexed delimiters words)
    (hPlain : ∀ word ∈ words, isPlainText word = true)
    (hLeads : ∀ tokens, tokens.map (·.text) = words →
      machine.Leads tokens (some (.sentinel (String.join words).utf8ByteSize)) P Q)
    {walk : Walk} (hWalk : P walk) :
    ∃ last, Q last ∧ walk.run (readEvents (String.join words).utf8ByteSize
      (tokens none (String.join words)).list) = last.flushAt (String.join words).utf8ByteSize := by
  obtain ⟨front, hList, hTokens, -⟩ := tokens_of_isLexed h
  have hFront := isPlainText_of_filter (hTokens ▸ hPlain)
  let closer := Token.sentinel (String.join words).utf8ByteSize
  have hReader : Reader.mode {} = .code := rfl
  obtain ⟨hMode, events, hReads, hEvents⟩ := Reader.reads_readBefore hReader hFront [closer]
  have hFrontLeads : machine.Leads front (some closer) P Q := leads_of_filter (hLeads _ hTokens)
  rw [nextSignificant_sentinel] at hReads
  refine ⟨walk.run events, hFrontLeads events walk hReads hWalk, ?_⟩
  have hAll : readEvents (String.join words).utf8ByteSize (tokens none (String.join words)).list =
      events ++ [.ended (String.join words).utf8ByteSize] := by
    rw [hList, readEvents, Reader.readAll_append, Reader.finish_sentinel hMode,
      Array.toList_push, hEvents]
    rfl
  rw [hAll, Walk.run, List.foldl_append, List.foldl_cons, List.foldl_nil]
  rfl

/-- The table of such a text is what the walk has found at its end. There is nothing to remark where
no condition is in force. -/
theorem scan_of_isLexed {P Q : Walk → Prop} (region : Region) (h : IsLexed delimiters words)
    (hPlain : ∀ word ∈ words, isPlainText word = true)
    (hLeads : ∀ tokens, tokens.map (·.text) = words →
      machine.Leads tokens (some (.sentinel (String.join words).utf8ByteSize)) P Q)
    (hStart : P (Walk.start region)) (hFrames : ∀ walk, Q walk → walk.frames = []) :
    ∃ last, Q last ∧
      (scan region none (String.join words)).table.toFindings =
        ((last.flushAt (String.join words).utf8ByteSize).finish
          (String.join words).utf8ByteSize).found ∧
      (scan region none (String.join words)).table.diagnostics = [] := by
  obtain ⟨last, hLast, hRun⟩ := run_of_isLexed h hPlain hLeads hStart
  obtain ⟨-, -, -, hScanned⟩ := tokens_of_isLexed h
  have hLocated := walkThrough_located region none (String.join words)
  refine ⟨last, hLast, ?_, ?_⟩
  · refine hLocated.align_eq_self.trans ?_
    rw [walkThrough, hRun]
  · show diagnose _ _ _ = []
    have hNone : (last.flushAt (String.join words).utf8ByteSize).frames = [] := by
      rw [Walk.flushAt]
      split <;> exact hFrames last hLast
    rw [diagnose_walkThrough _ _ _ _ fun list hMem => (hLocated.lists list hMem).settled,
      hRun, hNone, hScanned]
    simp

end Lexed

section Written

/-- The depth of square brackets behind a word. None is closed that is not open. -/
def squareDepth (depth : Nat) (word : String) : Option Nat :=
  if word = "[" then some (depth + 1)
  else if word = "]" then (if depth = 0 then none else some (depth - 1))
  else some depth

/-- The symbol can be part of a value outside of brackets. -/
def Symbol.isValue : Symbol → Bool
  | comma | semicolon => false
  | _ => true

/-- The directions that are reserved words. -/
def directions : List Keyword := [.input, .output, .inout]

/-- A parameter or a port before it is written. -/
structure ItemText where
  /-- The word that it begins with: `parameter`, or a direction. -/
  lead : Keyword
  types : List Keyword := []
  /-- What stands in the brackets of its range. -/
  range : Option (List String) := none
  name : String
  /-- The words of its value. -/
  value : Option (List String) := none
deriving DecidableEq

namespace ItemText

/-- The words of the range, brackets included. -/
def rangeWords (item : ItemText) : List String :=
  match item.range with
  | none => []
  | some inside => "[" :: (inside ++ ["]"])

/-- The words of the value with the sign in front. -/
def valueWords (item : ItemText) : List String :=
  match item.value with
  | none => []
  | some value => "=" :: value

/-- The words of an item. -/
def words (item : ItemText) : List String :=
  item.lead.text :: (item.types.map (·.text) ++ (item.rangeWords ++ item.name :: item.valueWords))

/-- The text of an item with a space between its words. -/
def text (item : ItemText) : String := " ".intercalate item.words

/-- The pieces of the range as it stands. -/
def rangePieces (item : ItemText) : List String :=
  match item.range with
  | none => []
  | some _ => " " :: item.rangeWords

/-- The pieces behind the first word, with the range as it stands. -/
def tailPieces (item : ItemText) : List String :=
  led (item.types.map (·.text)) ++ (item.rangePieces ++ " " :: item.name :: led item.valueWords)

/-- The pieces of the item with the range as it stands. -/
def pieces (item : ItemText) : List String := item.lead.text :: item.tailPieces

/-- The item with spaces inside of its range. -/
def spacedRange (item : ItemText) : ItemText :=
  { item with range := item.range.map fun inside => led inside ++ [" "] }

/-- The mode of the row that the item stands for. -/
def mode (item : ItemText) : String := if item.lead = .parameter then "" else item.lead.text

/-- The text of the type. -/
def typeText (item : ItemText) : String := " ".intercalate (item.types.map (·.text))

/-- The row that the item stands for. -/
def row (item : ItemText) : List String :=
  [item.name, item.mode, item.typeText, " ".intercalate item.rangeWords,
    " ".intercalate (item.value.getD [])]

/-- The item can be read back: its types are built in, its name is no direction, the brackets of its
range match, and so do those of its value, outside of which no mark ends it. -/
def isReadable (item : ItemText) : Bool :=
  item.types.all isDataType && item.name != "ref" && Symbol.ofText item.name == .name &&
    item.range.all (fun inside => inside.foldlM squareDepth 0 == some 0) &&
    item.value.all (fun value => value.foldlM (bracketDepth Symbol.isValue) 0 == some 0)

/-- Each word is one token, and none of them is quoted or commented out. -/
def isWritable (item : ItemText) : Bool := item.isReadable && item.words.all isLexeme

/-- A parameter with its value. -/
def isParameter (item : ItemText) : Bool := item.lead == .parameter && item.value.isSome

/-- A port with its direction. -/
def isPort (item : ItemText) : Bool := directions.contains item.lead && item.value.isNone

end ItemText

/-- The text of a list of items. -/
def itemsText (items : List ItemText) : String := ", ".intercalate (items.map (·.text))

/-- The pieces of a list of items. -/
def itemsPieces (items : List ItemText) : List String :=
  List.intercalate [",", " "] (items.map fun item => item.words.intersperse " ")

variable {item : ItemText} {items : List ItemText}

/-- The pieces of an item whose words have a space between them. -/
theorem ItemText.intersperse_words (item : ItemText) :
    item.words.intersperse " " = item.spacedRange.pieces := by
  rw [words, intersperse_cons, pieces, tailPieces]
  congr 1
  cases hRange : item.range <;> simp [spacedRange, rangePieces, rangeWords, valueWords, hRange]

theorem isMark_comma : Delimiter.IsMark delimiters ',' := by decide

/-- The pieces of a list are split as they were written. -/
theorem isLexed_itemsPieces (h : ∀ item ∈ items, item.isWritable = true) :
    IsLexed delimiters (itemsPieces items) := by
  refine IsLexed.intercalate isMark_comma rfl delimiters_areBroken ?_
  rw [List.forall_mem_map]
  intro item hMem
  have hWords : ∀ word ∈ item.words, isLexeme word = true :=
    List.all_eq_true.1 (Bool.and_eq_true_iff.1 (h item hMem)).2
  refine ⟨IsLexed.intersperse delimiters_areBroken fun word hWord =>
    ⟨isSolid_of_isLexeme (hWords word hWord), isLexed_of_isLexeme (hWords word hWord)⟩, ?_⟩
  rw [ItemText.intersperse_words]
  exact ⟨_, rfl, isSolid_of_isLexeme (hWords _ List.mem_cons_self)⟩

end Written

end HdlIndex.Verilog

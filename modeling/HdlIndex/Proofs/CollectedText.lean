import HdlIndex.Proofs.WhiteSpace

/-! The text that is collected from all tokens of a text. It does not depend on how the text is cut
into tokens, but only on the pieces that stand between the runs of blanks in it. -/
namespace HdlIndex

namespace Text

variable {chars extra : List Char} {c : Char}

/-- The runs of characters between the blanks of a text, in order. -/
def pieces (chars : List Char) : List (List Char) := (chars.splitOnP isAsciiBlank).filter (· ≠ [])

/-- The pieces of a text with one space between each two, without blanks at the ends. -/
def spaced (text : String) : String := String.ofList (trim ([' '].intercalate (pieces text.toList)))

theorem pieces_blank (h : isAsciiBlank c = true) : pieces (c :: chars) = pieces chars := by
  rw [pieces, List.splitOnP_cons_eq_if_modifyHead, if_pos h,
    List.filter_cons_of_neg (by simp), pieces]

/-- The first run is empty where a blank stands in front, or nothing stands at all. -/
theorem splitOnP_eq_cons (chars : List Char) :
    ∃ run runs, chars.splitOnP isAsciiBlank = run :: runs ∧
    (run = [] ↔ chars.head?.all isAsciiBlank = true) := by
  cases chars with
  | nil => exact ⟨[], [], rfl, by simp⟩
  | cons c chars =>
      rw [List.splitOnP_cons_eq_if_modifyHead]
      cases hBlank : isAsciiBlank c with
      | true => exact ⟨[], chars.splitOnP isAsciiBlank, rfl, by simp [hBlank]⟩
      | false =>
          obtain ⟨run, runs, hRuns⟩ :=
            List.exists_cons_of_ne_nil (List.splitOnP_ne_nil isAsciiBlank chars)
          exact ⟨c :: run, runs, by simp [hRuns], by simp [hBlank]⟩

/-- A character in front of a blank is a piece of its own. -/
theorem pieces_cons (h : isAsciiBlank c = false) (hHead : chars.head?.all isAsciiBlank = true) :
    pieces (c :: chars) = [c] :: pieces chars := by
  obtain ⟨run, runs, hRuns, hRun⟩ := splitOnP_eq_cons chars
  obtain rfl := hRun.2 hHead
  rw [pieces, pieces, List.splitOnP_cons_eq_if_modifyHead, hRuns, if_neg (by simp [h])]
  simp

/-- A character in front of another one that is not blank begins the same piece. -/
theorem pieces_append (h : isAsciiBlank c = false) (hHead : ¬ chars.head?.all isAsciiBlank = true) :
    ∃ piece others, pieces chars = piece :: others ∧
      pieces (c :: chars) = (c :: piece) :: others := by
  obtain ⟨run, runs, hRuns, hRun⟩ := splitOnP_eq_cons chars
  refine ⟨run, runs.filter (· ≠ []), ?_, ?_⟩
  · rw [pieces, hRuns, List.filter_cons_of_pos (by simpa using mt hRun.1 hHead)]
  · rw [pieces, List.splitOnP_cons_eq_if_modifyHead, hRuns, if_neg (by simp [h])]
    simp

theorem intercalate_cons (piece : List Char) (others : List (List Char)) :
    [' '].intercalate ((c :: piece) :: others) = c :: [' '].intercalate (piece :: others) := by
  cases others with
  | nil => simp
  | cons other others => simp [List.intercalate_cons_cons]

/-- With its runs of blanks collapsed, a text is its pieces joined by spaces, but for a space in
front of the first one and behind the last one. -/
theorem collapse_eq_pieces (chars : List Char) : ∃ trail, (∀ d ∈ trail, isBlank d = true) ∧
    collapse chars = (if chars.head?.any isAsciiBlank then [' '] else []) ++
      [' '].intercalate (pieces chars) ++ trail := by
  induction chars with
  | nil => exact ⟨[], by simp, rfl⟩
  | cons c chars ih =>
      obtain ⟨trail, hTrail, hCollapse⟩ := ih
      cases hBlank : isAsciiBlank c with
      | true =>
          refine ⟨trail, hTrail, ?_⟩
          rw [collapse, if_pos hBlank, pieces_blank hBlank, List.head?_cons, Option.any_some,
            hBlank, hCollapse]
          split <;> rfl
      | false =>
          rw [collapse_cons hBlank, List.head?_cons, Option.any_some, hBlank, hCollapse]
          by_cases hHead : chars.head?.all isAsciiBlank = true
          · rw [pieces_cons hBlank hHead]
            cases chars with
            | nil => exact ⟨trail, hTrail, rfl⟩
            | cons d chars =>
                have hNext : isAsciiBlank d = true := hHead
                rw [List.head?_cons, Option.any_some, hNext]
                -- The space behind the character parts two pieces, or it is the last one.
                by_cases hNone : pieces (d :: chars) = []
                · exact ⟨' ' :: trail, List.forall_mem_cons.2 ⟨by decide, hTrail⟩, by simp [hNone]⟩
                · exact ⟨trail, hTrail, by simp [List.intercalate_cons_of_ne_nil hNone]⟩
          · obtain ⟨piece, others, hPieces, hMore⟩ := pieces_append hBlank hHead
            refine ⟨trail, hTrail, ?_⟩
            have hAny : chars.head?.any isAsciiBlank = false := by
              cases chars with
              | nil => rfl
              | cons d chars => simpa using hHead
            rw [hMore, hPieces, hAny, intercalate_cons]
            rfl

/-- White space at the end does not survive trimming. -/
theorem trim_append (h : ∀ d ∈ extra, isBlank d = true) : trim (chars ++ extra) = trim chars := by
  induction extra generalizing chars with
  | nil => rw [List.append_nil]
  | cons d extra ih =>
      rw [List.forall_mem_cons] at h
      rw [← List.singleton_append, ← List.append_assoc, ih h.2, trim_append_blank h.1]

/-- Trimming leaves no trace of the blanks around the pieces. -/
theorem trim_collapse_eq (chars : List Char) :
    trim (collapse chars) = trim ([' '].intercalate (pieces chars)) := by
  obtain ⟨trail, hTrail, hCollapse⟩ := collapse_eq_pieces chars
  rw [hCollapse, trim_append hTrail]
  split
  · exact congrArg trimEnd (List.dropWhile_cons_of_pos (by decide))
  · rfl

end Text

/-- Starts a collection, adds all tokens of a text, and takes what is collected. -/
def Language.collect (language : Language) (text : String) : String × Capture :=
  (Capture.fresh.pushAll (tokenize language.delimiters none false text).list).take

/-- The tokens of a text without vertical tabs are collected like its characters. -/
theorem Language.pushAll_tokenize (language : Language) {text : String}
    (hTab : '\x0b' ∉ text.toList) (capture : Capture) :
    capture.pushAll (tokenize language.delimiters none false text).list =
      text.toList.foldl Capture.pushChar capture := by
  obtain ⟨tokens, hList, hSplits⟩ := tokenize_splitsInto language.delimiters none false text
  rw [if_neg (by decide), List.append_nil] at hList
  obtain ⟨rest, hChars, -, hRest⟩ := hSplits.joins
  obtain rfl := hRest rfl
  rw [List.append_nil] at hChars
  rw [hList, hChars]
  refine Capture.pushAll_eq_foldl fun token hMem => ?_
  refine hSplits.isUniform language.delimiters_areBroken token hMem fun hHere => hTab ?_
  rw [hChars]
  exact List.mem_flatMap.2 ⟨token, hMem, hHere⟩

/-- From a text without vertical tabs its pieces are collected, joined by spaces and trimmed, and
nothing is left in the capture, which is no longer active. So texts of the same pieces are collected
alike, in either language. -/
theorem collect_eq_spaced (language : Language) (text : String) (hTab : '\x0b' ∉ text.toList) :
    (language.collect text).1 = Text.spaced text ∧
      (language.collect text).2.active = false ∧ (language.collect text).2.reversed = [] ∧
      ∀ (language' : Language) (other : String), '\x0b' ∉ other.toList →
        Text.pieces other.toList = Text.pieces text.toList →
        language'.collect other = language.collect text := by
  have hCollect (language : Language) {text : String} (hTab : '\x0b' ∉ text.toList) :
      language.collect text = (Text.spaced text, .idle) := by
    rw [Language.collect, Capture.take, language.pushAll_tokenize hTab,
      Capture.text_foldl_pushChar_trim, Text.trim_collapse_eq, Text.spaced]
  rw [hCollect language hTab]
  refine ⟨rfl, rfl, rfl, fun language' other hOther hPieces => ?_⟩
  rw [hCollect language' hOther, Text.spaced, Text.spaced, hPieces]

/-- Runs of blanks of several kinds, a blank that only trimming knows, and operators without blanks
around them. -/
theorem collect_eq_spaced_range :
    let text := "\u00a0\t( 7*W-1 \r\n\x0c downto\n 0 )\n"
    let other := "\u00a0 ( 7*W-1 downto 0 )"
    '\x0b' ∉ text.toList ∧ '\x0b' ∉ other.toList ∧
    Text.pieces other.toList = Text.pieces text.toList ∧
      (Language.vhdl.collect text).1 = "( 7*W-1 downto 0 )" ∧
      Language.verilog.collect other = Language.vhdl.collect text := by
  intro text other
  have hText : '\x0b' ∉ text.toList := by decide
  have hOther : '\x0b' ∉ other.toList := by decide
  have hPieces : Text.pieces other.toList = Text.pieces text.toList := by decide +kernel
  obtain ⟨hTaken, -, -, hSame⟩ := collect_eq_spaced .vhdl text hText
  exact ⟨hText, hOther, hPieces, hTaken.trans (by decide +kernel),
    hSame .verilog other hOther hPieces⟩

end HdlIndex

import HdlIndex.Text.Basic
import HdlIndex.Vhdl.Walk
/-! Scanning a VHDL text from end to end: its tokens, their reading, the walk, and the table that
results. The walk sees the case-folded text; comments and the generic clause are taken from the
text itself. -/
namespace HdlIndex.Vhdl

/-- The tokens of a text, taken from its case-folded form. Folding keeps all byte offsets. -/
def tokens (limit : Option Nat) (text : String) : Tokens :=
  tokenize delimiters limit false (Text.foldCase text)

/-- A table and the notes taken on the way to it. -/
structure Scan where
  table : Table
  notes : List Note

/-- The comment at a range of the text, without the blanks at its end. -/
def commentAt (text : String) (span : Span) : Word :=
  ⟨String.ofList (Text.trimEnd (span.slice text).toList), span⟩

/-- The state of the walk at the end of a text. -/
def walkThrough (region : Region) (events : List Event) (size : Nat) : Walk :=
  ((Walk.start region).run events).finish size

/-- What the end of a walk leaves to be remarked: open generate statements, declaration lists that
had to be completed, and text that was not read. -/
def diagnose (walk : Walk) (scanned size : Nat) : List Diagnostic :=
  (if walk.generates.isEmpty then [] else [.unclosedGenerate walk.generates.length]) ++
  walk.found.ragged.map (fun list => .ragged list.1 list.2) ++
  (if scanned < size then [.truncated scanned size] else [])

/-- The table of a text, from what its walk found and from its reading. -/
def tabulate (text : String) (events : List Event) (scanned : Nat) (walk : Walk) : Table :=
  let found := walk.found.align
  { toFindings := found
    genericDefinition := (found.genericClause.map (·.slice text)).getD ""
    comments := ⟨((events.filterMap Event.comment?).map (commentAt text)).toArray⟩
    keywords := events.filterMap Event.keyword?
    diagnostics := diagnose walk scanned text.utf8ByteSize }

/-- Scans a text that starts in `region`. At most about `limit` bytes are read. -/
def scan (region : Region) (limit : Option Nat) (text : String) : Scan :=
  let size := text.utf8ByteSize
  let tokens := tokens limit text
  let events := readEvents size tokens.list
  let walk := walkThrough region events size
  let stopped := Note.ofReading limit tokens.scanned size
  let padded := walk.found.ragged.map fun list => Note.padded list.2 list.1
  ⟨tabulate text events tokens.scanned walk, stopped ++ walk.notes.reverse ++ padded⟩

end HdlIndex.Vhdl

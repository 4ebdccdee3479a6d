import HdlIndex.Symbols.Answer
import HdlIndex.Terminal
/-! Painting a source text: the places of recorded words are coloured by category. Where places
overlap, the one that begins first wins, and of two that begin together the one whose category is
listed first. -/
namespace HdlIndex

namespace Highlight

/-- The painted categories with their colours, in the order of precedence. -/
def colorings : List (String × Rgb) :=
  [("comment", .palmLeaf), ("include_files", .burntOrange), ("entity_name", .natureGreen),
   ("architecture_name", .natureGreen), ("package_declaration_name", .natureGreen),
   ("clocked_signals", .tomato), ("port_interface_names", .lightSkyBlue),
   ("generics_interface_names", .goldenRod), ("signal_constant_variable_names", .lightSkyBlue),
   ("port_interface_types", .seafoamGreen), ("signal_constant_variable_types", .seafoamGreen),
   ("instance_names", .turquoise), ("instance_types", .natureGreen),
   ("component_names", .natureGreen), ("label_names", .goldenRod), ("keyword", .darkCyan)]

/-- A place to paint. The rank is the place of its category in the order of precedence. -/
structure Stroke where
  span : Span
  hue : Rgb
  rank : Nat
deriving DecidableEq, Repr

/-- The order in which strokes are drawn: by where they begin, then by rank. -/
def Stroke.before (a b : Stroke) : Bool :=
  a.span.start < b.span.start || (a.span.start == b.span.start && a.rank ≤ b.rank)

/-- Every place of a painted category that covers text. -/
def strokes (positions : String → List Span) : List Stroke :=
  colorings.zipIdx.flatMap fun ((tag, hue), rank) =>
    ((positions tag).filter (! ·.isEmpty)).map fun span => ⟨span, hue, rank⟩

/-- Leaves out the strokes that begin inside of one that is drawn. -/
def apart (strokes : List Stroke) : Array Stroke :=
  (strokes.foldl (fun (drawn, cursor) stroke =>
    if stroke.span.start < cursor then (drawn, cursor)
    else (drawn.push stroke, stroke.span.stop)) ((#[] : Array Stroke), 0)).1

/-- The strokes that are drawn, from the beginning of the text to its end. None overlaps another. -/
def drawn (positions : String → List Span) : List Stroke :=
  (apart ((strokes positions).mergeSort Stroke.before)).toList

/-- Writes a text from byte `cursor` on, behind `out`. The first stroke that reaches beyond the text
ends the painting. -/
def paintFrom (text : String) (colors : Bool) :
    List Stroke → (cursor : Nat) → (out : String) → String
  | [], cursor, out => out ++ (⟨cursor, text.utf8ByteSize⟩ : Span).slice text
  | stroke :: rest, cursor, out =>
    if text.utf8ByteSize < stroke.span.stop then
      out ++ (⟨cursor, text.utf8ByteSize⟩ : Span).slice text
    else
      let between := (⟨cursor, stroke.span.start⟩ : Span).slice text
      let piece := stroke.span.slice text
      let painted := if colors then Terminal.colored stroke.hue piece else piece
      paintFrom text colors rest stroke.span.stop (out ++ between ++ painted)

/-- A text painted with the places of its categories. Without colours it is the text itself. -/
def paint (positions : String → List Span) (colors : Bool) (text : String) : String :=
  paintFrom text colors (drawn positions) 0 ""

end Highlight

end HdlIndex

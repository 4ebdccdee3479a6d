/-! Colours and the escapes that a terminal shows them by. -/
namespace HdlIndex

/-- A colour by its red, green and blue parts. -/
structure Rgb where
  red : Nat
  green : Nat
  blue : Nat
deriving DecidableEq, Repr

namespace Rgb

def burntOrange : Rgb := ⟨204, 85, 0⟩
def goldenRod : Rgb := ⟨218, 165, 32⟩
def tomato : Rgb := ⟨255, 99, 71⟩
def darkCyan : Rgb := ⟨0, 139, 139⟩
def lightSkyBlue : Rgb := ⟨135, 206, 250⟩
def turquoise : Rgb := ⟨64, 224, 208⟩
def seafoamGreen : Rgb := ⟨159, 226, 191⟩
def palmLeaf : Rgb := ⟨100, 151, 80⟩
def natureGreen : Rgb := ⟨79, 173, 39⟩

end Rgb

namespace Terminal

def reset : String := "\x1b[0m"

/-- Every end of colouring in a text is followed by `style` again. -/
def resume (style : String) (text : String) : String :=
  (reset ++ style).intercalate (text.splitOn reset)

/-- A text in a style, given by the codes of the escape that begins it. -/
def styled (codes : String) (text : String) : String :=
  let style := "\x1b[" ++ codes ++ "m"
  style ++ resume style text ++ reset

def blue (text : String) : String := styled "34" text

def yellow (text : String) : String := styled "33" text

def green (text : String) : String := styled "32" text

def colored (hue : Rgb) (text : String) : String :=
  styled ("38;2;" ++ toString hue.red ++ ";" ++ toString hue.green ++ ";" ++ toString hue.blue) text

end Terminal

end HdlIndex

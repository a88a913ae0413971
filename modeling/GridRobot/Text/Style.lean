/-!
# Styles of terminal text

A style is switched on by an escape sequence in front of a text and off by one behind it. Which sequences these are depends on the
terminal, so what paints with them takes a palette; the program uses those of ANSI terminals (`Palette.ansi`).
-/

namespace GridRobot.Text

/-- The styles in use. -/
inductive Style where
  | bold | underline | yellow
  deriving DecidableEq, Repr

/-- The escape sequences of a terminal. -/
structure Palette where
  /-- The sequence that switches a style on. -/
  opening : Style → String
  /-- The sequence that ends every style. -/
  closing : String

namespace Palette

/-- The escape sequences of ANSI terminals. -/
def ansi : Palette where
  opening
    | .bold => "\x1b[1m"
    | .underline => "\x1b[4m"
    | .yellow => "\x1b[33m"
  closing := "\x1b[0m"

/-- A text in a style. -/
def paint (p : Palette) (s : Style) (text : String) : String := p.opening s ++ text ++ p.closing

end Palette

end GridRobot.Text

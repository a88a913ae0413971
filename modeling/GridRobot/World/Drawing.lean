import GridRobot.Text.Style
import GridRobot.World

/-!
# Drawings

The floor as text. Each row of cells has a line of the walls north of it and a line of the cells themselves with the walls
between them; a line of the southern walls ends the drawing. The robot is an arrow in bold, with stars beside it if it stands on a
beeper, and a beeper alone is a yellow star. A world can be drawn with the escape sequences of any palette (`drawWith`); the program
draws for ANSI terminals (`draw`).
-/

namespace GridRobot

open Text

/-- The arrow that shows a heading. -/
def Heading.arrow : Heading → String
  | .east => ">"
  | .north => "^"
  | .west => "<"
  | .south => "v"

namespace World

/-- The three columns of a wall above or below a cell. -/
def drawLevelWall (walled : Bool) : String := if walled then "---" else "   "

/-- The column of a wall beside a cell. -/
def drawUprightWall (walled : Bool) : String := if walled then "|" else " "

/-- The three columns of a cell. -/
def drawCell (p : Palette) (w : World) (c : Cell) : String :=
  if w.robot = c then
    p.paint .bold (if w.beepers.get c then "*" ++ w.heading.arrow ++ "*" else " " ++ w.heading.arrow ++ " ")
  else if w.beepers.get c then p.paint .yellow " * "
  else "   "

/-- The line of the walls on one level side of a row. -/
def drawWallLine (w : World) (y : Fin height) (side : Heading) : String :=
  String.join ((Cell.row y).map (fun c => "+" ++ drawLevelWall (w.floor.walled c side))) ++ "+\n"

/-- The line of the cells of a row. -/
def drawCellLine (p : Palette) (w : World) (y : Fin height) : String :=
  String.join ((Cell.row y).map (fun c => drawUprightWall (w.floor.walled c .west) ++ drawCell p w c)) ++
    drawUprightWall (w.floor.walled ⟨Fin.last 9, y⟩ .east) ++ "\n"

/-- The drawing of a world with the escape sequences of a palette. -/
def drawWith (p : Palette) (w : World) : String :=
  String.join ((List.finRange height).map (fun y => w.drawWallLine y .north ++ drawCellLine p w y)) ++
    w.drawWallLine (Fin.last 9) .south

/-- The drawing of a world for ANSI terminals. -/
def draw (w : World) : String := drawWith .ansi w

end World

end GridRobot

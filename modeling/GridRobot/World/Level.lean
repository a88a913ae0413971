import GridRobot.Text.Lines
import GridRobot.Text.Numeral
import GridRobot.Text.Words
import GridRobot.World

/-!
# Level texts

The written form of a world. Ten rows of ten cells: a cell is a hexadecimal digit of wall weights, with a star behind it if the
cell holds a beeper. A line that begins with `robot` places the robot at a column and a row with a heading; the last such line
counts, and without one the robot starts in the north west corner facing east. Blank lines and lines that begin with `#` say
nothing.

A row's digits add walls to the bordered floor, on both sides of each wall, so a wall may be written on either of the cells it
parts.
-/

namespace GridRobot

open Text

/-- What is wrong with a level text. -/
inductive LevelProblem where
  | tooManyRows
  | wrongCellCount
  | badCell (text : String)
  | badRobotLine
  | robotOffTheFloor (x y : Nat)
  | tooFewRows
  deriving DecidableEq, Repr

namespace LevelProblem

/-- The problem in words. -/
def text : LevelProblem → String
  | tooManyRows => s!"more than {height} rows"
  | wrongCellCount => s!"expected {width} cells"
  | badCell text => "bad cell " ++ text
  | badRobotLine => "expected robot X Y HEADING"
  | robotOffTheFloor x y => s!"robot at ({x}, {y}) is off the floor"
  | tooFewRows => s!"expected {height} rows"

end LevelProblem

/-- A problem and the line it is on, counted from one; line 0 stands for the text as a whole. -/
structure LevelError where
  line : Nat
  problem : LevelProblem
  deriving DecidableEq, Repr

namespace LevelError

/-- The error in words. -/
def message (e : LevelError) : String :=
  if e.line = 0 then "LEVEL ERROR; " ++ e.problem.text
  else s!"LEVEL ERROR IN {e.line}; " ++ e.problem.text

end LevelError

namespace Level

/-- Where a robot stands and faces. -/
structure Pose where
  cell : Cell
  heading : Heading
  deriving DecidableEq, Repr

/-- What a row says about a cell: the sum of its wall weights, and whether it holds a beeper. -/
structure CellText where
  bits : Nat
  beeper : Bool
  deriving DecidableEq, Repr

/-- Reads a cell: one hexadecimal digit in either case, with a star behind it or without. -/
def CellText.ofWord? : List Char → Option CellText
  | [digit] => (hexValue? digit).map (⟨·, false⟩)
  | [digit, '*'] => (hexValue? digit).map (⟨·, true⟩)
  | _ => none

/-- A row of cells. -/
abbrev Row := Vector CellText width

/-- Reads the words of a row, each of which is a cell. -/
def readCells : List Word → Except LevelProblem (List CellText)
  | [] => .ok []
  | w :: ws => do
    match CellText.ofWord? w.text with
    | some c => return c :: (← readCells ws)
    | none => throw (.badCell w.toString)

theorem length_readCells {ws : List Word} {cells : List CellText} (h : readCells ws = .ok cells) :
    cells.length = ws.length := by
  induction ws generalizing cells with
  | nil =>
    simp only [readCells, Except.ok.injEq] at h
    simp [← h]
  | cons w ws ih =>
    simp only [readCells] at h
    cases hw : CellText.ofWord? w.text with
    | none =>
      rw [hw] at h
      cases h
    | some c =>
      rw [hw] at h
      cases hr : readCells ws with
      | error e =>
        rw [hr] at h
        cases h
      | ok rest =>
        rw [hr] at h
        cases h
        simp [ih hr]

/-- Reads a row: as many cells as the floor has columns. -/
def readRow (line : List Char) : Except LevelProblem Row :=
  let ws := words line 0
  if hw : ws.length = width then
    match h : readCells ws with
    | .ok cells => .ok ⟨cells.toArray, by simp [length_readCells h, hw]⟩
    | .error e => .error e
  else .error .wrongCellCount

/-- Reads a line that places the robot: four words, of which the second and third are the column and the row and the fourth is
the heading. -/
def readPose (line : List Char) : Except LevelProblem Pose :=
  match words line 0 with
  | [_, x, y, h] =>
    match unsigned? x.text, unsigned? y.text, Heading.ofName? h.toString with
    | some x, some y, some heading =>
      match Cell.at? x y with
      | some cell => .ok ⟨cell, heading⟩
      | none => .error (.robotOffTheFloor x y)
    | _, _, _ => .error .badRobotLine
  | _ => .error .badRobotLine

/-- What the lines so far have said. -/
structure Draft where
  rows : List Row
  pose : Pose
  deriving DecidableEq, Repr

/-- Nothing said yet. -/
def Draft.blank : Draft := ⟨[], ⟨Cell.origin, .east⟩⟩

/-- Takes in one more line. -/
def Draft.read (d : Draft) (line : List Char) : Except LevelProblem Draft :=
  let line := trim line
  if line = [] ∨ line.head? = some '#' then .ok d
  else if "robot".toList.isPrefixOf line then (readPose line).map (fun pose => { d with pose })
  else if d.rows.length = height then .error .tooManyRows
  else (readRow line).map (fun row => { d with rows := d.rows ++ [row] })

/-- Takes in the lines from line number `number` on. -/
def Draft.readAll (d : Draft) (number : Nat) : List (List Char) → Except LevelError Draft
  | [] => .ok d
  | line :: rest =>
    match d.read line with
    | .ok d => d.readAll (number + 1) rest
    | .error problem => .error ⟨number, problem⟩

/-- The floor plan with the walls that the cells of a grid name. -/
def floorOf (cells : Grid CellText) : FloorPlan :=
  Cell.all.foldl
    (fun plan c => (Heading.all.filter (·.inBits (cells.get c).bits)).foldl (fun plan h => plan.build c h) plan)
    FloorPlan.empty

/-- The world of a draft that has every row. -/
def Draft.finish (d : Draft) : Except LevelError World :=
  if h : d.rows.length = height then
    let cells : Grid CellText := Grid.ofFn (fun c => (d.rows.get (c.y.cast h.symm))[c.x])
    .ok { floor := floorOf cells
          beepers := Grid.ofFn (fun c => (cells.get c).beeper)
          robot := d.pose.cell
          heading := d.pose.heading }
  else .error ⟨0, .tooFewRows⟩

/-- Reads a world. -/
def parse (text : String) : Except LevelError World := do
  (← Draft.blank.readAll 1 (lines text.toList)).finish

/-- The written form of a cell. -/
def writeCell (w : World) (c : Cell) : String :=
  hex 1 (w.floor.walls.get c).toBits ++ (if w.beepers.get c then "*" else "")

/-- The written form of a row. -/
def writeRow (w : World) (y : Fin height) : String :=
  " ".intercalate ((Cell.row y).map (writeCell w)) ++ "\n"

/-- The line that places the robot. -/
def writePose (w : World) : String :=
  s!"robot {w.robot.x.val} {w.robot.y.val} " ++ w.heading.name ++ "\n"

/-- Writes a world in the form that `parse` reads. -/
def write (w : World) : String :=
  String.join ((List.finRange height).map (writeRow w)) ++ writePose w

end Level

end GridRobot

import GridRobot.FloorPlan

/-!
# Worlds

A floor plan, the cells that hold a beeper, and the robot. A cell holds at most one beeper. Every operation gives a new world, or
the reason why it refuses.
-/

namespace GridRobot

/-- The world a robot lives in. -/
structure World where
  floor : FloorPlan
  beepers : Grid Bool
  robot : Cell
  heading : Heading
  deriving DecidableEq, Repr

namespace World

/-- The world without beepers and inner walls, the robot in the north west corner facing east. -/
def empty : World := ⟨FloorPlan.empty, Grid.fill false, Cell.origin, .east⟩

/-- The cell at a column and a row, or the refusal of one off the floor. -/
def locate (x y : Nat) : Except WorldError Cell :=
  match Cell.at? x y with
  | some c => .ok c
  | none => .error (.offTheFloor x y)

/-- A world without beepers on a floor plan. -/
def start (floor : FloorPlan) (x y : Nat) (heading : Heading) : Except WorldError World := do
  let c ← locate x y
  return { empty with floor, robot := c, heading }

/-- The world with the robot placed anew. -/
def withRobot (w : World) (x y : Nat) (heading : Heading) : Except WorldError World := do
  let c ← locate x y
  return { w with robot := c, heading }

/-- The world on another floor plan. -/
def withFloor (w : World) (floor : FloorPlan) : World := { w with floor }

/-! ## Beepers -/

/-- Whether there is a beeper at a column and a row; off the floor there is none. -/
def beeperAt (w : World) (x y : Nat) : Bool :=
  match Cell.at? x y with
  | some c => w.beepers.get c
  | none => false

/-- Takes the beeper from a cell. -/
def pickFrom (w : World) (c : Cell) : Except WorldError World :=
  if w.beepers.get c then .ok { w with beepers := w.beepers.set c false }
  else .error (.cellIsEmpty c.x c.y)

/-- Puts a beeper into a cell. -/
def dropInto (w : World) (c : Cell) : Except WorldError World :=
  if w.beepers.get c then .error (.cellIsFull c.x c.y)
  else .ok { w with beepers := w.beepers.set c true }

/-- Takes the beeper at a column and a row. -/
def pickAt (w : World) (x y : Nat) : Except WorldError World := do
  w.pickFrom (← locate x y)

/-- Puts a beeper at a column and a row. -/
def dropAt (w : World) (x y : Nat) : Except WorldError World := do
  w.dropInto (← locate x y)

/-- The number of beepers. -/
def count (w : World) : Nat := w.beepers.cells.count true

/-- The number of beepers whose column is in `x₀ ≤ x < x₁` and whose row is in `y₀ ≤ y < y₁`. -/
def countIn (w : World) (x₀ x₁ y₀ y₁ : Nat) : Nat :=
  Cell.all.countP fun c => decide (x₀ ≤ c.x.val ∧ c.x.val < x₁ ∧ y₀ ≤ c.y.val ∧ c.y.val < y₁) && w.beepers.get c

/-- The number of beepers in a column. -/
def countInColumn (w : World) (x : Nat) : Nat := w.countIn x (x + 1) 0 height

/-- The number of beepers in a row. -/
def countInRow (w : World) (y : Nat) : Nat := w.countIn 0 width y (y + 1)

/-- The cells that hold a beeper, row by row. -/
def beeperCells (w : World) : List Cell := Cell.all.filter (fun c => w.beepers.get c)

/-! ## The robot -/

/-- Whether the robot could move in a direction. -/
def clear (w : World) (h : Heading) : Bool := !w.floor.walled w.robot h

/-- The cell in front of the robot, if no wall is in the way. -/
def ahead (w : World) : Option Cell :=
  if w.clear w.heading then w.robot.ahead w.heading else none

/-- Moves the robot to the cell in front of it. -/
def move (w : World) : Except WorldError World :=
  match w.ahead with
  | some c => .ok { w with robot := c }
  | none => .error (.blockedByWall w.robot.x w.robot.y w.heading)

/-- Turns the robot left. -/
def turnLeft (w : World) : World := { w with heading := w.heading.left }

/-- Turns the robot round. -/
def turnAround (w : World) : World := { w with heading := w.heading.around }

/-- Turns the robot right. -/
def turnRight (w : World) : World := { w with heading := w.heading.right }

/-- Takes the beeper the robot stands on. -/
def pick (w : World) : Except WorldError World := w.pickFrom w.robot

/-- Puts a beeper where the robot stands. -/
def drop (w : World) : Except WorldError World := w.dropInto w.robot

/-- Whether the robot stands on a beeper. -/
def onBeeper (w : World) : Bool := w.beepers.get w.robot

/-- Whether there is a beeper in the cell in front of the robot; a wall hides it. -/
def beeperAhead (w : World) : Bool := w.ahead.any w.beepers.get

/-- Whether there is no wall to the left of the robot. -/
def leftIsClear (w : World) : Bool := w.clear w.heading.left

/-- Whether there is no wall in front of the robot. -/
def frontIsClear (w : World) : Bool := w.clear w.heading

/-- Whether there is no wall to the right of the robot. -/
def rightIsClear (w : World) : Bool := w.clear w.heading.right

end World

end GridRobot

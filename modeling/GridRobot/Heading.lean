/-!
# Headings

The four ways a robot can face. A left turn goes east, north, west, south and round again; the other turns are left turns
repeated. North is towards row 0.
-/

namespace GridRobot

/-- A way to face. -/
inductive Heading where
  | east | north | west | south
  deriving DecidableEq, Repr

namespace Heading

/-- The headings in the order of left turns. -/
def all : List Heading := [east, north, west, south]

/-- The heading after a left turn. -/
def left : Heading → Heading
  | east => north
  | north => west
  | west => south
  | south => east

/-- The opposite heading: two left turns. -/
def around (h : Heading) : Heading := h.left.left

/-- The heading after a right turn: three left turns. -/
def right (h : Heading) : Heading := h.left.left.left

/-- The name of a heading. -/
def name : Heading → String
  | east => "east"
  | north => "north"
  | west => "west"
  | south => "south"

/-- The heading of a name, whatever the case of its letters. -/
def ofName? (text : String) : Option Heading :=
  all.find? (fun h => h.name == text.toLower)

@[simp] theorem around_around (h : Heading) : h.around.around = h := by cases h <;> rfl

theorem mem_all (h : Heading) : h ∈ all := by cases h <;> decide

end Heading

end GridRobot

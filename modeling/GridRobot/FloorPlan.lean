import GridRobot.Grid

/-!
# Floor plans

The walls of the floor. Each cell knows the walls on its four sides; the outer border is walled, and a wall inside is stored on
both of the cells it parts, so that neighbours agree. Walls are added and never taken away.
-/

namespace GridRobot

/-- Why something was refused on the floor. What it was asked of stays as it was. -/
inductive WorldError where
  | cellIsEmpty (x y : Nat)
  | cellIsFull (x y : Nat)
  | blockedByWall (x y : Nat) (heading : Heading)
  | offTheFloor (x y : Nat)
  deriving DecidableEq, Repr

namespace WorldError

/-- The refusal in words. -/
def message : WorldError → String
  | cellIsEmpty x y => s!"cell is empty ({x}, {y})"
  | cellIsFull x y => s!"cell is full ({x}, {y})"
  | blockedByWall x y h => s!"blocked by wall ({x}, {y}) facing " ++ h.name
  | offTheFloor x y => s!"off the floor ({x}, {y})"

end WorldError

/-- The weight of a side in the number that writes the walls of a cell. -/
def Heading.weight : Heading → Nat
  | .north => 1
  | .east => 2
  | .south => 4
  | .west => 8

/-- Whether a number of wall bits has the bit of a side. -/
def Heading.inBits (h : Heading) (bits : Nat) : Bool := bits / h.weight % 2 == 1

/-- The walls of a cell. -/
structure Walls where
  north : Bool
  east : Bool
  south : Bool
  west : Bool
  deriving DecidableEq, Repr

namespace Walls

/-- A wall on every side. -/
def all : Walls := ⟨true, true, true, true⟩

/-- Whether there is a wall on a side. -/
def has (w : Walls) : Heading → Bool
  | .north => w.north
  | .east => w.east
  | .south => w.south
  | .west => w.west

/-- The walls given side by side. -/
def ofFn (f : Heading → Bool) : Walls := ⟨f .north, f .east, f .south, f .west⟩

/-- The walls with one more. -/
def add (w : Walls) (h : Heading) : Walls := ofFn (fun k => w.has k || k == h)

/-- The number that writes the walls: the weights of the walled sides. -/
def toBits (w : Walls) : Nat :=
  w.north.toNat * 1 + w.east.toNat * 2 + w.south.toNat * 4 + w.west.toNat * 8

@[simp] theorem has_all (h : Heading) : all.has h = true := by cases h <;> rfl

@[simp] theorem has_ofFn (f : Heading → Bool) (h : Heading) : (ofFn f).has h = f h := by cases h <;> rfl

@[simp] theorem has_add (w : Walls) (h k : Heading) : (w.add h).has k = (w.has k || k == h) := by simp [add]

@[ext] theorem ext {w w' : Walls} (h : ∀ k, w.has k = w'.has k) : w = w' := by
  cases w
  cases w'
  have hn := h .north
  have he := h .east
  have hs := h .south
  have hw := h .west
  simp only [has] at hn he hs hw
  simp [hn, he, hs, hw]

/-- The number of the walls has the bit of a side exactly where there is a wall. -/
theorem inBits_toBits (w : Walls) (h : Heading) : h.inBits w.toBits = w.has h := by
  rcases w with ⟨_ | _, _ | _, _ | _, _ | _⟩ <;> cases h <;> rfl

theorem toBits_lt (w : Walls) : w.toBits < 16 := by
  rcases w with ⟨_ | _, _ | _, _ | _, _ | _⟩ <;> decide

end Walls

/-- The walls of every cell. -/
structure FloorPlan where
  walls : Grid Walls
  deriving DecidableEq, Repr

namespace FloorPlan

/-- Whether a side of a cell is part of the outer border. -/
def onBorder (c : Cell) (h : Heading) : Bool := (c.ahead h).isNone

/-- The plan that has the border and no other wall. -/
def empty : FloorPlan := ⟨Grid.ofFn (fun c => Walls.ofFn (onBorder c))⟩

/-- Whether a cell has a wall on a side. -/
def walled (p : FloorPlan) (c : Cell) (h : Heading) : Bool := (p.walls.get c).has h

/-- The walls at a column and a row. Off the floor every side is walled. -/
def wallsAt (p : FloorPlan) (x y : Nat) : Walls :=
  match Cell.at? x y with
  | some c => p.walls.get c
  | none => Walls.all

/-- Whether there is a wall at a column and a row on a side. -/
def wallAt (p : FloorPlan) (x y : Nat) (h : Heading) : Bool := (p.wallsAt x y).has h

/-- Whether a cell has one of the walls that `bits` names. -/
def touches (p : FloorPlan) (x y bits : Nat) : Bool :=
  Heading.all.any (fun h => h.inBits bits && p.wallAt x y h)

/-- Adds a wall to one cell alone. -/
def mark (p : FloorPlan) (c : Cell) (h : Heading) : FloorPlan := ⟨p.walls.set c ((p.walls.get c).add h)⟩

/-- Adds a wall on one side of a cell, and on the opposite side of the neighbour behind it. -/
def build (p : FloorPlan) (c : Cell) (h : Heading) : FloorPlan :=
  match c.ahead h with
  | some d => (p.mark c h).mark d h.around
  | none => p.mark c h

/-- Adds a wall at a column and a row. -/
def withWall (p : FloorPlan) (x y : Nat) (h : Heading) : Except WorldError FloorPlan :=
  match Cell.at? x y with
  | some c => .ok (p.build c h)
  | none => .error (.offTheFloor x y)

/-- Adds the walls that `bits` names, one after the other in the order of left turns. -/
def withWalls (p : FloorPlan) (x y bits : Nat) : Except WorldError FloorPlan :=
  (Heading.all.filter (·.inBits bits)).foldlM (fun plan h => plan.withWall x y h) p

theorem walled_mark (p : FloorPlan) (c d : Cell) (h k : Heading) :
    (p.mark c h).walled d k = (p.walled d k || (c == d && k == h)) := by
  simp only [walled, mark, Grid.get_set]
  by_cases hc : c = d
  · subst hc
    simp
  · simp [hc]

@[ext] theorem ext {p p' : FloorPlan} (h : ∀ c k, p.walled c k = p'.walled c k) : p = p' := by
  cases p
  cases p'
  congr 1
  exact Grid.ext fun c => Walls.ext fun k => h c k

end FloorPlan

end GridRobot

import GridRobot.Heading

/-!
# The grid

Ten columns and ten rows of cells, and values laid out over them. A grid is determined by the value at each cell (`Grid.ext`),
and setting one cell changes that cell alone (`get_set`).
-/

namespace GridRobot

/-- The number of columns. -/
abbrev width : Nat := 10

/-- The number of rows. -/
abbrev height : Nat := 10

/-- A cell: its column from the west and its row from the north. -/
structure Cell where
  x : Fin width
  y : Fin height
  deriving DecidableEq, Repr

namespace Cell

@[ext] theorem ext {c d : Cell} (hx : c.x = d.x) (hy : c.y = d.y) : c = d := by
  cases c
  cases d
  simp_all

/-- The cell in the north west corner. -/
def origin : Cell := ⟨0, 0⟩

/-- The cell at a column and a row, if they are on the floor. -/
def at? (x y : Nat) : Option Cell :=
  if h : x < width ∧ y < height then some ⟨⟨x, h.1⟩, ⟨y, h.2⟩⟩ else none

/-- The number of a cell, counted row by row. -/
def index (c : Cell) : Fin (width * height) :=
  ⟨c.y * width + c.x, by have := c.x.isLt; have := c.y.isLt; simp only [width, height] at *; omega⟩

/-- The cell of a number. -/
def ofIndex (i : Fin (width * height)) : Cell :=
  ⟨⟨i % width, Nat.mod_lt _ (by decide)⟩, ⟨i / width, by have := i.isLt; simp only [width, height] at *; omega⟩⟩

@[simp] theorem ofIndex_index (c : Cell) : ofIndex c.index = c := by
  obtain ⟨⟨x, hx⟩, ⟨y, hy⟩⟩ := c
  have hx' : x < 10 := hx
  simp only [ofIndex, index, width, Cell.mk.injEq, Fin.mk.injEq]
  exact ⟨by omega, by omega⟩

@[simp] theorem index_ofIndex (i : Fin (width * height)) : (ofIndex i).index = i := by
  obtain ⟨i, hi⟩ := i
  simp only [ofIndex, index, width, Fin.mk.injEq]
  omega

theorem index_inj {c d : Cell} : c.index = d.index ↔ c = d :=
  ⟨fun h => by rw [← ofIndex_index c, h, ofIndex_index], fun h => by rw [h]⟩

/-- The cells of one row, from west to east. -/
def row (y : Fin height) : List Cell := (List.finRange width).map (⟨·, y⟩)

/-- The cells row by row, each row from west to east. -/
def all : List Cell := (List.finRange height).flatMap row

theorem mem_all (c : Cell) : c ∈ all := by
  simp only [all, row, List.mem_flatMap, List.mem_map, List.mem_finRange, true_and]
  exact ⟨c.y, c.x, rfl⟩

/-- The cells come in the order of their numbers. -/
theorem all_eq_map_ofIndex : all = (List.finRange (width * height)).map ofIndex := by rfl

/-- No cell is counted twice. -/
theorem nodup_all : all.Nodup := by decide +kernel

/-- The next cell in a direction; none behind the border. -/
def ahead (c : Cell) : Heading → Option Cell
  | .east => at? (c.x + 1) c.y
  | .north => if 0 < c.y.val then at? c.x (c.y - 1) else none
  | .west => if 0 < c.x.val then at? (c.x - 1) c.y else none
  | .south => at? c.x (c.y + 1)

end Cell

/-- A value for each cell. -/
structure Grid (α : Type) where
  cells : Vector α (width * height)
  deriving DecidableEq, Repr

namespace Grid

variable {α : Type}

/-- The value at a cell. -/
def get (g : Grid α) (c : Cell) : α := g.cells[c.index]

/-- The grid with another value at one cell. -/
def set (g : Grid α) (c : Cell) (a : α) : Grid α := ⟨g.cells.set c.index a⟩

/-- The grid of a function on cells. -/
def ofFn (f : Cell → α) : Grid α := ⟨Vector.ofFn (fun i => f (Cell.ofIndex i))⟩

/-- The grid with one value everywhere. -/
def fill (a : α) : Grid α := ⟨Vector.replicate (width * height) a⟩

@[simp] theorem get_set (g : Grid α) (c d : Cell) (a : α) :
    (g.set c a).get d = if c = d then a else g.get d := by
  simp only [get, set, Fin.getElem_fin, Vector.getElem_set, Fin.val_inj, Cell.index_inj]

@[simp] theorem get_ofFn (f : Cell → α) (c : Cell) : (ofFn f).get c = f c := by
  simp [get, ofFn]

@[simp] theorem get_fill (a : α) (c : Cell) : (fill a).get c = a := by
  simp [get, fill]

@[ext] theorem ext {g g' : Grid α} (h : ∀ c, g.get c = g'.get c) : g = g' := by
  cases g with
  | mk v =>
    cases g' with
    | mk v' =>
      congr 1
      ext i hi
      have := h (Cell.ofIndex ⟨i, hi⟩)
      simpa [get] using this

end Grid

end GridRobot

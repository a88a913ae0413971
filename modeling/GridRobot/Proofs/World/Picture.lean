import GridRobot.Proofs.Text.Escapes
import GridRobot.Proofs.Text.Rows
import GridRobot.Proofs.World.Reach
import GridRobot.World.Drawing

/-!
# What a drawing shows

A drawing shows 21 rows of 41 columns: a row for the walls north of each row of cells and a row for the cells, and at the end a
row for the southern walls (`plain_drawWith`). The columns that a cell and its walls take are the same in every world, so two drawings
that show the same show the same of each cell: whether it is walled to the north and to the west, what it holds, and which way the
robot faces in it (`shown_alike`). The other walls follow, since the floor plan of a world that can be reached is regular. So the
drawing determines the world. This is so for every palette of which nothing is shown (`drawWith_faithful`), and so for ANSI terminals
(`draw_faithful`).
-/

namespace GridRobot

open Text

/-- Texts that are put together from parts of the same lengths are equal only part by part. -/
theorem Text.eq_of_flatMap_eq {α β : Type} {l : List α} {f g : α → List β} (h : l.flatMap f = l.flatMap g)
    (hlen : ∀ a, (f a).length = (g a).length) : ∀ a ∈ l, f a = g a := by
  have hlengths : (l.map f).map List.length = (l.map g).map List.length := by simp [hlen]
  have hparts : l.map f = l.map g := List.eq_iff_flatten_eq.2 ⟨h, hlengths⟩
  exact List.map_inj_left.1 hparts

/-- A regular plan is determined by the walls to the north and to the west. -/
theorem FloorPlan.Regular.eq_of_north_of_west {p p' : FloorPlan} (h : p.Regular) (h' : p'.Regular)
    (hnorth : ∀ c, p.walled c .north = p'.walled c .north) (hwest : ∀ c, p.walled c .west = p'.walled c .west) :
    p = p' := by
  -- a side is on the border, or it is the opposite side of a neighbour
  have hback : ∀ c k, (∀ d, p.walled d k.around = p'.walled d k.around) → p.walled c k = p'.walled c k := by
    intro c k hopposite
    cases hahead : c.ahead k with
    | none =>
      have hedge := Cell.ahead_eq_none_iff.1 hahead
      rw [h.bordered c k hedge, h'.bordered c k hedge]
    | some d =>
      have hbeside := Cell.ahead_eq_some_iff.1 hahead
      rw [← h.symmetric c k d hbeside, ← h'.symmetric c k d hbeside, hopposite]
  ext c k
  cases k with
  | north => rw [hnorth]
  | west => rw [hwest]
  | south => rw [hback c .south hnorth]
  | east => rw [hback c .east hwest]

namespace World

/-! ## Columns -/

/-- The characters that are shown of drawings. -/
def ink : List Char := ['+', '-', '|', ' ', '*', '>', '^', '<', 'v']

/-- A text of so many columns in a drawing. -/
structure Columns (n : Nat) (text : List Char) : Prop where
  length : text.length = n
  ink : text ⊆ ink

namespace Columns

variable {m n : Nat} {s t : List Char}

theorem length_eq (hs : Columns n s) (ht : Columns n t) : s.length = t.length := hs.length.trans ht.length.symm

/-- Drawings side by side have the columns of both. -/
theorem append (hs : Columns m s) (ht : Columns n t) : Columns (m + n) (s ++ t) where
  length := by rw [List.length_append, hs.length, ht.length]
  ink := List.append_subset.2 ⟨hs.ink, ht.ink⟩

/-- Four columns for each cell of a row. -/
theorem row {f : Cell → List Char} (h : ∀ c, Columns 4 (f c)) (y : Fin height) : Columns 40 ((Cell.row y).flatMap f) where
  length := by simp [Cell.row, List.length_flatMap, (h _).length, Function.comp_def, List.map_const', width]
  ink := by
    intro a ha
    obtain ⟨c, -, hc⟩ := List.mem_flatMap.1 ha
    exact (h c).ink hc

/-- The characters of a drawing do not begin an escape sequence. -/
theorem escape_not_mem (h : Columns n s) : escape ∉ s := fun hmem => absurd (h.ink hmem) (by decide)

/-- A drawing is in one line. -/
theorem newline_not_mem (h : Columns n s) : '\n' ∉ s := fun hmem => absurd (h.ink hmem) (by decide)

/-- A drawing without its style is shown as it is. -/
theorem shows (h : Columns n s) : Shows s s := .self h.escape_not_mem

end Columns

theorem columns_plus : Columns 1 ['+'] := ⟨rfl, by decide⟩

/-- A wall between two rows takes three columns. -/
theorem columns_drawLevelWall (walled : Bool) : Columns 3 (drawLevelWall walled).toList := by
  cases walled <;> exact ⟨rfl, by decide⟩

/-- A wall between two cells takes one column. -/
theorem columns_drawUprightWall (walled : Bool) : Columns 1 (drawUprightWall walled).toList := by
  cases walled <;> exact ⟨rfl, by decide⟩

/-- A wall between two rows is seen to be there or not. -/
theorem drawLevelWall_inj {walled walled' : Bool} (h : (drawLevelWall walled).toList = (drawLevelWall walled').toList) :
    walled = walled' := by
  cases walled <;> cases walled' <;> first | rfl | exact absurd h (by decide)

/-- A wall between two cells is seen to be there or not. -/
theorem drawUprightWall_inj {walled walled' : Bool}
    (h : (drawUprightWall walled).toList = (drawUprightWall walled').toList) : walled = walled' := by
  cases walled <;> cases walled' <;> first | rfl | exact absurd h (by decide)

/-! ## Cells -/

/-- The heading of the robot, if it is in a cell. -/
def facing (w : World) (c : Cell) : Option Heading := if w.robot = c then some w.heading else none

/-- The robot is seen in its own cell only. -/
theorem facing_eq_some_iff {w : World} {c : Cell} {h : Heading} : w.facing c = some h ↔ w.robot = c ∧ w.heading = h := by
  simp [facing]

/-- The three columns of a cell without their style, by the heading of a robot in it and by whether it holds a beeper. -/
def figure : Option Heading → Bool → String
  | some h, true => "*" ++ h.arrow ++ "*"
  | some h, false => " " ++ h.arrow ++ " "
  | none, true => " * "
  | none, false => "   "

/-- A cell takes three columns. -/
theorem columns_figure (robot : Option Heading) (beeper : Bool) : Columns 3 (figure robot beeper).toList := by
  rcases robot with _ | _ | _ | _ | _ <;> cases beeper <;> exact ⟨rfl, by decide⟩

/-- Of a cell it is seen whether it holds a beeper, and how a robot is headed there. -/
theorem figure_inj {robot robot' : Option Heading} {beeper beeper' : Bool}
    (h : (figure robot beeper).toList = (figure robot' beeper').toList) : robot = robot' ∧ beeper = beeper' := by
  rcases robot with _ | _ | _ | _ | _ <;> cases beeper <;> rcases robot' with _ | _ | _ | _ | _ <;> cases beeper' <;>
    first | exact ⟨rfl, rfl⟩ | exact absurd h (by decide)

/-- Of a cell its three columns are shown, whatever their style. -/
theorem shows_drawCell {p : Palette} (hp : p.Silent) (w : World) (c : Cell) :
    Shows (drawCell p w c).toList (figure (w.facing c) (w.beepers.get c)).toList := by
  have hcolumns := columns_figure (w.facing c) (w.beepers.get c)
  unfold drawCell
  by_cases hrobot : w.robot = c <;> cases hbeeper : w.beepers.get c <;>
    simp only [facing, hrobot, hbeeper, if_true, if_false, Bool.false_eq_true] at hcolumns ⊢
  · exact hp.shows_paint .bold hcolumns.escape_not_mem
  · exact hp.shows_paint .bold hcolumns.escape_not_mem
  · exact hcolumns.shows
  · exact hp.shows_paint .yellow hcolumns.escape_not_mem

/-! ## Rows -/

/-- The columns of a cell in the row of the walls on one of its level sides, with the corner in front of them. -/
def wallPart (w : World) (side : Heading) (c : Cell) : List Char :=
  ['+'] ++ (drawLevelWall (w.floor.walled c side)).toList

/-- The columns of a cell in its own row, with the wall in front of them. -/
def cellPart (w : World) (c : Cell) : List Char :=
  (drawUprightWall (w.floor.walled c .west)).toList ++ (figure (w.facing c) (w.beepers.get c)).toList

/-- The row of the walls on one level side of a row of cells. -/
def wallRow (w : World) (y : Fin height) (side : Heading) : List Char := (Cell.row y).flatMap (w.wallPart side) ++ ['+']

/-- The row of a row of cells. -/
def cellRow (w : World) (y : Fin height) : List Char :=
  (Cell.row y).flatMap w.cellPart ++ (drawUprightWall (w.floor.walled ⟨Fin.last 9, y⟩ .east)).toList

/-- The rows that a drawing shows. -/
def rows (w : World) : List (List Char) :=
  (List.finRange height).flatMap (fun y => [w.wallRow y .north, w.cellRow y]) ++ [w.wallRow (Fin.last 9) .south]

section

variable (w : World)

/-- A cell takes four columns of the line of walls beside it. -/
theorem columns_wallPart (side : Heading) (c : Cell) : Columns 4 (w.wallPart side c) :=
  columns_plus.append (columns_drawLevelWall _)

/-- A cell takes four columns of the line it is in. -/
theorem columns_cellPart (c : Cell) : Columns 4 (w.cellPart c) := (columns_drawUprightWall _).append (columns_figure _ _)

/-- A line of walls has 41 columns. -/
theorem columns_wallRow (y : Fin height) (side : Heading) : Columns 41 (w.wallRow y side) :=
  (Columns.row (w.columns_wallPart side) y).append columns_plus

/-- A line of cells has 41 columns. -/
theorem columns_cellRow (y : Fin height) : Columns 41 (w.cellRow y) :=
  (Columns.row w.columns_cellPart y).append (columns_drawUprightWall _)

/-- There are 21 lines in a picture. -/
theorem length_rows : w.rows.length = 21 := rfl

/-- Each row of a drawing has 41 columns. -/
theorem columns_of_mem_rows {row : List Char} (h : row ∈ w.rows) : Columns 41 row := by
  rcases List.mem_append.1 h with hrow | hlast
  · obtain ⟨y, -, hy⟩ := List.mem_flatMap.1 hrow
    rcases List.mem_cons.1 hy with rfl | hy
    · exact w.columns_wallRow y .north
    · obtain rfl := List.mem_singleton.1 hy
      exact w.columns_cellRow y
  · obtain rfl := List.mem_singleton.1 hlast
    exact w.columns_wallRow _ .south

theorem shows_newline : Shows ['\n'] ['\n'] := .self (by decide)

/-- A line of walls is shown as it is. -/
theorem shows_drawWallLine (y : Fin height) (side : Heading) :
    Shows (w.drawWallLine y side).toList (w.wallRow y side ++ ['\n']) := by
  have htext : (w.drawWallLine y side).toList = w.wallRow y side ++ ['\n'] := by
    have hpart : (fun c => ("+" ++ drawLevelWall (w.floor.walled c side)).toList) = w.wallPart side := by
      funext c
      exact String.toList_append
    rw [drawWallLine, String.toList_append, String.toList_join, List.flatMap_map, hpart, wallRow, List.append_assoc]
    rfl
  rw [htext]
  exact (w.columns_wallRow y side).shows.append shows_newline

/-- A line of cells is shown without its style. -/
theorem shows_drawCellLine {p : Palette} (hp : p.Silent) (y : Fin height) :
    Shows (drawCellLine p w y).toList (w.cellRow y ++ ['\n']) := by
  rw [drawCellLine, String.toList_append, String.toList_append, String.toList_join, List.flatMap_map, cellRow]
  refine ((Shows.flatMap fun c _ => ?_).append (columns_drawUprightWall _).shows).append shows_newline
  rw [String.toList_append]
  exact (columns_drawUprightWall _).shows.append (shows_drawCell hp w c)

/-- Without its escape sequences a drawing is the text of its rows. -/
theorem plain_drawWith {p : Palette} (hp : p.Silent) : plain (drawWith p w).toList = joinRows w.rows := by
  apply Shows.plain_eq
  rw [drawWith, String.toList_append, String.toList_join, List.flatMap_map, rows, joinRows_append, joinRows, List.flatMap_assoc]
  refine (Shows.flatMap fun y _ => ?_).append ?_
  · rw [String.toList_append]
    simpa using (w.shows_drawWallLine y .north).append (w.shows_drawCellLine hp y)
  · simpa [joinRows] using w.shows_drawWallLine (Fin.last 9) .south

end

/-! ## Recovering the world -/

section

variable {w w' : World}

/-- The rows can be read from what is shown. -/
theorem rows_eq_of_drawWith_eq {p : Palette} (hp : p.Silent) (h : drawWith p w = drawWith p w') : w.rows = w'.rows := by
  have hpieces := congrArg (fun text => pieces (plain (String.toList text))) h
  rw [plain_drawWith _ hp, plain_drawWith _ hp, pieces_joinRows fun row hrow => (w.columns_of_mem_rows hrow).newline_not_mem,
    pieces_joinRows fun row hrow => (w'.columns_of_mem_rows hrow).newline_not_mem] at hpieces
  exact List.append_cancel_right hpieces

/-- Worlds with the same rows have the same columns for each cell. -/
theorem parts_eq_of_rows_eq (h : w.rows = w'.rows) (c : Cell) :
    w.wallPart .north c = w'.wallPart .north c ∧ w.cellPart c = w'.cellPart c := by
  have hrows : ∀ y, [w.wallRow y .north, w.cellRow y] = [w'.wallRow y .north, w'.cellRow y] := by
    intro y
    exact eq_of_flatMap_eq (List.append_inj_left' h rfl) (fun _ => rfl) y (List.mem_finRange y)
  have hmem : c ∈ Cell.row c.y := List.mem_map.2 ⟨c.x, List.mem_finRange c.x, rfl⟩
  obtain ⟨hwall, hcell⟩ := List.cons.inj (hrows c.y)
  constructor
  · have hparts := List.append_inj_left' hwall rfl
    exact eq_of_flatMap_eq hparts (fun d => (w.columns_wallPart _ d).length_eq (w'.columns_wallPart _ d)) c hmem
  · have hlast := (columns_drawUprightWall (w.floor.walled ⟨Fin.last 9, c.y⟩ .east)).length_eq
      (columns_drawUprightWall (w'.floor.walled ⟨Fin.last 9, c.y⟩ .east))
    have hparts := List.append_inj_left' (List.cons.inj hcell).1 hlast
    exact eq_of_flatMap_eq hparts (fun d => (w.columns_cellPart d).length_eq (w'.columns_cellPart d)) c hmem

/-- Worlds with the same rows have the same walls to the north and to the west of each cell, and the same in it. -/
theorem shown_alike (h : w.rows = w'.rows) (c : Cell) :
    w.floor.walled c .north = w'.floor.walled c .north ∧ w.floor.walled c .west = w'.floor.walled c .west ∧
      w.facing c = w'.facing c ∧ w.beepers.get c = w'.beepers.get c := by
  obtain ⟨hwall, hcell⟩ := parts_eq_of_rows_eq h c
  have hlevel := List.append_cancel_left hwall
  obtain ⟨hupright, hfigure⟩ := List.append_inj' hcell ((columns_figure _ _).length_eq (columns_figure _ _))
  obtain ⟨hfacing, hbeeper⟩ := figure_inj hfigure
  exact ⟨drawLevelWall_inj hlevel, drawUprightWall_inj hupright, hfacing, hbeeper⟩

/-- Worlds with regular floor plans are equal if they look the same. -/
theorem eq_of_rows_eq (hw : w.floor.Regular) (hw' : w'.floor.Regular) (h : w.rows = w'.rows) : w = w' := by
  have hfloor : w.floor = w'.floor :=
    hw.eq_of_north_of_west hw' (fun c => (shown_alike h c).1) (fun c => (shown_alike h c).2.1)
  have hbeepers : w.beepers = w'.beepers := Grid.ext fun c => (shown_alike h c).2.2.2
  have hrobot : w'.facing w.robot = some w.heading := by
    rw [← (shown_alike h w.robot).2.2.1, facing_eq_some_iff]
    exact ⟨rfl, rfl⟩
  obtain ⟨hcell, hheading⟩ := facing_eq_some_iff.1 hrobot
  cases w
  cases w'
  simp_all

/-- A drawing with a palette of which nothing is shown is faithful: worlds that can be reached and are drawn alike are equal. Without
its escape sequences it is a text of 21 lines with 41 characters each. -/
theorem drawWith_faithful {p : Palette} (hp : p.Silent) (hw : w.Reachable) :
    (∀ w' : World, w'.Reachable → drawWith p w = drawWith p w' → w = w') ∧
      ∃ rows, plain (drawWith p w).toList = joinRows rows ∧ rows.length = 21 ∧
        ∀ row ∈ rows, row.length = 41 ∧ '\n' ∉ row := by
  constructor
  · intro w' hw' h
    exact eq_of_rows_eq hw.regular hw'.regular (rows_eq_of_drawWith_eq hp h)
  · refine ⟨w.rows, w.plain_drawWith hp, w.length_rows, ?_⟩
    intro row hrow
    exact ⟨(w.columns_of_mem_rows hrow).length, (w.columns_of_mem_rows hrow).newline_not_mem⟩

/-- The drawing is faithful: worlds that can be reached and are drawn alike are equal. Without its escape sequences it is a text of
21 lines with 41 characters each. -/
theorem draw_faithful (hw : w.Reachable) :
    (∀ w' : World, w'.Reachable → w.draw = w'.draw → w = w') ∧
      ∃ rows, plain w.draw.toList = joinRows rows ∧ rows.length = 21 ∧
        ∀ row ∈ rows, row.length = 41 ∧ '\n' ∉ row :=
  drawWith_faithful Palette.ansi_silent hw

/-- A beeper under the robot is seen in the drawing. -/
theorem draw_faithful_of_drop :
    ∃ w : World, w.Reachable ∧ w.onBeeper = true ∧ w.draw ≠ empty.draw ∧
      ∃ rows, plain w.draw.toList = joinRows rows ∧ rows.length = 21 := by
  have hdrop : Action.drop.perform empty = .ok { empty with beepers := empty.beepers.set empty.robot true } := by
    simp [Action.perform, drop, dropInto, empty]
  have hreach := Reachable.empty.act hdrop
  obtain ⟨hfaithful, rows, hplain, hrows, -⟩ := draw_faithful hreach
  refine ⟨_, hreach, by simp [onBeeper], ?_, rows, hplain, hrows⟩
  intro hdraw
  have hbeeper := congrArg onBeeper (hfaithful empty .empty hdraw)
  simp [onBeeper, empty] at hbeeper

end

end World

end GridRobot

import GridRobot.Proofs.World.LevelMeaning
import Mathlib.Data.List.FinRange

/-!
# Writing and reading level texts

The written form of a world is ten rows of cells and the line that places the robot. Every one of these lines spells what it was
written for, so it is read as that; and the walls that the cells name, each of them on both sides, build the floor plan they were
taken from if this one is regular. So a world that can be reached is read back as it was written (`parse_write`).
-/

namespace GridRobot

open Text

/-- The name of a heading is in lower case. -/
theorem Heading.toLower_name (h : Heading) : h.name.toLower = h.name := toLower_eq_iff.2 (by cases h <;> decide)

theorem Heading.solid_name (h : Heading) : Solid h.name.toList := by
  cases h <;> exact Solid.of_all (by decide)

namespace Level

/-! ## Cells -/

/-- What a row says about a cell of a world. -/
def cellText (w : World) (c : Cell) : CellText := ⟨(w.floor.walls.get c).toBits, w.beepers.get c⟩

/-- A cell is written as the number of its walls, with a star behind it if there is a beeper. -/
theorem toList_writeCell (w : World) (c : Cell) :
    (writeCell w c).toList =
      Nat.digitChar (w.floor.walls.get c).toBits :: if w.beepers.get c then ['*'] else [] := by
  have hbits := Walls.toBits_lt (w.floor.walls.get c)
  rw [writeCell, String.toList_append, toList_hex Nat.one_pos hbits, hexDigits, hexDigits, Nat.mod_eq_of_lt hbits]
  cases w.beepers.get c <;> rfl

/-- There is no white space in what is written for a cell. -/
theorem solid_writeCell (w : World) (c : Cell) : Solid (writeCell w c).toList := by
  have hdigit : ∀ d < 16, isBlank (Nat.digitChar d) = false := by decide
  rw [toList_writeCell]
  apply Solid.of_all
  cases w.beepers.get c <;> simp [hdigit _ (Walls.toBits_lt _), show isBlank '*' = false from rfl]

/-- A cell is spelled as it is written. -/
theorem spellsCell_writeCell (w : World) (c : Cell) : SpellsCell (writeCell w c).toList (cellText w c) := by
  have hdigit : SpellsDigit (Nat.digitChar (w.floor.walls.get c).toBits) (w.floor.walls.get c).toBits :=
    ⟨Walls.toBits_lt _, .inl rfl⟩
  rw [toList_writeCell, cellText]
  cases w.beepers.get c with
  | false => exact .plain hdigit
  | true => exact .starred hdigit

/-! ## Rows -/

/-- The words of a row. -/
def rowWords (w : World) (y : Fin height) : List (List Char) := (Cell.row y).map fun c => (writeCell w c).toList

/-- The line of a row, without its newline. -/
def rowLine (w : World) (y : Fin height) : List Char := [' '].intercalate (rowWords w y)

/-- The row of a world. -/
def rowOf (w : World) (y : Fin height) : Row := Vector.ofFn fun x => cellText w ⟨x, y⟩

/-- There is no white space in the words of a row. -/
theorem solid_of_mem_rowWords {w : World} {y : Fin height} : ∀ v ∈ rowWords w y, Solid v := by
  intro v hv
  obtain ⟨c, -, rfl⟩ := List.mem_map.1 hv
  exact solid_writeCell w c

/-- The first word of a row is that of its first cell. -/
theorem rowWords_eq_cons (w : World) (y : Fin height) : ∃ ws, rowWords w y = (writeCell w ⟨0, y⟩).toList :: ws := by
  simp [rowWords, Cell.row, List.finRange_succ]

/-- The first character of a row is a digit: neither that of a comment nor that of the robot's line. -/
theorem rowLine_eq_cons (w : World) (y : Fin height) : ∃ c rest, rowLine w y = c :: rest ∧ c ≠ '#' ∧ c ≠ 'r' := by
  have hdigit : ∀ d < 16, Nat.digitChar d ≠ '#' ∧ Nat.digitChar d ≠ 'r' := by decide
  have hbits := hdigit _ (Walls.toBits_lt (w.floor.walls.get ⟨0, y⟩))
  obtain ⟨ws, hws⟩ := rowWords_eq_cons w y
  rw [rowLine, hws]
  cases ws with
  | nil =>
    rw [List.intercalate_singleton, toList_writeCell]
    exact ⟨_, _, rfl, hbits⟩
  | cons v ws =>
    rw [List.intercalate_cons_cons, toList_writeCell, List.cons_append, List.cons_append]
    exact ⟨_, _, rfl, hbits⟩

/-- The line of a row begins and ends with a word. -/
theorem tight_rowLine (w : World) (y : Fin height) : Tight (rowLine w y) := by
  obtain ⟨ws, hws⟩ := rowWords_eq_cons w y
  rw [rowLine, hws]
  exact .intercalate (hws ▸ solid_of_mem_rowWords)

theorem trim_rowLine (w : World) (y : Fin height) : trim (rowLine w y) = rowLine w y := (tight_rowLine w y).trim_eq

/-- The line of a row is read as one: it is not blank and does not begin as that of a robot. -/
theorem aboutRow_rowLine (w : World) (y : Fin height) : AboutRow (rowLine w y) := by
  obtain ⟨c, rest, hline, hcomment, hrobot⟩ := rowLine_eq_cons w y
  rw [AboutRow, Silent, AboutRobot, trim_rowLine, hline]
  simp [hcomment.symm, hrobot.symm]

/-- A row is spelled as it is written. -/
theorem spellsRow_rowLine (w : World) (y : Fin height) : SpellsRow (rowLine w y) (rowOf w y) := by
  have hrow : (rowOf w y).toList = (Cell.row y).map (cellText w) := by
    rw [rowOf, Vector.toList_ofFn, Cell.row, List.map_map]
    exact List.ofFn_eq_map
  rw [SpellsRow, wordsOf, trim_rowLine, rowLine, map_text_words_intercalate solid_of_mem_rowWords, rowWords, hrow,
    List.forall₂_map_left_iff, List.forall₂_map_right_iff]
  exact List.forall₂_same.2 fun c _ => spellsCell_writeCell w c

/-! ## The line of the robot -/

/-- The words of the line that places the robot. -/
def poseWords (w : World) : List (List Char) :=
  ["robot".toList, (toString w.robot.x.val).toList, (toString w.robot.y.val).toList, w.heading.name.toList]

/-- The line that places the robot, without its newline. -/
def poseLine (w : World) : List Char := [' '].intercalate (poseWords w)

/-- There is no white space in a number below ten. -/
theorem solid_toString : ∀ n < 10, Solid (toString n).toList := by
  intro n hn
  apply Solid.of_all
  revert n
  decide

/-- A number below ten is spelled by its one digit. -/
theorem spellsUnsigned_toString : ∀ n < 10, SpellsUnsigned (toString n).toList n := by
  intro n hn
  apply unsigned?_eq_some_iff.1
  revert n
  decide

/-- There is no white space in the words of a pose. -/
theorem solid_of_mem_poseWords {w : World} : ∀ v ∈ poseWords w, Solid v := by
  have hrobot : Solid "robot".toList := Solid.of_all (by decide)
  simp only [poseWords, List.forall_mem_cons]
  exact ⟨hrobot, solid_toString _ w.robot.x.isLt, solid_toString _ w.robot.y.isLt, w.heading.solid_name, nofun⟩

theorem tight_poseLine (w : World) : Tight (poseLine w) := .intercalate solid_of_mem_poseWords

/-- The line of a pose is read as that of a robot. -/
theorem aboutRobot_poseLine (w : World) : AboutRobot (poseLine w) := by
  rw [AboutRobot, (tight_poseLine w).trim_eq, poseLine, poseWords, List.intercalate_cons_cons, List.append_assoc]
  exact List.prefix_append _ _

/-- The place of the robot is spelled as it is written. -/
theorem spellsPose_poseLine (w : World) : SpellsPose (wordsOf (poseLine w)) ⟨w.robot, w.heading⟩ := by
  rw [wordsOf, (tight_poseLine w).trim_eq, poseLine, map_text_words_intercalate solid_of_mem_poseWords, poseWords]
  refine .mk (spellsUnsigned_toString _ w.robot.x.isLt) (spellsUnsigned_toString _ w.robot.y.isLt) ?_
  rw [String.ofList_toList, Heading.toLower_name]

/-! ## The text -/

/-- A row is written as its line, with a newline behind it. -/
theorem toList_writeRow (w : World) (y : Fin height) : (writeRow w y).toList = rowLine w y ++ ['\n'] := by
  rw [writeRow, String.toList_append, String.toList_intercalate, List.map_map]
  rfl

/-- A pose is written as its line, with a newline behind it. -/
theorem toList_writePose (w : World) : (writePose w).toList = poseLine w ++ ['\n'] := by
  simp [writePose, poseLine, poseWords, List.intercalate_cons_cons, show toString "robot " = "robot " from rfl,
    show toString " " = " " from rfl]

/-- A world is written as the lines of its rows and that of its pose, each with a newline behind it. -/
theorem toList_write (w : World) : (write w).toList = joinRows ((List.finRange height).map (rowLine w) ++ [poseLine w]) := by
  simp only [write, String.toList_append, String.toList_join, toList_writePose, joinRows, List.flatMap_append,
    List.flatMap_map, toList_writeRow, List.flatMap_singleton]

/-- The lines of a level text are the rows and the line of the robot. -/
theorem lines_write (w : World) : lines (write w).toList = (List.finRange height).map (rowLine w) ++ [poseLine w] := by
  rw [toList_write, lines_joinRows]
  simp only [List.mem_append, List.mem_map, List.mem_singleton]
  rintro line (⟨y, -, rfl⟩ | rfl)
  · exact ⟨tight_rowLine w y, not_newline_intercalate solid_of_mem_rowWords⟩
  · exact ⟨tight_poseLine w, not_newline_intercalate solid_of_mem_poseWords⟩

/-! ## Reading the lines -/

/-- The line of a row is read as the row, if rows are missing. -/
theorem read_rowLine {w : World} {d : Draft} (y : Fin height) (h : d.rows.length < height) :
    d.read (rowLine w y) = .ok { d with rows := d.rows ++ [rowOf w y] } := by
  rw [read_row (aboutRow_rowLine w y), if_neg (Nat.ne_of_lt h), readRow_eq_ok_iff.2 (spellsRow_rowLine w y)]
  rfl

/-- The line of a pose is read as the pose. -/
theorem read_poseLine (w : World) (d : Draft) : d.read (poseLine w) = .ok { d with pose := ⟨w.robot, w.heading⟩ } := by
  rw [read_robot (aboutRobot_poseLine w), readPose_eq_ok_iff.2 (spellsPose_poseLine w)]
  rfl

/-- Lines are read one after the other. -/
theorem readAll_cons {d d' : Draft} {line : List Char} (h : d.read line = .ok d') (number : Nat)
    (rest : List (List Char)) : d.readAll number (line :: rest) = d'.readAll (number + 1) rest := by
  rw [Draft.readAll, h]

/-- Rows are read one after the other, as long as the floor has as many. -/
theorem readAll_rows {w : World} {ys : List (Fin height)} {d : Draft} {number : Nat} (rest : List (List Char))
    (h : d.rows.length + ys.length ≤ height) :
    d.readAll number (ys.map (rowLine w) ++ rest) =
      Draft.readAll { d with rows := d.rows ++ ys.map (rowOf w) } (number + ys.length) rest := by
  induction ys generalizing d number with
  | nil => simp
  | cons y ys ih =>
    rw [List.length_cons] at h
    -- a row that is taken in moves from the rows to come to those of the draft, so the bound stays
    have hroom : (d.rows ++ [rowOf w y]).length + ys.length ≤ height := by
      rw [List.length_append, List.length_singleton]
      omega
    rw [List.map_cons, List.cons_append, readAll_cons (read_rowLine y (by omega)), ih hroom]
    simp [Nat.add_assoc, Nat.add_comm 1]

/-- The lines of a level text say the rows of the world and where the robot is. -/
theorem readAll_write (w : World) :
    Draft.blank.readAll 1 (lines (write w).toList) =
      .ok ⟨(List.finRange height).map (rowOf w), ⟨w.robot, w.heading⟩⟩ := by
  rw [lines_write, readAll_rows _ (by simp [Draft.blank]), readAll_cons (read_poseLine w _)]
  rfl

/-! ## Worlds that are read back -/

/-- A regular floor plan is built again from the walls of its cells. -/
theorem floorOf_cellText {w : World} (h : w.floor.Regular) : floorOf (Grid.ofFn (cellText w)) = w.floor := by
  rw [floorOf_eq_buildAll]
  apply h.eq_buildAll
  intro c k
  rw [mem_sidesOf, Grid.get_ofFn, cellText, Walls.inBits_toBits]
  exact Iff.rfl

/-- The rows of a world and its pose make it up again. -/
theorem finish_rows {w : World} (h : w.floor.Regular) :
    Draft.finish ⟨(List.finRange height).map (rowOf w), ⟨w.robot, w.heading⟩⟩ = .ok w := by
  have hlength : ((List.finRange height).map (rowOf w)).length = height := by simp
  have hcells : Grid.ofFn (fun c => (((List.finRange height).map (rowOf w)).get (c.y.cast hlength.symm))[c.x]) =
      Grid.ofFn (cellText w) := by
    congr 1
    funext c
    simp [rowOf]
  have hbeepers : Grid.ofFn (fun c => ((Grid.ofFn (cellText w)).get c).beeper) = w.beepers := by
    ext c
    simp [cellText]
  rw [Draft.finish, dif_pos hlength]
  simp only [hcells, floorOf_cellText h, hbeepers]

/-- A world is read back as it was written exactly if its floor plan is regular. -/
theorem parse_write_iff {w : World} : parse (write w) = .ok w ↔ w.floor.Regular := by
  constructor
  · intro h
    exact (World.Reachable.parse h).regular
  · intro h
    rw [parse, readAll_write]
    exact finish_rows h

/-- A world that can be reached is read back as it was written: with all its walls and beepers, and with the robot where it was. -/
theorem parse_write {w : World} (h : w.Reachable) : parse (write w) = .ok w := parse_write_iff.2 h.regular

/-- A wall inside, a beeper beside it and a robot that has turned. -/
theorem parse_write_of_wall :
    ∃ w : World, w.Reachable ∧ w.floor.walled ⟨3, 4⟩ .east = true ∧ w.beepers.get ⟨4, 4⟩ = true ∧ w.heading = .north ∧
      parse (write w) = .ok w := by
  have hbuilt : (FloorPlan.empty.build ⟨3, 4⟩ .east).Built := ⟨[.wall 3 4 .east], rfl⟩
  obtain ⟨w, hdrop⟩ : ∃ w, (World.empty.withFloor (FloorPlan.empty.build ⟨3, 4⟩ .east)).dropAt 4 4 = .ok w := ⟨_, rfl⟩
  have hreach : w.turnLeft.Reachable := ((World.Reachable.empty.withFloor hbuilt).dropAt hdrop).act (a := .turnLeft) rfl
  obtain rfl := Except.ok.inj hdrop
  refine ⟨_, hreach, ?_, ?_, rfl, parse_write hreach⟩
  · exact FloorPlan.walled_build.2 (.inr (.inl rfl))
  · exact (Grid.get_set _ _ ⟨4, 4⟩ true).trans (if_pos rfl)

end Level

/-- The worlds that can be reached are those on a regular floor plan: each of these is read from its level text. -/
theorem World.reachable_iff {w : World} : w.Reachable ↔ w.floor.Regular :=
  ⟨Reachable.regular, fun h => .parse (Level.parse_write_iff.2 h)⟩

end GridRobot

import GridRobot.Proofs.World.LevelLines
import Mathlib.Data.List.Forall2

/-!
# The meaning of level texts

A level text is well written if ten of its lines spell rows and the others place the robot on the floor or say nothing. It then says
one world: the walls are the border, those that the cells name, and those that their neighbours name from the other side; the
beepers are the stars; and the last line about the robot says where it starts. Any other text is refused for the first line that
breaks a rule, or for rows that are missing (`parse_meaning`).
-/

namespace GridRobot

open Text

namespace Level

/-! ## Cells and rows -/

/-- A word spells what a row says about a cell: one hexadecimal digit in either case, and at most one star behind it. -/
inductive SpellsCell : List Char → CellText → Prop
  | plain {digit : Char} {bits : Nat} (h : SpellsDigit digit bits) : SpellsCell [digit] ⟨bits, false⟩
  | starred {digit : Char} {bits : Nat} (h : SpellsDigit digit bits) : SpellsCell [digit, '*'] ⟨bits, true⟩

/-- A line spells a row: it has a word for each column. -/
def SpellsRow (line : List Char) (row : Row) : Prop := List.Forall₂ SpellsCell (wordsOf line) row.toList

/-- What is wrong with words that are no row: their number, or else the first that is no cell. -/
inductive RefusesRow (ws : List (List Char)) : LevelProblem → Prop
  | count (hcount : ws.length ≠ width) : RefusesRow ws .wrongCellCount
  | cell {before : List (List Char)} {word : List Char} {after : List (List Char)} (hcount : ws.length = width)
      (hws : ws = before ++ word :: after) (hbefore : ∀ v ∈ before, ∃ c, SpellsCell v c) (hword : ∀ c, ¬ SpellsCell word c) :
      RefusesRow ws (.badCell (String.ofList word))

/-- A word is read as a cell exactly where it spells one. -/
theorem ofWord?_eq_some_iff {w : List Char} {c : CellText} : CellText.ofWord? w = some c ↔ SpellsCell w c := by
  constructor
  · intro h
    unfold CellText.ofWord? at h
    split at h
    · obtain ⟨bits, hbits, rfl⟩ := Option.map_eq_some_iff.1 h
      exact .plain (hexValue?_eq_some_iff.1 hbits)
    · obtain ⟨bits, hbits, rfl⟩ := Option.map_eq_some_iff.1 h
      exact .starred (hexValue?_eq_some_iff.1 hbits)
    · nomatch h
  · rintro (h | h) <;> simp [CellText.ofWord?, hexValue?_eq_some_iff.2 h]

/-- A word is refused exactly if it spells no cell. -/
theorem ofWord?_eq_none_iff {w : List Char} : CellText.ofWord? w = none ↔ ∀ c, ¬ SpellsCell w c := by
  simp only [Option.eq_none_iff_forall_ne_some, ne_eq, ofWord?_eq_some_iff]

theorem readCells_cons (w : Word) (ws : List Word) :
    readCells (w :: ws) = match CellText.ofWord? w.text with
      | some c => (readCells ws).map (c :: ·)
      | none => .error (.badCell w.toString) := by
  rw [readCells]
  cases CellText.ofWord? w.text with
  | none => rfl
  | some c => cases readCells ws <;> rfl

/-- Words are read as cells exactly if each of them spells one. -/
theorem readCells_eq_ok_iff {ws : List Word} {cells : List CellText} :
    readCells ws = .ok cells ↔ List.Forall₂ SpellsCell (ws.map Word.text) cells := by
  induction ws generalizing cells with
  | nil => simp [readCells, List.forall₂_nil_left_iff, eq_comm]
  | cons w ws ih =>
    rw [readCells_cons, List.map_cons, List.forall₂_cons_left_iff]
    cases hw : CellText.ofWord? w.text with
    | none =>
      have hnone := ofWord?_eq_none_iff.1 hw
      simp [hnone]
    | some c =>
      have hc : ∀ c', SpellsCell w.text c' ↔ c' = c := by
        intro c'
        rw [← ofWord?_eq_some_iff, hw, Option.some_inj, eq_comm]
      simp only [map_eq_ok, ih, hc]
      constructor
      · rintro ⟨cells, hcells, rfl⟩
        exact ⟨c, cells, rfl, hcells, rfl⟩
      · rintro ⟨_, cells, rfl, hcells, rfl⟩
        exact ⟨cells, hcells, rfl⟩

/-- Cells are refused for the first word that is none. -/
theorem readCells_eq_error_iff {ws : List Word} {problem : LevelProblem} :
    readCells ws = .error problem ↔ ∃ before w after, ws = before ++ w :: after ∧
      (∀ v ∈ before, ∃ c, SpellsCell v.text c) ∧ (∀ c, ¬ SpellsCell w.text c) ∧ problem = .badCell w.toString := by
  induction ws with
  | nil => simp [readCells]
  | cons w ws ih =>
    rw [readCells_cons]
    cases hw : CellText.ofWord? w.text with
    | none =>
      constructor
      · intro h
        exact ⟨[], w, ws, rfl, List.forall_mem_nil _, ofWord?_eq_none_iff.1 hw, (Except.error.inj h).symm⟩
      · rintro ⟨_ | ⟨v, before⟩, u, after, hws, hbefore, -, rfl⟩
        · obtain ⟨rfl, rfl⟩ := List.cons.inj hws
          rfl
        · obtain ⟨rfl, rfl⟩ := List.cons.inj hws
          obtain ⟨c, hc⟩ := hbefore w List.mem_cons_self
          exact absurd hc (ofWord?_eq_none_iff.1 hw c)
    | some c =>
      have hc := ofWord?_eq_some_iff.1 hw
      simp only [map_eq_error, ih]
      constructor
      · rintro ⟨before, u, after, rfl, hbefore, hu, rfl⟩
        exact ⟨w :: before, u, after, rfl, List.forall_mem_cons.2 ⟨⟨c, hc⟩, hbefore⟩, hu, rfl⟩
      · rintro ⟨_ | ⟨v, before⟩, u, after, hws, hbefore, hu, rfl⟩
        · obtain ⟨rfl, rfl⟩ := List.cons.inj hws
          exact absurd hc (hu c)
        · obtain ⟨rfl, rfl⟩ := List.cons.inj hws
          exact ⟨before, u, after, rfl, (List.forall_mem_cons.1 hbefore).2, hu, rfl⟩

/-- Reading a row is reading its cells, if there are as many words as columns. -/
theorem map_toList_readRow (line : List Char) :
    (readRow line).map Vector.toList =
      if (words line 0).length = width then readCells (words line 0) else .error .wrongCellCount := by
  unfold readRow
  dsimp only
  split
  · split
    · rename_i cells hcells
      exact hcells.symm
    · rename_i e he
      exact he.symm
  · rfl

/-- A line is read as a row exactly if its words spell the ten cells. -/
theorem readRow_eq_ok_iff {line : List Char} {row : Row} :
    readRow line = .ok row ↔ List.Forall₂ SpellsCell ((words line 0).map Word.text) row.toList := by
  have htoList : readRow line = .ok row ↔ (readRow line).map Vector.toList = .ok row.toList := by
    simp [map_eq_ok, Vector.toList_inj]
  rw [htoList, map_toList_readRow]
  split
  · exact readCells_eq_ok_iff
  · rename_i hcount
    refine iff_of_false nofun ?_
    intro hcells
    exact hcount (by simpa using hcells.length_eq)

/-- A row is refused for the number of its words, or else for the first of them that is no cell. -/
theorem readRow_eq_error_iff {line : List Char} {problem : LevelProblem} :
    readRow line = .error problem ↔ RefusesRow ((words line 0).map Word.text) problem := by
  have hlength : ((words line 0).map Word.text).length = (words line 0).length := List.length_map _
  rw [← map_eq_error (f := Vector.toList), map_toList_readRow]
  split
  · rename_i hcount
    rw [readCells_eq_error_iff]
    constructor
    · rintro ⟨before, w, after, hws, hbefore, hw, rfl⟩
      have htexts : (words line 0).map Word.text = before.map Word.text ++ w.text :: after.map Word.text := by simp [hws]
      exact .cell (hlength.trans hcount) htexts (List.forall_mem_map.2 hbefore) hw
    · rintro (hne | ⟨-, hws, hbefore, hword⟩)
      · exact absurd (hlength.trans hcount) hne
      · obtain ⟨before, _, hwords, rfl, hafter⟩ := List.map_eq_append_iff.1 hws
        obtain ⟨w, after, rfl, rfl, -⟩ := List.map_eq_cons_iff.1 hafter
        exact ⟨before, w, after, hwords, fun v hv => hbefore _ (List.mem_map_of_mem hv), hword, rfl⟩
  · rename_i hcount
    constructor
    · intro h
      exact Except.error.inj h ▸ .count (mt hlength.symm.trans hcount)
    · rintro (_ | ⟨hw, -⟩)
      · rfl
      · exact absurd (hlength.symm.trans hw) hcount

/-! ## Lines of a text -/

/-- The lines of a text that are rows. -/
def rowLines (ls : List (List Char)) : List (List Char) := ls.filter (AboutRow ·)

/-- The lines of a text that are about the robot. -/
def robotLines (ls : List (List Char)) : List (List Char) := ls.filter (AboutRobot ·)

/-- What is wrong with a line that so many rows stand in front of. -/
inductive RefusesLine (rows : Nat) (line : List Char) : LevelProblem → Prop
  | robot {problem : LevelProblem} (hrobot : AboutRobot line) (hpose : RefusesPlace (wordsOf line) problem) :
      RefusesLine rows line problem
  | surplus (hrow : AboutRow line) (hrows : rows = height) : RefusesLine rows line .tooManyRows
  | row {problem : LevelProblem} (hrow : AboutRow line) (hrows : rows ≠ height)
      (hcells : RefusesRow (wordsOf line) problem) : RefusesLine rows line problem

/-- Every line is silent, about the robot, or about a row. -/
theorem kind_cases (line : List Char) : Silent line ∨ AboutRobot line ∨ AboutRow line := by
  by_cases hs : Silent line
  · exact .inl hs
  · by_cases hr : AboutRobot line
    · exact .inr (.inl hr)
    · exact .inr (.inr ⟨hs, hr⟩)

/-- A draft refuses a line for what is wrong with it behind the rows that the draft has. -/
theorem read_eq_error_iff {d : Draft} {line : List Char} {problem : LevelProblem} :
    d.read line = .error problem ↔ RefusesLine d.rows.length line problem := by
  rcases kind_cases line with hsilent | hrobot | hrow
  · rw [read_silent hsilent]
    refine iff_of_false nofun ?_
    rintro (⟨hrobot, -⟩ | ⟨hrow, -⟩ | ⟨hrow, -⟩)
    · exact hrobot.not_silent hsilent
    · exact hrow.1 hsilent
    · exact hrow.1 hsilent
  · rw [read_robot hrobot, map_eq_error, readPose_eq_error_iff]
    constructor
    · exact .robot hrobot
    · rintro (⟨-, hpose⟩ | ⟨hrow, -⟩ | ⟨hrow, -⟩)
      · exact hpose
      · exact absurd hrobot hrow.2
      · exact absurd hrobot hrow.2
  · rw [read_row hrow]
    split
    · rename_i hrows
      constructor
      · intro h
        exact Except.error.inj h ▸ .surplus hrow hrows
      · rintro (⟨hrobot, -⟩ | _ | ⟨-, hne, -⟩)
        · exact absurd hrobot hrow.2
        · rfl
        · exact absurd hrows hne
    · rename_i hrows
      rw [map_eq_error, readRow_eq_error_iff]
      constructor
      · exact .row hrow hrows
      · rintro (⟨hrobot, -⟩ | ⟨-, heq⟩ | ⟨-, -, hcells⟩)
        · exact absurd hrobot hrow.2
        · exact absurd heq hrows
        · exact hcells

/-- No line breaks a rule behind the rows in front of it. -/
def Fine (ls : List (List Char)) : Prop :=
  ∀ before line after, ls = before ++ line :: after → ∀ problem, ¬ RefusesLine (rowLines before).length line problem

/-- Where the lines place the robot: the last one that does counts. -/
def SpellsStart (ls : List (List Char)) (pose : Pose) : Prop :=
  match (robotLines ls).getLast? with
  | none => pose = ⟨Cell.origin, .east⟩
  | some line => SpellsPose (wordsOf line) pose

/-- A draft holds what lines say. -/
structure Draft.Tells (d : Draft) (ls : List (List Char)) : Prop where
  rows : List.Forall₂ SpellsRow (rowLines ls) d.rows
  room : d.rows.length ≤ height
  robots : ∀ line ∈ robotLines ls, ∃ pose, SpellsPose (wordsOf line) pose
  start : SpellsStart ls d.pose

section

variable {ls : List (List Char)} {line : List Char}

theorem rowLines_concat (ls : List (List Char)) (line : List Char) :
    rowLines (ls ++ [line]) = if AboutRow line then rowLines ls ++ [line] else rowLines ls := by
  by_cases h : AboutRow line <;> simp [rowLines, h]

theorem robotLines_concat (ls : List (List Char)) (line : List Char) :
    robotLines (ls ++ [line]) = if AboutRobot line then robotLines ls ++ [line] else robotLines ls := by
  by_cases h : AboutRobot line <;> simp [robotLines, h]

theorem spellsStart_concat (ls : List (List Char)) (line : List Char) (pose : Pose) :
    SpellsStart (ls ++ [line]) pose ↔ if AboutRobot line then SpellsPose (wordsOf line) pose else SpellsStart ls pose := by
  by_cases h : AboutRobot line <;> simp [SpellsStart, robotLines_concat, h]

theorem Draft.Tells.blank : Draft.blank.Tells [] := ⟨.nil, by decide, nofun, rfl⟩

/-- A draft that takes in a line holds what this line says, too. -/
theorem Draft.Tells.concat {d d' : Draft} (h : d.Tells ls) (hread : d.read line = .ok d') : d'.Tells (ls ++ [line]) := by
  have hrows := rowLines_concat ls line
  have hrobots := robotLines_concat ls line
  rcases kind_cases line with hsilent | hrobot | hrow
  · obtain rfl : d = d' := Except.ok.inj ((read_silent hsilent).symm.trans hread)
    have hrobot : ¬ AboutRobot line := fun hrobot => hrobot.not_silent hsilent
    rw [if_neg fun hrow => hrow.1 hsilent] at hrows
    rw [if_neg hrobot] at hrobots
    exact ⟨hrows ▸ h.rows, h.room, hrobots ▸ h.robots, (spellsStart_concat ..).2 ((if_neg hrobot).symm ▸ h.start)⟩
  · rw [read_robot hrobot, map_eq_ok] at hread
    obtain ⟨pose, hpose, rfl⟩ := hread
    rw [readPose_eq_ok_iff] at hpose
    rw [if_neg fun hrow => hrow.2 hrobot] at hrows
    rw [if_pos hrobot] at hrobots
    refine ⟨hrows ▸ h.rows, h.room, ?_, (spellsStart_concat ..).2 ((if_pos hrobot).symm ▸ hpose)⟩
    rw [hrobots, List.forall_mem_append, List.forall_mem_singleton]
    exact ⟨h.robots, pose, hpose⟩
  · rw [read_row hrow] at hread
    split at hread
    · nomatch hread
    · rename_i hroom
      obtain ⟨row, hcells, rfl⟩ := map_eq_ok.1 hread
      rw [readRow_eq_ok_iff] at hcells
      rw [if_pos hrow] at hrows
      rw [if_neg hrow.2] at hrobots
      refine ⟨?_, ?_, hrobots ▸ h.robots, (spellsStart_concat ..).2 ((if_neg hrow.2).symm ▸ h.start)⟩
      · rw [hrows]
        exact List.rel_append h.rows (.cons hcells .nil)
      · rw [List.length_append, List.length_singleton]
        exact Nat.lt_of_le_of_ne h.room hroom

end

/-! ## Drafts of texts -/

section

variable {ls : List (List Char)} {d : Draft}

/-- What has been read is told. -/
theorem Draft.Tells.readAll {before : List (List Char)} {d' : Draft} (h : d.Tells before) {number : Nat}
    (hread : d.readAll number ls = .ok d') : d'.Tells (before ++ ls) := by
  induction ls generalizing d before number with
  | nil =>
    obtain rfl := Except.ok.inj hread
    rwa [List.append_nil]
  | cons line ls ih =>
    rw [Draft.readAll] at hread
    cases hline : d.read line with
    | error problem => simp [hline] at hread
    | ok next =>
      rw [hline] at hread
      rw [List.append_cons]
      exact ih (h.concat hline) hread

/-- Lines that are read tell what is in the draft. -/
theorem tells_of_readAll (h : Draft.blank.readAll 1 ls = .ok d) : d.Tells ls := Draft.Tells.blank.readAll h

/-- Behind lines that can be read, a line is refused for what is wrong with it behind their rows. -/
theorem read_eq_error_iff_of_readAll (h : Draft.blank.readAll 1 ls = .ok d) {line : List Char} {problem : LevelProblem} :
    d.read line = .error problem ↔ RefusesLine (rowLines ls).length line problem := by
  rw [(tells_of_readAll h).rows.length_eq, read_eq_error_iff]

/-- Lines can be read exactly if each of them is fine. -/
theorem exists_readAll_iff : (∃ d, Draft.blank.readAll 1 ls = .ok d) ↔ Fine ls := by
  constructor
  · rintro ⟨d, h⟩ before line after rfl problem hbad
    rw [readAll_append, bind_eq_ok] at h
    obtain ⟨d', hbefore, hrest⟩ := h
    rw [Draft.readAll, (read_eq_error_iff_of_readAll hbefore).2 hbad] at hrest
    cases hrest
  · intro hfine
    cases h : Draft.blank.readAll 1 ls with
    | ok d => exact ⟨d, rfl⟩
    | error e =>
      obtain ⟨before, line, after, d', problem, rfl, hbefore, hbad, -⟩ := exists_of_readAll_error h
      exact absurd ((read_eq_error_iff_of_readAll hbefore).1 hbad) (hfine before line after rfl problem)

end

/-! ## What a text says -/

/-- The text is a level text with these rows: it has ten lines that spell them, and its other lines are silent or place the robot. -/
structure WellWritten (ls : List (List Char)) (rows : Vector Row height) : Prop where
  rows : List.Forall₂ SpellsRow (rowLines ls) rows.toList
  robots : ∀ line ∈ robotLines ls, ∃ pose, SpellsPose (wordsOf line) pose

/-- What rows say about a cell. -/
def cellIn (rows : Vector Row height) (c : Cell) : CellText := rows[c.y][c.x]

/-- The world that a text with these rows says. -/
structure Meaning (ls : List (List Char)) (rows : Vector Row height) (w : World) : Prop where
  walls : ∀ c k, w.floor.walled c k = true ↔
    c.OnEdge k ∨ (cellIn rows c).bits &&& k.weight ≠ 0 ∨ ∃ d, c.Beside k d ∧ (cellIn rows d).bits &&& k.around.weight ≠ 0
  beepers : ∀ c, w.beepers.get c = (cellIn rows c).beeper
  start : SpellsStart ls ⟨w.robot, w.heading⟩

/-- Why a text says no world: for a line behind lines that are fine, or for rows that are missing. -/
inductive RefusesText (ls : List (List Char)) : LevelError → Prop
  | line {before : List (List Char)} {line : List Char} {after : List (List Char)} {problem : LevelProblem}
      (hls : ls = before ++ line :: after) (hbefore : Fine before)
      (hline : RefusesLine (rowLines before).length line problem) : RefusesText ls ⟨before.length + 1, problem⟩
  | rows (hfine : Fine ls) (hrows : (rowLines ls).length < height) : RefusesText ls ⟨0, .tooFewRows⟩

section

variable {text : String} {ls : List (List Char)} {rows : Vector Row height} {w : World}

/-- Lines that are well written are fine. -/
theorem WellWritten.fine (h : WellWritten ls rows) : Fine ls := by
  rintro before line after rfl problem (⟨hrobot, hrefused⟩ | ⟨hrow, hsurplus⟩ | ⟨hrow, -, hrefused⟩)
  · obtain ⟨pose, hpose⟩ := h.robots line (by simp [robotLines, hrobot])
    nomatch (readPose_eq_ok_iff.2 hpose).symm.trans (readPose_eq_error_iff.2 hrefused)
  · have hcount := h.rows.length_eq
    simp only [rowLines, List.filter_append, List.filter_cons, hrow, decide_true, if_true, List.length_append,
      List.length_cons, Vector.length_toList] at hcount hsurplus
    omega
  · have hrows : List.Forall₂ (fun line row => (∃ row, SpellsRow line row) ∧ SpellsRow line row) _ _ :=
      h.rows.imp fun line row hcells => ⟨⟨row, hcells⟩, hcells⟩
    obtain ⟨row, hcells⟩ := ((List.forall₂_and_left _ _).1 hrows).1 line (by simp [rowLines, hrow])
    nomatch (readRow_eq_ok_iff.2 hcells).symm.trans (readRow_eq_error_iff.2 hrefused)

/-- A text is refused for exactly one reason, which its lines give. -/
theorem parse_eq_error_iff {e : LevelError} : parse text = .error e ↔ RefusesText (lines text.toList) e := by
  constructor
  · intro h
    rcases bind_eq_error.1 h with h | ⟨d, hd, h⟩
    · obtain ⟨before, line, after, d, problem, hls, hbefore, hbad, rfl⟩ := exists_of_readAll_error h
      rw [Nat.add_comm]
      exact .line hls (exists_readAll_iff.1 ⟨d, hbefore⟩) ((read_eq_error_iff_of_readAll hbefore).1 hbad)
    · obtain ⟨hrows, rfl⟩ := finish_eq_error_iff.1 h
      have htells := tells_of_readAll hd
      refine .rows (exists_readAll_iff.1 ⟨d, hd⟩) ?_
      rw [htells.rows.length_eq]
      exact Nat.lt_of_le_of_ne htells.room hrows
  · rintro (⟨hls, hbefore, hline⟩ | ⟨hfine, hrows⟩)
    · obtain ⟨d, hd⟩ := exists_readAll_iff.2 hbefore
      rwa [parse_eq_error_of_lines hls hd, read_eq_error_iff_of_readAll hd]
    · obtain ⟨d, hd⟩ := exists_readAll_iff.2 hfine
      rw [(tells_of_readAll hd).rows.length_eq] at hrows
      exact bind_eq_error.2 (.inr ⟨d, hd, finish_eq_error_iff.2 ⟨Nat.ne_of_lt hrows, rfl⟩⟩)

/-- Words spell one row at most. -/
theorem SpellsRow.unique : Relator.RightUnique SpellsRow := by
  intro line row row' h h'
  exact Except.ok.inj ((readRow_eq_ok_iff.2 h).symm.trans (readRow_eq_ok_iff.2 h'))

/-- Lines spell one pose at most. -/
theorem SpellsStart.unique {pose pose' : Pose} (h : SpellsStart ls pose) (h' : SpellsStart ls pose') : pose = pose' := by
  unfold SpellsStart at h h'
  cases hlast : (robotLines ls).getLast? with
  | none =>
    rw [hlast] at h h'
    exact h.trans h'.symm
  | some line =>
    rw [hlast] at h h'
    exact Except.ok.inj ((readPose_eq_ok_iff.2 h).symm.trans (readPose_eq_ok_iff.2 h'))

/-- A text with its rows says one world. -/
theorem Meaning.unique {w' : World} (h : Meaning ls rows w) (h' : Meaning ls rows w') : w = w' := by
  have hfloor : w.floor = w'.floor := by
    ext c k
    rw [Bool.eq_iff_iff, h.walls, h'.walls]
  have hbeepers : w.beepers = w'.beepers := by
    ext c
    rw [h.beepers, h'.beepers]
  obtain ⟨hrobot, hheading⟩ := Pose.mk.inj (h.start.unique h'.start)
  cases w
  cases w'
  exact World.mk.injEq .. ▸ ⟨hfloor, hbeepers, hrobot, hheading⟩

/-- A draft with every row becomes the world that it tells. -/
theorem exists_meaning {d : Draft} (htells : d.Tells ls) (hrows : d.rows = rows.toList) :
    ∃ w, d.finish = .ok w ∧ Meaning ls rows w := by
  obtain ⟨_, pose⟩ := d
  cases hrows
  have hlength : rows.toList.length = height := Vector.length_toList
  have hcell : ∀ c : Cell, (rows.toList.get (c.y.cast hlength.symm))[c.x] = cellIn rows c := by
    intro c
    simp [cellIn]
  have hfinish : Draft.finish ⟨rows.toList, pose⟩ = .ok
      { floor := floorOf (Grid.ofFn (cellIn rows)), beepers := Grid.ofFn fun c => (cellIn rows c).beeper,
        robot := pose.cell, heading := pose.heading } := by
    simp only [Draft.finish, dif_pos hlength, hcell, Grid.get_ofFn]
  refine ⟨_, hfinish, ?_, ?_, htells.start⟩
  · intro c k
    simp only [floorOf_eq_buildAll, FloorPlan.walled_buildAll, FloorPlan.walled_empty, mem_sidesOf, Grid.get_ofFn,
      Heading.inBits_iff]
  · intro c
    rw [Grid.get_ofFn]

/-- A text that is well written is read as it is meant. -/
theorem exists_parse (h : WellWritten (lines text.toList) rows) :
    ∃ w, parse text = .ok w ∧ Meaning (lines text.toList) rows w := by
  obtain ⟨d, hd⟩ := exists_readAll_iff.2 h.fine
  have htells := tells_of_readAll hd
  obtain ⟨w, hw, hmeaning⟩ := exists_meaning htells (List.right_unique_forall₂' SpellsRow.unique htells.rows h.rows)
  exact ⟨w, bind_eq_ok.2 ⟨d, hd, hw⟩, hmeaning⟩

/-- A text is read exactly if it is well written, and gives the world that it means. -/
theorem parse_eq_ok_iff :
    parse text = .ok w ↔ ∃ rows, WellWritten (lines text.toList) rows ∧ Meaning (lines text.toList) rows w := by
  constructor
  · intro h
    obtain ⟨d, hd, hw⟩ := bind_eq_ok.1 h
    have htells := tells_of_readAll hd
    have hlength : d.rows.length = height := by
      by_contra hne
      nomatch hw.symm.trans (finish_eq_error_iff.2 ⟨hne, rfl⟩)
    obtain ⟨rows, hrows⟩ : ∃ rows : Vector Row height, d.rows = rows.toList := ⟨⟨d.rows.toArray, hlength⟩, rfl⟩
    obtain ⟨w', hw', hmeaning⟩ := exists_meaning htells hrows
    obtain rfl := Except.ok.inj (hw'.symm.trans hw)
    exact ⟨rows, ⟨hrows ▸ htells.rows, htells.robots⟩, hmeaning⟩
  · rintro ⟨rows, hwritten, hmeaning⟩
    obtain ⟨w', hw', hmeaning'⟩ := exists_parse hwritten
    rwa [hmeaning.unique hmeaning']

end

/-! ## Nothing else is refused -/

/-- The requests for the walls of the rows. -/
def wallRequests (rows : Vector Row height) : List FloorPlan.Request :=
  Cell.all.map fun c => .walls c.x c.y (cellIn rows c).bits

/-- The cells with a star. -/
def starred (rows : Vector Row height) : List Cell := Cell.all.filter fun c => (cellIn rows c).beeper

/-- Beepers are put into cells that have none, one after the other. -/
theorem exists_dropAll {cells : List Cell} (hcells : cells.Nodup) {w : World}
    (hempty : ∀ c ∈ cells, w.beepers.get c = false) :
    ∃ g : Grid Bool, cells.foldlM (fun v c => v.dropAt c.x c.y) w = .ok { w with beepers := g } ∧
      ∀ c, g.get c = true ↔ w.beepers.get c = true ∨ c ∈ cells := by
  induction cells generalizing w with
  | nil => exact ⟨w.beepers, rfl, by simp⟩
  | cons c cells ih =>
    obtain ⟨hc, hcs⟩ := List.forall_mem_cons.1 hempty
    obtain ⟨hnot, hnodup⟩ := List.nodup_cons.1 hcells
    have hdrop : w.dropAt c.x c.y = .ok { w with beepers := w.beepers.set c true } := by
      rw [World.dropAt, World.locate, Cell.at?_self]
      exact if_neg (by simp [hc])
    have hrest : ∀ d ∈ cells, (w.beepers.set c true).get d = false := by
      intro d hd
      rw [Grid.get_set, if_neg (ne_of_mem_of_not_mem hd hnot).symm, hcs d hd]
    obtain ⟨g, hg, hget⟩ := ih hnodup (w := { w with beepers := w.beepers.set c true }) hrest
    refine ⟨g, by rw [List.foldlM_cons, hdrop]; exact hg, ?_⟩
    intro d
    rw [hget, List.mem_cons, Grid.get_set]
    rcases eq_or_ne c d with rfl | hne
    · simp
    · simp [hne, hne.symm]

/-- The world that a text says is made by requests for its walls, by putting the robot where it starts, and by putting down the
beepers; none of this is refused. -/
theorem Meaning.granted {ls : List (List Char)} {rows : Vector Row height} {w : World} (h : Meaning ls rows w) :
    FloorPlan.empty.performAll (wallRequests rows) = .ok w.floor ∧
      ∃ bare, World.start w.floor w.robot.x w.robot.y w.heading = .ok bare ∧
        (starred rows).foldlM (fun v c => v.dropAt c.x c.y) bare = .ok w := by
  constructor
  · have hfloor : ∀ r ∈ wallRequests rows, r.OnFloor := by
      intro r hr
      obtain ⟨c, -, rfl⟩ := List.mem_map.1 hr
      exact ⟨c.x.isLt, c.y.isLt⟩
    have hsides : ∀ c k, (c, k) ∈ (wallRequests rows).flatMap FloorPlan.Request.sides ↔
        (cellIn rows c).bits &&& k.weight ≠ 0 := by
      intro c k
      simp only [wallRequests, List.mem_flatMap, List.mem_map, Cell.mem_all, true_and, FloorPlan.Request.mem_sides]
      constructor
      · rintro ⟨_, ⟨d, rfl⟩, hx, hy, hbits⟩
        rwa [Cell.ext (Fin.ext hx) (Fin.ext hy)]
      · intro hbits
        exact ⟨_, ⟨c, rfl⟩, rfl, rfl, hbits⟩
    rw [FloorPlan.performAll_of_onFloor hfloor]
    congr 1
    ext c k
    rw [Bool.eq_iff_iff, FloorPlan.walled_buildAll, FloorPlan.walled_empty, h.walls]
    simp only [hsides]
  · have hnodup : (starred rows).Nodup := List.Pairwise.filter _ Cell.nodup_all
    have hstart : World.start w.floor w.robot.x w.robot.y w.heading =
        .ok { World.empty with floor := w.floor, robot := w.robot, heading := w.heading } := by
      rw [World.start, World.locate, Cell.at?_self]
      rfl
    obtain ⟨g, hg, hget⟩ := exists_dropAll hnodup
      (w := { World.empty with floor := w.floor, robot := w.robot, heading := w.heading }) (by simp [World.empty])
    obtain rfl : g = w.beepers := by
      ext c
      rw [Bool.eq_iff_iff, hget, h.beepers]
      simp [World.empty, starred, Cell.mem_all]
    exact ⟨_, hstart, hg⟩

/-- A text is read exactly if it is well written, as the world that it means. Otherwise it is refused for the first line that breaks
a rule, counted from one and with the silent lines, or as a whole if each line is fine but there are fewer than ten rows. What a text
means could be had from the operations on floor plans and worlds, none of which would refuse. -/
theorem parse_meaning (text : String) :
    (∀ w, parse text = .ok w ↔ ∃ rows, WellWritten (lines text.toList) rows ∧ Meaning (lines text.toList) rows w) ∧
      ((∃ w, parse text = .ok w) ↔ ∃ rows, WellWritten (lines text.toList) rows) ∧
      (∀ e, parse text = .error e ↔ RefusesText (lines text.toList) e) ∧
      ∀ rows w, Meaning (lines text.toList) rows w →
        FloorPlan.empty.performAll (wallRequests rows) = .ok w.floor ∧
          ∃ bare, World.start w.floor w.robot.x w.robot.y w.heading = .ok bare ∧
            (starred rows).foldlM (fun v c => v.dropAt c.x c.y) bare = .ok w := by
  refine ⟨fun w => parse_eq_ok_iff, ⟨?_, ?_⟩, fun e => parse_eq_error_iff, fun rows w h => h.granted⟩
  · rintro ⟨w, h⟩
    obtain ⟨rows, hwritten, -⟩ := parse_eq_ok_iff.1 h
    exact ⟨rows, hwritten⟩
  · rintro ⟨rows, hwritten⟩
    obtain ⟨w, h, -⟩ := exists_parse hwritten
    exact ⟨w, h⟩

end Level

end GridRobot

import GridRobot.Proofs.World.Reach

/-!
# What actions change

An action leaves the floor plan as it is. Picking and dropping change what the robot's own cell holds, and the number of beepers by
one; moving takes the robot to the next cell, and there is no wall between the two; turning changes the heading. Nothing else
changes (`changes_of_perform`).
-/

namespace GridRobot

namespace World

variable {w w' : World} {c : Cell}

/-! ## The number of beepers -/

/-- A beeper that is put into a cell is one more. -/
theorem count_of_dropInto (h : w.dropInto c = .ok w') : w'.count = w.count + 1 := by
  unfold dropInto at h
  split at h
  · nomatch h
  · rename_i hempty
    obtain rfl := Except.ok.inj h
    have hnone : w.beepers.cells[c.index] ≠ true := hempty
    change (w.beepers.cells.set c.index true).count true = w.beepers.cells.count true + 1
    rw [Vector.count_set, if_neg (by simpa using hnone), if_pos (by decide), Nat.sub_zero]

/-- A beeper that is taken from a cell is one less. -/
theorem count_of_pickFrom (h : w.pickFrom c = .ok w') : w'.count + 1 = w.count := by
  unfold pickFrom at h
  split at h
  · rename_i hbeeper
    obtain rfl := Except.ok.inj h
    have hsome : w.beepers.cells[c.index] = true := hbeeper
    have hpos : 0 < w.beepers.cells.count true := Vector.count_pos_iff.2 (hsome ▸ Vector.getElem_mem c.index.isLt)
    change (w.beepers.cells.set c.index false).count true + 1 = w.beepers.cells.count true
    rw [Vector.count_set, if_pos (by simpa using hsome), if_neg (by decide)]
    omega
  · cases h

/-! ## Moving -/

/-- In front of the robot is the next cell in its direction, unless there is a wall. -/
theorem ahead_eq_some_iff : w.ahead = some c ↔ w.frontIsClear = true ∧ w.robot.Beside w.heading c := by
  simp only [ahead, frontIsClear, Option.ite_none_right_eq_some, Cell.ahead_eq_some_iff]

/-- A move takes the robot to the cell in front of it and does nothing else. -/
theorem move_eq_ok_iff :
    w.move = .ok w' ↔ ∃ c, w.frontIsClear = true ∧ w.robot.Beside w.heading c ∧ w' = { w with robot := c } := by
  unfold World.move
  cases ha : w.ahead with
  | none =>
    constructor
    · nofun
    · rintro ⟨c, hclear, hbeside, -⟩
      rw [ahead_eq_some_iff.2 ⟨hclear, hbeside⟩] at ha
      nomatch ha
  | some d =>
    obtain ⟨hclear, hd⟩ := ahead_eq_some_iff.1 ha
    constructor
    · intro h
      exact ⟨d, hclear, hd, (Except.ok.inj h).symm⟩
    · rintro ⟨c, -, hbeside, rfl⟩
      rw [hd.unique hbeside]

/-- The front is clear exactly if there is no wall ahead. -/
theorem frontIsClear_eq_true_iff : w.frontIsClear = true ↔ w.floor.walled w.robot w.heading = false := by
  simp [frontIsClear, clear]

/-! ## Changes -/

/-- What may be different in a world behind an action, or behind something that is none. -/
structure Changes (done : Option Action) (w w' : World) : Prop where
  floor : w'.floor = w.floor
  /-- What a cell holds is changed where the robot stands, by picking and dropping. -/
  beepers : ∀ c, w'.beepers.get c ≠ w.beepers.get c → c = w.robot ∧ (done = some .pick ∨ done = some .drop)
  robot : w'.robot ≠ w.robot → done = some .move
  heading : w'.heading ≠ w.heading → done = some .turnLeft ∨ done = some .turnAround ∨ done = some .turnRight
  /-- Moving leads to the next cell, and neither of the two cells has a wall on the side of the other. -/
  moved : done = some .move → w.robot.Beside w.heading w'.robot ∧
    w.floor.walled w.robot w.heading = false ∧ w.floor.walled w'.robot w.heading.around = false
  count : w'.count + (if done = some .pick then 1 else 0) = w.count + (if done = some .drop then 1 else 0)

namespace Changes

/-- Without an action nothing changes. -/
theorem none (w : World) : Changes none w w :=
  ⟨rfl, fun _ hne => absurd rfl hne, fun hne => absurd rfl hne, fun hne => absurd rfl hne, nofun, rfl⟩

/-- Moving changes where the robot is, and nothing else. -/
theorem move (hfloor : w.floor.Regular) (h : w.move = .ok w') : Changes (some .move) w w' := by
  obtain ⟨d, hclear, hbeside, rfl⟩ := move_eq_ok_iff.1 h
  have hopen := frontIsClear_eq_true_iff.1 hclear
  refine ⟨rfl, fun _ hne => absurd rfl hne, fun _ => rfl, fun hne => absurd rfl hne, fun _ => ⟨hbeside, hopen, ?_⟩, rfl⟩
  rw [hfloor.symmetric _ _ _ hbeside, hopen]

/-- A turn changes the heading alone. -/
theorem turn {a : Action} (ha : a = .turnLeft ∨ a = .turnAround ∨ a = .turnRight) (k : Heading) :
    Changes (some a) w { w with heading := k } := by
  refine ⟨rfl, fun _ hne => absurd rfl hne, fun hne => absurd rfl hne, fun _ => by simpa using ha, ?_, ?_⟩
  · rintro ⟨⟩
    simp at ha
  · rcases ha with rfl | rfl | rfl <;> rfl

/-- Taking a beeper leaves one less, in the cell where the robot is. -/
theorem pick (h : w.pick = .ok w') : Changes (some .pick) w w' := by
  have hcount := count_of_pickFrom h
  unfold World.pick pickFrom at h
  split at h
  · obtain rfl := Except.ok.inj h
    refine ⟨rfl, ?_, fun hne => absurd rfl hne, fun hne => absurd rfl hne, nofun, hcount⟩
    intro c hne
    by_cases hc : w.robot = c
    · exact ⟨hc.symm, .inl rfl⟩
    · simp [hc] at hne
  · nomatch h

/-- Putting a beeper down leaves one more, in the cell where the robot is. -/
theorem drop (h : w.drop = .ok w') : Changes (some .drop) w w' := by
  have hcount := count_of_dropInto h
  unfold World.drop dropInto at h
  split at h
  · nomatch h
  · obtain rfl := Except.ok.inj h
    refine ⟨rfl, ?_, fun hne => absurd rfl hne, fun hne => absurd rfl hne, nofun, hcount⟩
    intro c hne
    by_cases hc : w.robot = c
    · exact ⟨hc.symm, .inr rfl⟩
    · simp [hc] at hne

end Changes

/-- An action that is not refused changes what it is there for. -/
theorem changes_of_perform {a : Action} (hfloor : w.floor.Regular) (h : a.perform w = .ok w') : Changes (some a) w w' := by
  cases a with
  | move => exact .move hfloor h
  | turnLeft =>
    obtain rfl := Except.ok.inj h
    exact .turn (.inl rfl) _
  | turnAround =>
    obtain rfl := Except.ok.inj h
    exact .turn (.inr (.inl rfl)) _
  | turnRight =>
    obtain rfl := Except.ok.inj h
    exact .turn (.inr (.inr rfl)) _
  | pick => exact .pick h
  | drop => exact .drop h

end World

end GridRobot

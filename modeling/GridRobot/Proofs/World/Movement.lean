import GridRobot.Proofs.World.Change

/-!
# Moving and sensing

A robot moves exactly if it senses no wall in front of it, and what it senses ahead is what it finds there. A move is undone by
turning round, moving, and turning round again (`moves_and_senses_agree`). Both rest on the floor plan being regular: behind a side
without a wall there is a cell, and a side is open from behind if it is open from the front.
-/

namespace GridRobot

namespace World

variable {w w' : World}

/-! ## One move -/

/-- On a regular floor there is a cell in front of a robot that senses no wall. -/
theorem exists_beside_of_frontIsClear (hfloor : w.floor.Regular) (h : w.frontIsClear = true) :
    ∃ c, w.robot.Beside w.heading c := by
  cases ha : w.robot.ahead w.heading with
  | some c => exact ⟨c, Cell.ahead_eq_some_iff.1 ha⟩
  | none =>
    have hwall := hfloor.bordered _ _ (Cell.ahead_eq_none_iff.1 ha)
    rw [frontIsClear_eq_true_iff.1 h] at hwall
    nomatch hwall

/-- The robot can move exactly if its front is clear. -/
theorem exists_move_iff (hfloor : w.floor.Regular) : (∃ w', w.move = .ok w') ↔ w.frontIsClear = true := by
  constructor
  · rintro ⟨w', h⟩
    obtain ⟨c, hclear, -⟩ := move_eq_ok_iff.1 h
    exact hclear
  · intro hclear
    obtain ⟨c, hbeside⟩ := exists_beside_of_frontIsClear hfloor hclear
    exact ⟨_, move_eq_ok_iff.2 ⟨c, hclear, hbeside, rfl⟩⟩

/-- A robot in front of a wall stays where it is, and says where that is. -/
theorem move_of_not_clear (h : w.frontIsClear = false) :
    w.move = .error (.blockedByWall w.robot.x w.robot.y w.heading) := by
  have hnone : w.ahead = none := if_neg (by simpa [frontIsClear] using h)
  rw [move, hnone]

/-- What is sensed ahead is what the robot finds when it moves. -/
theorem beeperAhead_iff : w.beeperAhead = true ↔ ∃ w', w.move = .ok w' ∧ w'.onBeeper = true := by
  rw [beeperAhead, Option.any_eq_true]
  constructor
  · rintro ⟨c, hahead, hbeeper⟩
    obtain ⟨hclear, hbeside⟩ := ahead_eq_some_iff.1 hahead
    exact ⟨{ w with robot := c }, move_eq_ok_iff.2 ⟨c, hclear, hbeside, rfl⟩, hbeeper⟩
  · rintro ⟨w', hmove, hbeeper⟩
    obtain ⟨c, hclear, hbeside, rfl⟩ := move_eq_ok_iff.1 hmove
    exact ⟨c, ahead_eq_some_iff.2 ⟨hclear, hbeside⟩, hbeeper⟩

/-! ## Back again -/

/-- Turning around twice is no turn. -/
@[simp] theorem turnAround_turnAround (w : World) : w.turnAround.turnAround = w := by
  simp [turnAround]

/-- A robot that has moved and turned round can move, and is then where it was, turned round. -/
theorem move_turnAround (hfloor : w.floor.Regular) (h : w.move = .ok w') : w'.turnAround.move = .ok w.turnAround := by
  obtain ⟨-, hopen⟩ := (Changes.move hfloor h).moved rfl
  obtain ⟨c, -, hbeside, rfl⟩ := move_eq_ok_iff.1 h
  refine move_eq_ok_iff.2 ⟨w.robot, ?_, Cell.beside_around_iff.2 hbeside, rfl⟩
  exact frontIsClear_eq_true_iff.2 hopen.2

/-- In a world that can be reached, the robot moves exactly if it senses no wall in front of it; otherwise it is refused with the
cell where it stands and the direction it faces. To its left and to its right it senses what it would sense in front of it if it
turned there. It senses a beeper ahead exactly if it would move onto one. A move takes it to the next cell in its direction and
changes nothing else; and if it then turns round, it can move back, and behind another turn the world is as it was. -/
theorem moves_and_senses_agree {w : World} (h : w.Reachable) :
    ((∃ w', w.move = .ok w') ↔ w.frontIsClear = true) ∧
      (w.frontIsClear = false → w.move = .error (.blockedByWall w.robot.x w.robot.y w.heading)) ∧
      w.leftIsClear = w.turnLeft.frontIsClear ∧
      w.rightIsClear = w.turnRight.frontIsClear ∧
      (w.beeperAhead = true ↔ ∃ w', w.move = .ok w' ∧ w'.onBeeper = true) ∧
      ∀ w', w.move = .ok w' →
        (w.robot.Beside w.heading w'.robot ∧ w' = { w with robot := w'.robot }) ∧
          ∃ back, w'.turnAround.move = .ok back ∧ back.turnAround = w := by
  refine ⟨exists_move_iff h.regular, move_of_not_clear, rfl, rfl, beeperAhead_iff, ?_⟩
  intro w' hmove
  obtain ⟨c, -, hbeside, rfl⟩ := move_eq_ok_iff.1 hmove
  exact ⟨⟨hbeside, rfl⟩, w.turnAround, move_turnAround h.regular hmove, turnAround_turnAround w⟩

/-- In the corner of a world with a beeper to the east of it: forward and back again. To the left there is a wall. -/
theorem moves_and_senses_agree_of_corner :
    ∃ w, World.empty.dropAt 1 0 = .ok w ∧ w.Reachable ∧ w.leftIsClear = false ∧
      w.turnLeft.move = .error (.blockedByWall 0 0 .north) ∧
      ∃ w', w.move = .ok w' ∧ w'.onBeeper = true ∧ ∃ back, w'.turnAround.move = .ok back ∧ back.turnAround = w := by
  have hdrop : World.empty.dropAt 1 0 = .ok { empty with beepers := empty.beepers.set ⟨1, 0⟩ true } := rfl
  have hreach := Reachable.dropAt .empty hdrop
  obtain ⟨-, -, hleft, -, hahead, hback⟩ := moves_and_senses_agree hreach
  have hwall : World.leftIsClear { empty with beepers := empty.beepers.set ⟨1, 0⟩ true } = false := by decide +kernel
  obtain ⟨w', hmove, hbeeper⟩ := hahead.1 (by decide +kernel)
  refine ⟨_, hdrop, hreach, hwall, ?_, w', hmove, hbeeper, (hback w' hmove).2⟩
  exact (moves_and_senses_agree (hreach.act (a := .turnLeft) rfl)).2.1 (hleft ▸ hwall)

end World

end GridRobot

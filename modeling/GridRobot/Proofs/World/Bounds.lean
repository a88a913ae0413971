import GridRobot.Proofs.World.Reach

/-!
# Coordinates off the floor

The operations that take a column and a row refuse the cells off the floor, and name them in the refusal. The operations on worlds
and the one that adds a single wall do so for every such cell (`coordinates_refused`). The one that adds several walls leaves it to
the single walls, so it grants a request for no wall wherever it is made (`withWalls_off_floor`).
-/

namespace GridRobot

/-- A column and a row that are not on the floor. -/
def OffFloor (x y : Nat) : Prop := width ≤ x ∨ height ≤ y

instance (x y : Nat) : Decidable (OffFloor x y) := inferInstanceAs (Decidable (_ ∨ _))

/-- Under a condition, and only then, a result is the refusal of a column and a row as off the floor. No others are refused so. -/
def RefusesOff {α : Type} (result : Except WorldError α) (x y : Nat) (condition : Prop) : Prop :=
  ∀ a b, result = .error (.offTheFloor a b) ↔ condition ∧ a = x ∧ b = y

/-- There is no cell at coordinates that are off the floor. -/
theorem Cell.at?_eq_none_iff_offFloor {x y : Nat} : at? x y = none ↔ OffFloor x y := by
  rw [at?_eq_none_iff, OffFloor]
  omega

namespace RefusesOff

variable {α : Type} {result : Except WorldError α} {x y : Nat} {condition : Prop}

/-- Where the condition holds, it is enough that the cell is refused. -/
theorem of_refused (hc : condition) (h : result = .error (.offTheFloor x y)) : RefusesOff result x y condition := by
  intro a b
  rw [h]
  constructor
  · rintro ⟨⟩
    exact ⟨hc, rfl, rfl⟩
  · rintro ⟨-, rfl, rfl⟩
    rfl

/-- Where it does not hold, it is enough that nothing is refused as off the floor. -/
theorem of_not (hc : ¬ condition) (h : ∀ a b, result ≠ .error (.offTheFloor a b)) : RefusesOff result x y condition :=
  fun a b => ⟨fun he => absurd he (h a b), fun he => absurd he.1 hc⟩

/-- Where it does not hold, whatever is granted is right. -/
theorem of_ok {granted : α} (hc : ¬ condition) : RefusesOff (.ok granted) x y condition := by
  refine .of_not hc ?_
  intro a b he
  cases he

end RefusesOff

namespace World

/-- There is no beeper off the floor. -/
theorem beeperAt_of_offFloor {x y : Nat} (h : OffFloor x y) (w : World) : w.beeperAt x y = false := by
  rw [beeperAt, Cell.at?_eq_none_iff_offFloor.2 h]

/-- What is done with a cell that has been located is refused off the floor and nowhere else. -/
theorem locate_refusesOff {α : Type} {f : Cell → Except WorldError α} (hf : ∀ c a b, f c ≠ .error (.offTheFloor a b))
    (x y : Nat) : RefusesOff (locate x y >>= f) x y (OffFloor x y) := by
  unfold locate
  cases hc : Cell.at? x y with
  | none => exact .of_refused (Cell.at?_eq_none_iff_offFloor.1 hc) rfl
  | some c =>
    have hon : ¬ OffFloor x y := by simp [← Cell.at?_eq_none_iff_offFloor, hc]
    exact .of_not hon (hf c)

section

variable (w : World) (p : FloorPlan) (x y : Nat) (h : Heading)

/-- A world with the robot off the floor is refused, and no other one. -/
theorem start_refusesOff : RefusesOff (start p x y h) x y (OffFloor x y) := by
  refine locate_refusesOff ?_ x y
  intro c a b he
  cases he

/-- Putting the robot off the floor is refused, and nowhere else. -/
theorem withRobot_refusesOff : RefusesOff (w.withRobot x y h) x y (OffFloor x y) := by
  refine locate_refusesOff ?_ x y
  intro c a b he
  cases he

/-- Taking a beeper off the floor is refused as such, and nowhere else. -/
theorem pickAt_refusesOff : RefusesOff (w.pickAt x y) x y (OffFloor x y) := by
  refine locate_refusesOff ?_ x y
  intro c a b
  unfold pickFrom
  split <;> exact nofun

/-- Putting a beeper off the floor is refused as such, and nowhere else. -/
theorem dropAt_refusesOff : RefusesOff (w.dropAt x y) x y (OffFloor x y) := by
  refine locate_refusesOff ?_ x y
  intro c a b
  unfold dropInto
  split <;> exact nofun

end

end World

namespace FloorPlan

variable {x y : Nat}

/-- A single wall off the floor is refused, and no other one. -/
theorem withWall_refusesOff (p : FloorPlan) (x y : Nat) (h : Heading) :
    RefusesOff (p.withWall x y h) x y (OffFloor x y) := by
  unfold withWall
  cases hc : Cell.at? x y with
  | none => exact .of_refused (Cell.at?_eq_none_iff_offFloor.1 hc) rfl
  | some c =>
    have hon : ¬ OffFloor x y := by simp [← Cell.at?_eq_none_iff_offFloor, hc]
    exact .of_ok hon

/-- The numbers that name no side are those whose low four bits are clear. -/
theorem filter_inBits_eq_nil_iff {bits : Nat} : Heading.all.filter (·.inBits bits) = [] ↔ bits &&& 15 = 0 := by
  have hlow : bits &&& 15 = bits % 16 := Nat.and_two_pow_sub_one_eq_mod bits 4
  simp only [List.filter_eq_nil_iff, Heading.all, List.forall_mem_cons, Heading.inBits, Heading.weight, beq_iff_eq, hlow]
  constructor
  · rintro ⟨he, hn, hw, hs, -⟩
    omega
  · intro h
    exact ⟨by omega, by omega, by omega, by omega, nofun⟩

/-- A request for no wall is granted, on the floor and off it. -/
theorem withWalls_of_no_side {bits : Nat} (h : bits &&& 15 = 0) (p : FloorPlan) (x y : Nat) :
    p.withWalls x y bits = .ok p := by
  rw [withWalls, filter_inBits_eq_nil_iff.2 h]
  rfl

/-- A request for several walls is refused with the first of them, so there must be one. -/
theorem withWalls_refusesOff (p : FloorPlan) (x y bits : Nat) :
    RefusesOff (p.withWalls x y bits) x y (OffFloor x y ∧ bits &&& 15 ≠ 0) := by
  by_cases hoff : OffFloor x y
  · by_cases hside : bits &&& 15 = 0
    · rw [withWalls_of_no_side hside]
      exact .of_ok fun h => h.2 hside
    · obtain ⟨k, ks, hks⟩ := List.exists_cons_of_ne_nil (mt filter_inBits_eq_nil_iff.1 hside)
      refine .of_refused ⟨hoff, hside⟩ ?_
      rw [withWalls, hks, List.foldlM_cons, withWall, Cell.at?_eq_none_iff_offFloor.2 hoff]
      rfl
  · obtain ⟨c, hc⟩ := Option.ne_none_iff_exists'.1 (mt Cell.at?_eq_none_iff_offFloor.1 hoff)
    rw [withWalls, Request.foldlM_withWall hc]
    exact .of_ok fun h => hoff h.1

/-- Off the floor there are walls on all sides. -/
theorem wallsAt_of_offFloor (h : OffFloor x y) (p : FloorPlan) : p.wallsAt x y = Walls.all := by
  rw [wallsAt, Cell.at?_eq_none_iff_offFloor.2 h]

/-- A cell off the floor has each of the walls that a number names. -/
theorem touches_of_offFloor (h : OffFloor x y) (p : FloorPlan) (bits : Nat) :
    p.touches x y bits = true ↔ bits &&& 15 ≠ 0 := by
  have hany : Heading.all.any (·.inBits bits) = true ↔ Heading.all.filter (·.inBits bits) ≠ [] := by
    simp [List.filter_eq_nil_iff]
  simp only [touches, wallAt, wallsAt_of_offFloor h, Walls.has_all, Bool.and_true]
  rw [hany, Ne, filter_inBits_eq_nil_iff]

end FloorPlan

/-- Operations that take a column and a row refuse those off the floor, and no others. Of several walls at once this holds if at
least one of them is named; if none is, the request is granted wherever it is made and leaves the plan as it is. What is asked off
the floor is answered: every side there is walled, and no cell holds a beeper. -/
theorem coordinates_refused (w : World) (p : FloorPlan) (x y : Nat) (h : Heading) (bits : Nat) :
    RefusesOff (World.start p x y h) x y (OffFloor x y) ∧
      RefusesOff (w.withRobot x y h) x y (OffFloor x y) ∧
      RefusesOff (w.pickAt x y) x y (OffFloor x y) ∧
      RefusesOff (w.dropAt x y) x y (OffFloor x y) ∧
      RefusesOff (p.withWall x y h) x y (OffFloor x y) ∧
      RefusesOff (p.withWalls x y bits) x y (OffFloor x y ∧ bits &&& 15 ≠ 0) ∧
      (bits &&& 15 = 0 → p.withWalls x y bits = .ok p) ∧
      (OffFloor x y → p.wallsAt x y = Walls.all ∧ (∀ k, p.wallAt x y k = true) ∧
        (p.touches x y bits = true ↔ bits &&& 15 ≠ 0) ∧ w.beeperAt x y = false) := by
  refine ⟨World.start_refusesOff p x y h, w.withRobot_refusesOff x y h, w.pickAt_refusesOff x y, w.dropAt_refusesOff x y,
    p.withWall_refusesOff x y h, p.withWalls_refusesOff x y bits, ?_, ?_⟩
  · intro hside
    exact FloorPlan.withWalls_of_no_side hside p x y
  · intro hoff
    have hwalls := p.wallsAt_of_offFloor hoff
    refine ⟨hwalls, ?_, p.touches_of_offFloor hoff bits, w.beeperAt_of_offFloor hoff⟩
    intro k
    rw [FloorPlan.wallAt, hwalls, Walls.has_all]

/-- No wall at a column that does not exist: this is not refused, though any wall there is. -/
theorem withWalls_off_floor :
    OffFloor 10 0 ∧ FloorPlan.empty.withWalls 10 0 0 = .ok FloorPlan.empty ∧
      FloorPlan.empty.withWalls 10 0 2 = .error (.offTheFloor 10 0) ∧
      FloorPlan.empty.withWall 10 0 .east = .error (.offTheFloor 10 0) :=
  ⟨by decide, rfl, rfl, rfl⟩

end GridRobot

import GridRobot.Abilities
import GridRobot.Proofs.World.Walls
import GridRobot.World.Level
import GridRobot.World.Scatter

/-!
# Worlds that can be reached

The worlds that come of the operations on worlds: of putting a robot on a floor plan that was built, of acting and of handling
beepers, of reading a level text and of scattering. All of them have a regular floor plan (`Reachable.regular`).
-/

namespace GridRobot

/-! ## The floor of a level text -/

namespace Level

/-- The sides that the cells of a grid name, cell by cell. -/
def sidesOf (cells : Grid CellText) : List (Cell × Heading) :=
  Cell.all.flatMap (fun c => (Heading.all.filter (·.inBits (cells.get c).bits)).map (c, ·))

/-- A level has the walls that its cells ask for. -/
theorem floorOf_eq_buildAll (cells : Grid CellText) : floorOf cells = FloorPlan.empty.buildAll (sidesOf cells) := by
  simp only [floorOf, sidesOf, FloorPlan.buildAll, List.foldl_flatMap, List.foldl_map]

/-- A cell asks for a wall on a side if the side is among its bits. -/
theorem mem_sidesOf {cells : Grid CellText} {c : Cell} {k : Heading} :
    (c, k) ∈ sidesOf cells ↔ k.inBits (cells.get c).bits = true := by
  simp only [sidesOf, List.mem_flatMap, List.mem_map, List.mem_filter, Cell.mem_all, Heading.mem_all, true_and,
    Prod.mk.injEq]
  constructor
  · rintro ⟨d, h, hbits, rfl, rfl⟩
    exact hbits
  · intro hbits
    exact ⟨c, k, hbits, rfl, rfl⟩

/-- The world that a text says has the floor plan of a grid of cells. -/
theorem exists_floorOf_of_parse {text : String} {w : World} (h : parse text = .ok w) :
    ∃ cells, w.floor = floorOf cells := by
  unfold parse at h
  cases hd : Draft.blank.readAll 1 (Text.lines text.toList) with
  | error e =>
    rw [hd] at h
    nomatch h
  | ok d =>
    rw [hd] at h
    change d.finish = .ok w at h
    unfold Draft.finish at h
    split at h
    · obtain rfl := Except.ok.inj h
      exact ⟨_, rfl⟩
    · nomatch h

end Level

namespace World

/-! ## Operations keep the floor plan -/

section

variable {w w' : World}

/-- Taking a beeper leaves the floor plan as it is. -/
theorem floor_of_pickFrom {c : Cell} (h : w.pickFrom c = .ok w') : w'.floor = w.floor := by
  unfold pickFrom at h
  split at h
  · obtain rfl := Except.ok.inj h
    rfl
  · nomatch h

/-- Putting a beeper down leaves the floor plan as it is. -/
theorem floor_of_dropInto {c : Cell} (h : w.dropInto c = .ok w') : w'.floor = w.floor := by
  unfold dropInto at h
  split at h
  · nomatch h
  · obtain rfl := Except.ok.inj h
    rfl

/-- Moving leaves the floor plan as it is. -/
theorem floor_of_move (h : w.move = .ok w') : w'.floor = w.floor := by
  unfold move at h
  split at h
  · obtain rfl := Except.ok.inj h
    rfl
  · nomatch h

/-- No action changes the floor plan. -/
theorem floor_of_perform {a : Action} (h : a.perform w = .ok w') : w'.floor = w.floor := by
  cases a with
  | move => exact floor_of_move h
  | turnLeft | turnAround | turnRight =>
    obtain rfl := Except.ok.inj h
    rfl
  | pick => exact floor_of_pickFrom h
  | drop => exact floor_of_dropInto h

/-- A cell that is located is on the floor. -/
theorem locate_bind_eq_ok {α : Type} {x y : Nat} {f : Cell → Except WorldError α} {a : α}
    (h : (locate x y >>= f) = .ok a) : ∃ c, Cell.at? x y = some c ∧ f c = .ok a := by
  unfold locate at h
  cases hc : Cell.at? x y with
  | none =>
    rw [hc] at h
    nomatch h
  | some c =>
    rw [hc] at h
    exact ⟨c, rfl, h⟩

end

/-! ## Reachable worlds -/

/-- The world comes of the operations on worlds. -/
inductive Reachable : World → Prop
  | empty : Reachable empty
  | start {floor : FloorPlan} {x y : Nat} {h : Heading} {w : World} (hf : floor.Built) (hw : start floor x y h = .ok w) :
      Reachable w
  | withRobot {w w' : World} {x y : Nat} {h : Heading} (hw : Reachable w) (hr : w.withRobot x y h = .ok w') :
      Reachable w'
  | withFloor {w : World} {floor : FloorPlan} (hw : Reachable w) (hf : floor.Built) : Reachable (w.withFloor floor)
  | act {w w' : World} {a : Action} (hw : Reachable w) (ha : a.perform w = .ok w') : Reachable w'
  | pickAt {w w' : World} {x y : Nat} (hw : Reachable w) (hp : w.pickAt x y = .ok w') : Reachable w'
  | dropAt {w w' : World} {x y : Nat} (hw : Reachable w) (hd : w.dropAt x y = .ok w') : Reachable w'
  | parse {text : String} {w : World} (hw : Level.parse text = .ok w) : Reachable w
  | scatter (seed : UInt64) (density : Float) : Reachable (scatter seed density)

/-- The floor plan of every world is regular, however it was made. -/
theorem Reachable.regular {w : World} (h : w.Reachable) : w.floor.Regular := by
  induction h with
  | empty => exact FloorPlan.regular_empty
  | scatter seed density =>
    obtain ⟨beepers, h⟩ := exists_scatterFrom_eq Random.keystream seed density
    rw [World.scatter, h]
    exact FloorPlan.regular_empty
  | start hf hw =>
    obtain ⟨c, -, hc⟩ := locate_bind_eq_ok hw
    obtain rfl := Except.ok.inj hc
    exact hf.regular
  | withRobot _ hr ih =>
    obtain ⟨c, -, hc⟩ := locate_bind_eq_ok hr
    obtain rfl := Except.ok.inj hc
    exact ih
  | withFloor _ hf => exact hf.regular
  | act _ ha ih => rwa [floor_of_perform ha]
  | pickAt _ hp ih =>
    obtain ⟨c, -, hc⟩ := locate_bind_eq_ok hp
    rwa [floor_of_pickFrom hc]
  | dropAt _ hd ih =>
    obtain ⟨c, -, hc⟩ := locate_bind_eq_ok hd
    rwa [floor_of_dropInto hc]
  | parse hw =>
    obtain ⟨cells, hcells⟩ := Level.exists_floorOf_of_parse hw
    rw [hcells, Level.floorOf_eq_buildAll]
    exact FloorPlan.regular_empty.buildAll _

/-! ## The set of beepers -/

/-- The beepers as a number: the bit of a cell's number is set if the cell holds a beeper. -/
def beeperBits (w : World) : Nat := w.beeperCells.foldl (fun bits c => bits ||| 2 ^ c.index.val) 0

/-- A bit is set in the mask of the beepers exactly if it is that of a cell with a beeper. -/
theorem testBit_beeperBits {w : World} {i : Nat} :
    w.beeperBits.testBit i = true ↔ ∃ c, c.index.val = i ∧ w.beepers.get c = true := by
  have hfold : ∀ (cells : List Cell) (bits : Nat),
      (cells.foldl (fun bits c => bits ||| 2 ^ c.index.val) bits).testBit i = true ↔
        bits.testBit i = true ∨ ∃ c ∈ cells, c.index.val = i := by
    intro cells
    induction cells with
    | nil => simp
    | cons c cells ih =>
      intro bits
      rw [List.foldl_cons, ih]
      simp [Nat.testBit_two_pow, or_assoc]
  simp [beeperBits, beeperCells, hfold, Cell.mem_all, and_comm]

/-- The bit of a cell says whether it has a beeper. -/
theorem testBit_beeperBits_index {w : World} {c : Cell} : w.beeperBits.testBit c.index = w.beepers.get c := by
  rw [Bool.eq_iff_iff, testBit_beeperBits]
  constructor
  · rintro ⟨d, hd, hbeeper⟩
    rwa [← Cell.index_inj.1 (Fin.ext hd)]
  · intro hbeeper
    exact ⟨c, rfl, hbeeper⟩

/-- No beeper lies beyond the last cell of the floor. -/
theorem testBit_beeperBits_of_le {w : World} {i : Nat} (h : width * height ≤ i) : w.beeperBits.testBit i = false := by
  rw [Bool.eq_false_iff]
  intro hbit
  obtain ⟨c, rfl, -⟩ := testBit_beeperBits.1 hbit
  exact absurd c.index.isLt (Nat.not_lt.2 h)

/-- Only the bit of a cell changes with what the cell holds. -/
theorem testBit_beeperBits_set {w : World} {c : Cell} {b : Bool} {i : Nat} :
    (beeperBits { w with beepers := w.beepers.set c b }).testBit i =
      if c.index.val = i then b else w.beeperBits.testBit i := by
  by_cases hi : i < width * height
  · obtain ⟨d, rfl⟩ : ∃ d : Cell, d.index.val = i := ⟨Cell.ofIndex ⟨i, hi⟩, by simp⟩
    simp only [testBit_beeperBits_index, Grid.get_set, Fin.val_inj, Cell.index_inj]
  · have hbeyond : width * height ≤ i := Nat.not_lt.1 hi
    have hcell : c.index.val ≠ i := Nat.ne_of_lt (Nat.lt_of_lt_of_le c.index.isLt hbeyond)
    rw [if_neg hcell, testBit_beeperBits_of_le hbeyond, testBit_beeperBits_of_le hbeyond]

/-- Putting a beeper into a cell sets its bit. -/
theorem beeperBits_of_dropInto {w w' : World} {c : Cell} (h : w.dropInto c = .ok w') :
    w'.beeperBits = w.beeperBits ||| 2 ^ c.index.val := by
  unfold dropInto at h
  split at h
  · nomatch h
  · obtain rfl := Except.ok.inj h
    apply Nat.eq_of_testBit_eq
    intro i
    rw [testBit_beeperBits_set, Nat.testBit_or, Nat.testBit_two_pow]
    by_cases hi : c.index.val = i <;> simp [hi]

/-- Taking the beeper from a cell clears its bit. -/
theorem beeperBits_of_pickFrom {w w' : World} {c : Cell} (h : w.pickFrom c = .ok w') :
    w'.beeperBits = Nat.ldiff w.beeperBits (2 ^ c.index.val) := by
  unfold pickFrom at h
  split at h
  · obtain rfl := Except.ok.inj h
    apply Nat.eq_of_testBit_eq
    intro i
    rw [testBit_beeperBits_set, Nat.testBit_ldiff, Nat.testBit_two_pow]
    by_cases hi : c.index.val = i <;> simp [hi]
  · nomatch h

end World

end GridRobot

import GridRobot.Proofs.World.Tally
import GridRobot.World.Scatter

/-!
# Which cells get a beeper

A cell gets a beeper if the draw of its own number is below the threshold of the density (`scatter_by_draws`). Each cell takes one
draw, whatever came of the cells before it, so a cell's draw is that of its number however dense the beepers are: with a greater
density the cells that had a beeper keep it. A sure chance takes no draws, and needs none, as every cell gets a beeper. All this is
so for every source of draws.
-/

namespace GridRobot

/-! ## Draws -/

namespace Chance

/-- How many of the possible draws give a beeper at a density: its share of them, rounded down. -/
def threshold (density : Float) : Nat :=
  if 1.0 ≤ density then 18446744073709551616
  else if 0.0 < density then (density * 18446744073709551616.0).toUInt64.toNat
  else 0

/-- A draw is accepted exactly if it is below the threshold of the density. -/
theorem accepts_ofDensity {density : Float} {v : Nat} (hv : v < 18446744073709551616) :
    (ofDensity density).accepts v = true ↔ v < threshold density := by
  unfold ofDensity threshold
  split
  · simp only [accepts, true_iff]
    exact hv
  · split <;> simp only [accepts, decide_eq_true_eq]

/-- Behind an answer the next draws decide as they would have decided before it. A sure chance takes no draw, but it needs none. -/
theorem accepts_nth_ask {chance : Chance} {g : Random.Source} {s : g.State} (n : Nat) :
    chance.accepts (g.nth n (chance.ask g s).2) = chance.accepts (g.nth (n + 1) s) := by
  cases chance <;> rfl

/-- Whether a beeper is put somewhere depends on the next draw alone. -/
theorem ask_eq_accepts {chance : Chance} {g : Random.Source} {s : g.State} :
    (chance.ask g s).1 = chance.accepts (g.nth 0 s) := by
  cases chance <;> rfl

end Chance

/-! ## Cells -/

/-- A cell has its index among all cells, in the order of the rows. -/
theorem Cell.getElem?_all {i : Nat} {c : Cell} : Cell.all[i]? = some c ↔ i = c.index := by
  rw [Cell.all_eq_map_ofIndex, List.getElem?_map, Option.map_eq_some_iff]
  constructor
  · rintro ⟨j, hj, rfl⟩
    obtain ⟨_, hj⟩ := List.getElem?_eq_some_iff.1 hj
    rw [List.getElem_finRange] at hj
    rw [Cell.index_ofIndex, ← hj]
    rfl
  · rintro rfl
    refine ⟨c.index, ?_, Cell.ofIndex_index c⟩
    rw [List.getElem?_eq_some_iff]
    refine ⟨by rw [List.length_finRange]; exact c.index.isLt, ?_⟩
    rw [List.getElem_finRange]
    rfl

namespace World

/-- One more beeper is in its cell, and all others stay. -/
theorem get_withBeeper {w : World} {c d : Cell} :
    (w.withBeeper c).beepers.get d = true ↔ c = d ∨ w.beepers.get d = true := by
  rw [withBeeper_eq, Grid.get_set]
  split <;> simp [*]

/-! ## Scattering -/

section

variable {g : Random.Source} {seed : UInt64} {chance : Chance} {density : Float}

/-- After going through cells, those have a beeper that had one and those whose draw, counted from the first cell, is
accepted. -/
theorem get_scatterOver (cells : List Cell) (s : g.State) (w : World) (c : Cell) :
    (scatterOver g chance cells s w).beepers.get c = true ↔
      w.beepers.get c = true ∨ ∃ i, cells[i]? = some c ∧ chance.accepts (g.nth i s) = true := by
  induction cells generalizing s w with
  | nil => simp [scatterOver]
  | cons d cells ih =>
    have hfirst : (if (chance.ask g s).1 then w.withBeeper d else w).beepers.get c = true ↔
        w.beepers.get c = true ∨ d = c ∧ chance.accepts (g.nth 0 s) = true := by
      rw [Chance.ask_eq_accepts]
      split
      · simp only [get_withBeeper, *, and_true]
        exact or_comm
      · simp [*]
    have hfrom : (∃ i, (d :: cells)[i]? = some c ∧ chance.accepts (g.nth i s) = true) ↔
        (d = c ∧ chance.accepts (g.nth 0 s) = true) ∨
          ∃ i, cells[i]? = some c ∧ chance.accepts (g.nth i (chance.ask g s).2) = true := by
      rw [← Nat.or_exists_add_one]
      simp only [List.getElem?_cons_zero, Option.some.injEq, List.getElem?_cons_succ, Chance.accepts_nth_ask]
    rw [scatterOver, ih, hfirst, hfrom, or_assoc]

/-- Scattering puts a beeper into a cell exactly if the draw that the cell has by its index is accepted. -/
theorem get_scatterBy {c : Cell} :
    (scatterBy g seed chance).beepers.get c = true ↔ chance.accepts (g.drawOf seed c.index) = true := by
  rw [scatterBy, get_scatterOver]
  simp [empty, Cell.getElem?_all, Random.Source.drawOf]

/-- There is a beeper at a column and a row of the floor if the draw of the cell's number is below the threshold. -/
theorem beeperAt_scatterFrom {x y : Nat} :
    (scatterFrom g seed density).beeperAt x y = true ↔
      (x < width ∧ y < height) ∧ g.drawOf seed (10 * y + x) < Chance.threshold density := by
  have hcell (c : Cell) : (scatterFrom g seed density).beepers.get c = true ↔
      g.drawOf seed (10 * c.y + c.x) < Chance.threshold density := by
    have hindex : 10 * c.y.val + c.x.val = c.index := by rw [Nat.mul_comm, Cell.index]
    rw [scatterFrom, get_scatterBy, Chance.accepts_ofDensity (g.drawOf_lt ..), hindex]
  rw [beeperAt_eq_true_iff]
  constructor
  · rintro ⟨c, hat, hc⟩
    obtain ⟨rfl, rfl⟩ := Cell.at?_eq_some_iff.1 hat
    exact ⟨⟨c.x.isLt, c.y.isLt⟩, (hcell c).1 hc⟩
  · rintro ⟨hon, hdraw⟩
    obtain ⟨c, hat⟩ := Cell.exists_at? hon
    obtain ⟨rfl, rfl⟩ := Cell.at?_eq_some_iff.1 hat
    exact ⟨c, hat, (hcell c).2 hdraw⟩

end

/-- Scattering gives a cell a beeper if the draw of its number, counted row by row, is below the threshold of the density, whatever
source the draws are from. A density of a greater threshold, or one of all, keeps the beepers of a smaller one. The floor is the empty
one, with the robot in the north west corner facing east. The program scatters by the keystream, whose draws for a seed are those of
the seed's key. -/
theorem scatter_by_draws (g : Random.Source) (seed : UInt64) (density : Float) :
    (∀ x y, (scatterFrom g seed density).beeperAt x y = true ↔
      (x < width ∧ y < height) ∧ g.drawOf seed (10 * y + x) < Chance.threshold density) ∧
    (∀ denser, 1.0 ≤ denser ∨ Chance.threshold density ≤ Chance.threshold denser →
      ∀ x y, (scatterFrom g seed density).beeperAt x y = true → (scatterFrom g seed denser).beeperAt x y = true) ∧
    (scatterFrom g seed density).floor = FloorPlan.empty ∧
    (scatterFrom g seed density).robot = ⟨0, 0⟩ ∧ (scatterFrom g seed density).heading = .east ∧
    scatter seed density = scatterFrom Random.keystream seed density ∧
    ∀ n, Random.keystream.drawOf seed n = Random.draw (Random.Key.ofSeed seed) n := by
  refine ⟨fun x y => beeperAt_scatterFrom, ?_, ?_⟩
  · intro denser hdenser x y h
    obtain ⟨hon, hdraw⟩ := beeperAt_scatterFrom.1 h
    refine beeperAt_scatterFrom.2 ⟨hon, ?_⟩
    obtain hall | hmore := hdenser
    · rw [Chance.threshold, if_pos hall]
      exact g.drawOf_lt ..
    · exact Nat.lt_of_lt_of_le hdraw hmore
  · obtain ⟨beepers, hscatter⟩ := exists_scatterFrom_eq g seed density
    rw [hscatter]
    exact ⟨rfl, rfl, rfl, rfl, Random.keystream_drawOf seed⟩

end World

end GridRobot

import GridRobot.Proofs.Results
import GridRobot.Proofs.World.Reach
import Mathlib.Algebra.BigOperators.Intervals

/-!
# Counting and handling beepers

The beepers of a world are a set of places. The number of beepers is the size of this set, however it is counted: over the cells,
over the bits, row by row, column by column, or part by part (`World.Tallies`). Handling the beeper of a place puts the place into
the set or takes it out of it, and leaves the others as they are (`World.Handles`). Both hold of every world
(`World.beepers_are_a_set`).
-/

namespace GridRobot

/-! ## Sets of cells -/

/-- The cells that pass a test are as many as there are elements of a set that stands for them, one for each. -/
theorem Cell.countP_all_eq_card {α : Type} [DecidableEq α] {f : Cell → α} (hf : ∀ c d, f c = f d → c = d) {test : Cell → Bool}
    {s : Finset α} (hs : ∀ a, a ∈ s ↔ ∃ c, test c = true ∧ f c = a) : Cell.all.countP test = s.card := by
  have hnodup : ((Cell.all.filter test).map f).Nodup := by
    refine List.pairwise_map.2 ((Cell.nodup_all.filter _).imp ?_)
    intro c d hne heq
    exact hne (hf c d heq)
  have hset : ((Cell.all.filter test).map f).toFinset = s := by
    ext a
    simp [hs, Cell.mem_all]
  rw [← hset, List.toFinset_card_of_nodup hnodup, List.length_map, List.countP_eq_length_filter]

theorem Grid.count_cells (g : Grid Bool) : g.cells.count true = Cell.all.countP g.get := by
  have hcells : g.cells.toList = (List.finRange (width * height)).map (fun i => g.cells[i]) := by
    apply List.ext_getElem <;> simp
  have hget : g.get ∘ Cell.ofIndex = fun i => g.cells[i] := by
    funext i
    simp [Grid.get]
  rw [← Vector.count_toList, List.count_eq_countP, Cell.all_eq_map_ofIndex, List.countP_map, hget, hcells, List.countP_map]
  congr 1
  funext i
  simp

/-- Settings of different cells do not disturb each other. -/
theorem Grid.set_set {α : Type} {c d : Cell} (h : c ≠ d) (g : Grid α) (a b : α) :
    (g.set c a).set d b = (g.set d b).set c a := by
  ext e
  simp only [Grid.get_set]
  by_cases hc : c = e
  · have hd : d ≠ e := fun hd => h (hc.trans hd.symm)
    simp [hc, hd]
  · simp [hc]

/-- Setting a cell to what it was undoes what was set there. -/
theorem Grid.set_back {α : Type} (g : Grid α) (c : Cell) (a : α) : (g.set c a).set c (g.get c) = g := by
  ext d
  by_cases hc : c = d
  · subst hc
    simp
  · simp [hc]

namespace World

variable {w w' : World}

/-! ## Places -/

@[simp] theorem beeperAt_cell (w : World) (c : Cell) : w.beeperAt c.x c.y = w.beepers.get c := by
  simp [beeperAt]

/-- There is a beeper at coordinates exactly if there is one in the cell that has them. -/
theorem beeperAt_eq_true_iff {x y : Nat} :
    w.beeperAt x y = true ↔ ∃ c, Cell.at? x y = some c ∧ w.beepers.get c = true := by
  unfold beeperAt
  cases Cell.at? x y <;> simp

/-- The places of the beepers whose column is in `x₀ ≤ x < x₁` and whose row is in `y₀ ≤ y < y₁`. -/
def placesIn (w : World) (x₀ x₁ y₀ y₁ : Nat) : Finset (Nat × Nat) :=
  (Finset.Ico x₀ x₁ ×ˢ Finset.Ico y₀ y₁).filter fun p => w.beeperAt p.1 p.2 = true

/-- The places in a range are those in it that have a beeper. -/
theorem mem_placesIn {x₀ x₁ y₀ y₁ : Nat} {p : Nat × Nat} :
    p ∈ w.placesIn x₀ x₁ y₀ y₁ ↔ ((x₀ ≤ p.1 ∧ p.1 < x₁) ∧ y₀ ≤ p.2 ∧ p.2 < y₁) ∧ w.beeperAt p.1 p.2 = true := by
  simp [placesIn]

/-! ## Counting -/

/-- What is counted in a part of the floor is the number of places there. -/
theorem countIn_eq_card (w : World) (x₀ x₁ y₀ y₁ : Nat) : w.countIn x₀ x₁ y₀ y₁ = (w.placesIn x₀ x₁ y₀ y₁).card := by
  refine Cell.countP_all_eq_card (f := fun c => (c.x.val, c.y.val)) ?_ ?_
  · intro c d h
    obtain ⟨hx, hy⟩ := Prod.mk.inj h
    exact Cell.ext (Fin.ext hx) (Fin.ext hy)
  · rintro ⟨x, y⟩
    simp only [mem_placesIn, beeperAt_eq_true_iff, Cell.at?_eq_some_iff, Bool.and_eq_true, decide_eq_true_eq, Prod.mk.injEq]
    constructor
    · rintro ⟨⟨⟨h₀, h₁⟩, h₂, h₃⟩, c, ⟨rfl, rfl⟩, hbeeper⟩
      exact ⟨c, ⟨⟨h₀, h₁, h₂, h₃⟩, hbeeper⟩, rfl, rfl⟩
    · rintro ⟨c, ⟨⟨h₀, h₁, h₂, h₃⟩, hbeeper⟩, rfl, rfl⟩
      exact ⟨⟨⟨h₀, h₁⟩, h₂, h₃⟩, c, ⟨rfl, rfl⟩, hbeeper⟩

/-- The number of beepers is that of the cells with one. -/
theorem count_eq_countP (w : World) : w.count = Cell.all.countP w.beepers.get := w.beepers.count_cells

/-- There are as many cells with a beeper as beepers. -/
theorem length_beeperCells (w : World) : w.beeperCells.length = w.count := by
  rw [count_eq_countP, beeperCells, List.countP_eq_length_filter]

/-- All beepers are on the floor. -/
theorem count_eq_countIn (w : World) : w.count = w.countIn 0 width 0 height := by
  rw [count_eq_countP, countIn]
  congr 1
  funext c
  simp [c.x.isLt, c.y.isLt]

/-- The beepers are as many as the bits that are set. -/
theorem count_eq_card_bits (w : World) :
    w.count = ((Finset.range 128).filter fun i => w.beeperBits.testBit i = true).card := by
  rw [count_eq_countP]
  refine Cell.countP_all_eq_card (f := fun c => c.index.val) (fun c d h => Cell.index_inj.1 (Fin.ext h)) ?_
  intro i
  simp only [Finset.mem_filter, Finset.mem_range, testBit_beeperBits]
  constructor
  · rintro ⟨-, c, rfl, hbeeper⟩
    exact ⟨c, hbeeper, rfl⟩
  · rintro ⟨c, hbeeper, rfl⟩
    exact ⟨Nat.lt_trans c.index.isLt (by decide), c, rfl, hbeeper⟩

/-- A part of the floor that is cut between two columns is counted in two parts. -/
theorem countIn_split_columns {x₀ x₁ x₂ : Nat} (h : x₀ ≤ x₁) (h' : x₁ ≤ x₂) (w : World) (y₀ y₁ : Nat) :
    w.countIn x₀ x₂ y₀ y₁ = w.countIn x₀ x₁ y₀ y₁ + w.countIn x₁ x₂ y₀ y₁ := by
  have hapart : Disjoint (Finset.Ico x₀ x₁ ×ˢ Finset.Ico y₀ y₁) (Finset.Ico x₁ x₂ ×ˢ Finset.Ico y₀ y₁) :=
    Finset.disjoint_product.2 (.inl (Finset.Ico_disjoint_Ico_consecutive x₀ x₁ x₂))
  simp only [countIn_eq_card, placesIn]
  rw [← Finset.Ico_union_Ico_eq_Ico h h', Finset.union_product, Finset.filter_union]
  exact Finset.card_union_of_disjoint (Finset.disjoint_filter_filter hapart)

/-- So is one that is cut between two rows. -/
theorem countIn_split_rows {y₀ y₁ y₂ : Nat} (h : y₀ ≤ y₁) (h' : y₁ ≤ y₂) (w : World) (x₀ x₁ : Nat) :
    w.countIn x₀ x₁ y₀ y₂ = w.countIn x₀ x₁ y₀ y₁ + w.countIn x₀ x₁ y₁ y₂ := by
  have hapart : Disjoint (Finset.Ico x₀ x₁ ×ˢ Finset.Ico y₀ y₁) (Finset.Ico x₀ x₁ ×ˢ Finset.Ico y₁ y₂) :=
    Finset.disjoint_product.2 (.inr (Finset.Ico_disjoint_Ico_consecutive y₀ y₁ y₂))
  simp only [countIn_eq_card, placesIn]
  rw [← Finset.Ico_union_Ico_eq_Ico h h', Finset.product_union, Finset.filter_union]
  exact Finset.card_union_of_disjoint (Finset.disjoint_filter_filter hapart)

/-- The first rows are counted one by one. -/
theorem countIn_eq_sum_rows (w : World) (x₀ x₁ n : Nat) :
    w.countIn x₀ x₁ 0 n = ∑ y ∈ Finset.range n, w.countIn x₀ x₁ y (y + 1) := by
  induction n with
  | zero => simp [countIn_eq_card, placesIn]
  | succ n ih => rw [Finset.sum_range_succ, ← ih, countIn_split_rows (Nat.zero_le n) (Nat.le_succ n)]

/-- So are the first columns. -/
theorem countIn_eq_sum_columns (w : World) (y₀ y₁ n : Nat) :
    w.countIn 0 n y₀ y₁ = ∑ x ∈ Finset.range n, w.countIn x (x + 1) y₀ y₁ := by
  induction n with
  | zero => simp [countIn_eq_card, placesIn]
  | succ n ih => rw [Finset.sum_range_succ, ← ih, countIn_split_columns (Nat.zero_le n) (Nat.le_succ n)]

/-- What the counts of a world say. -/
structure Tallies (w : World) : Prop where
  floor : w.count = (w.placesIn 0 width 0 height).card
  listed : w.count = w.beeperCells.length
  bits : w.count = ((Finset.range 128).filter fun i => w.beeperBits.testBit i = true).card
  rows : w.count = ∑ y ∈ Finset.range height, w.countInRow y
  columns : w.count = ∑ x ∈ Finset.range width, w.countInColumn x
  /-- Of whatever part, also of one that is empty or goes beyond the floor. -/
  part : ∀ x₀ x₁ y₀ y₁, w.countIn x₀ x₁ y₀ y₁ = (w.placesIn x₀ x₁ y₀ y₁).card
  splitColumns : ∀ x₀ x₁ x₂ y₀ y₁, x₀ ≤ x₁ → x₁ ≤ x₂ →
    w.countIn x₀ x₂ y₀ y₁ = w.countIn x₀ x₁ y₀ y₁ + w.countIn x₁ x₂ y₀ y₁
  splitRows : ∀ x₀ x₁ y₀ y₁ y₂, y₀ ≤ y₁ → y₁ ≤ y₂ →
    w.countIn x₀ x₁ y₀ y₂ = w.countIn x₀ x₁ y₀ y₁ + w.countIn x₀ x₁ y₁ y₂

/-- All readings of the beepers of a world agree. -/
theorem tallies (w : World) : w.Tallies where
  floor := by rw [count_eq_countIn, countIn_eq_card]
  listed := w.length_beeperCells.symm
  bits := w.count_eq_card_bits
  rows := w.count_eq_countIn.trans (w.countIn_eq_sum_rows 0 width height)
  columns := w.count_eq_countIn.trans (w.countIn_eq_sum_columns 0 height width)
  part := w.countIn_eq_card
  splitColumns := fun _ _ _ y₀ y₁ h h' => countIn_split_columns h h' w y₀ y₁
  splitRows := fun x₀ x₁ _ _ _ h h' => countIn_split_rows h h' w x₀ x₁

end World

/-! ## Handling -/

/-- What is done with the beeper of a place: it is taken, or one is put there. -/
inductive Handling where
  | pick | drop
  deriving DecidableEq, Repr

namespace Handling

/-- What the place has to hold for it: a beeper that is taken must be there, and a place for one that is put there free. -/
def needs : Handling → Bool
  | pick => true
  | drop => false

/-- What undoes it. -/
def undo : Handling → Handling
  | pick => drop
  | drop => pick

/-- Why it is refused at a place that holds something else. -/
def refusal : Handling → Nat → Nat → WorldError
  | pick => .cellIsEmpty
  | drop => .cellIsFull

@[simp] theorem needs_undo (h : Handling) : h.undo.needs = !h.needs := by cases h <;> rfl

end Handling

namespace World

/-- Handles the beeper at a column and a row. -/
def handleAt (w : World) : Handling → Nat → Nat → Except WorldError World
  | .pick, x, y => w.pickAt x y
  | .drop, x, y => w.dropAt x y

section

variable {w w' : World} {h k : Handling} {x y a b : Nat}

/-- Nothing is done off the floor. -/
theorem handleAt_of_offFloor (hc : Cell.at? x y = none) : w.handleAt h x y = .error (.offTheFloor x y) := by
  cases h with
  | pick | drop =>
    simp only [handleAt, pickAt, dropAt, locate, hc]
    rfl

/-- A beeper is handled where the place holds what is needed. -/
theorem handleAt_of_eq {c : Cell} (hc : Cell.at? x y = some c) (hneeds : w.beepers.get c = h.needs) :
    w.handleAt h x y = .ok { w with beepers := w.beepers.set c (!h.needs) } := by
  cases h with
  | pick =>
    simp only [handleAt, pickAt, locate, hc]
    exact if_pos hneeds
  | drop =>
    simp only [handleAt, dropAt, locate, hc]
    exact if_neg (Bool.eq_false_iff.1 hneeds)

/-- Taking is refused without a beeper, and putting down with one. -/
theorem handleAt_of_ne {c : Cell} (hc : Cell.at? x y = some c) (hneeds : w.beepers.get c = !h.needs) :
    w.handleAt h x y = .error (h.refusal x y) := by
  obtain ⟨rfl, rfl⟩ := Cell.at?_eq_some_iff.1 hc
  cases h with
  | pick =>
    simp only [handleAt, pickAt, locate, hc]
    exact if_neg (Bool.eq_false_iff.1 hneeds)
  | drop =>
    simp only [handleAt, dropAt, locate, hc]
    exact if_pos hneeds

/-- Where a beeper is handled, the place is on the floor and holds what is needed, and then it is changed and nothing else. -/
theorem handleAt_eq_ok_iff : w.handleAt h x y = .ok w' ↔
    ∃ c, Cell.at? x y = some c ∧ w.beepers.get c = h.needs ∧ w' = { w with beepers := w.beepers.set c (!h.needs) } := by
  constructor
  · intro hw
    cases hc : Cell.at? x y with
    | none =>
      rw [handleAt_of_offFloor hc] at hw
      nomatch hw
    | some c =>
      rcases Bool.eq_or_eq_not (w.beepers.get c) h.needs with hneeds | hneeds
      · rw [handleAt_of_eq hc hneeds] at hw
        exact ⟨c, rfl, hneeds, (Except.ok.inj hw).symm⟩
      · rw [handleAt_of_ne hc hneeds] at hw
        nomatch hw
  · rintro ⟨c, hc, hneeds, rfl⟩
    exact handleAt_of_eq hc hneeds

/-- Whether a beeper is handled is seen from outside. -/
theorem exists_handleAt_iff :
    (∃ w', w.handleAt h x y = .ok w') ↔ (x < width ∧ y < height) ∧ w.beeperAt x y = h.needs := by
  constructor
  · rintro ⟨w', hw⟩
    obtain ⟨c, hc, hneeds, -⟩ := handleAt_eq_ok_iff.1 hw
    obtain ⟨rfl, rfl⟩ := Cell.at?_eq_some_iff.1 hc
    exact ⟨⟨c.x.isLt, c.y.isLt⟩, by rw [beeperAt_cell, hneeds]⟩
  · rintro ⟨hfloor, hneeds⟩
    obtain ⟨c, hc⟩ := Cell.exists_at? hfloor
    rw [beeperAt, hc] at hneeds
    exact ⟨_, handleAt_of_eq hc hneeds⟩

/-- No other place is changed. -/
theorem beeperAt_of_handleAt (hw : w.handleAt h x y = .ok w') (a b : Nat) :
    w'.beeperAt a b = if a = x ∧ b = y then !h.needs else w.beeperAt a b := by
  obtain ⟨c, hc, -, rfl⟩ := handleAt_eq_ok_iff.1 hw
  obtain ⟨rfl, rfl⟩ := Cell.at?_eq_some_iff.1 hc
  unfold beeperAt
  cases hd : Cell.at? a b with
  | none =>
    have hoff := Cell.at?_eq_none_iff.1 hd
    rw [if_neg]
    rintro ⟨rfl, rfl⟩
    exact hoff ⟨c.x.isLt, c.y.isLt⟩
  | some d =>
    obtain ⟨rfl, rfl⟩ := Cell.at?_eq_some_iff.1 hd
    simp [Cell.ext_iff, Fin.ext_iff, @eq_comm _ c.x.val, @eq_comm _ c.y.val]

/-- What was done to a beeper can be undone. -/
theorem handleAt_undo (hw : w.handleAt h x y = .ok w') : w'.handleAt h.undo x y = .ok w := by
  obtain ⟨c, hc, hneeds, rfl⟩ := handleAt_eq_ok_iff.1 hw
  refine handleAt_eq_ok_iff.2 ⟨c, hc, by simp, ?_⟩
  have hback := w.beepers.set_back c (!h.needs)
  rw [hneeds] at hback
  simp [hback]

/-! ## Different places -/

theorem cell_ne {c d : Cell} (hne : (x, y) ≠ (a, b)) (hc : Cell.at? x y = some c) (hd : Cell.at? a b = some d) : c ≠ d := by
  rintro rfl
  obtain ⟨rfl, rfl⟩ := Cell.at?_eq_some_iff.1 hc
  obtain ⟨rfl, rfl⟩ := Cell.at?_eq_some_iff.1 hd
  exact hne rfl

/-- What is refused at a place is refused behind what is done at another one. -/
theorem handleAt_error_of_apart {e : WorldError} (hne : (x, y) ≠ (a, b)) (hw : w.handleAt h x y = .ok w')
    (he : w.handleAt k a b = .error e) : w'.handleAt k a b = .error e := by
  obtain ⟨c, hc, -, rfl⟩ := handleAt_eq_ok_iff.1 hw
  cases hd : Cell.at? a b with
  | none => rw [← he, handleAt_of_offFloor hd, handleAt_of_offFloor hd]
  | some d =>
    rcases Bool.eq_or_eq_not (w.beepers.get d) k.needs with hneeds | hneeds
    · rw [handleAt_of_eq hd hneeds] at he
      nomatch he
    · rw [← he, handleAt_of_ne hd hneeds]
      exact handleAt_of_ne hd (by simpa [cell_ne hne hc hd] using hneeds)

/-- What is done at two places one after the other can be done in the other order, and leads to the same world. -/
theorem handleAt_swap {w₂ : World} (hne : (x, y) ≠ (a, b))
    (hw : (w.handleAt h x y >>= fun w₁ => w₁.handleAt k a b) = .ok w₂) :
    (w.handleAt k a b >>= fun w₁ => w₁.handleAt h x y) = .ok w₂ := by
  obtain ⟨w₁, hfirst, hsecond⟩ := bind_eq_ok.1 hw
  obtain ⟨c, hc, hneeds, rfl⟩ := handleAt_eq_ok_iff.1 hfirst
  obtain ⟨d, hd, hneeds', rfl⟩ := handleAt_eq_ok_iff.1 hsecond
  have hcd := cell_ne hne hc hd
  refine bind_eq_ok.2 ⟨_, handleAt_of_eq hd (by simpa [hcd] using hneeds'), ?_⟩
  refine handleAt_eq_ok_iff.2 ⟨c, hc, by simpa [hcd.symm] using hneeds, ?_⟩
  simp only [Grid.set_set hcd]

end

/-- What handling the beepers of single places does. -/
structure Handles (w : World) : Prop where
  drop : ∀ x y, (∃ w', w.dropAt x y = .ok w') ↔ (x < width ∧ y < height) ∧ w.beeperAt x y = false
  pick : ∀ x y, (∃ w', w.pickAt x y = .ok w') ↔ (x < width ∧ y < height) ∧ w.beeperAt x y = true
  /-- The place alone is changed. -/
  alone : ∀ h x y w', w.handleAt h x y = .ok w' →
    (∀ a b, w'.beeperAt a b = if a = x ∧ b = y then !h.needs else w.beeperAt a b) ∧
      w'.floor = w.floor ∧ w'.robot = w.robot ∧ w'.heading = w.heading
  bitSet : ∀ x y w', w.dropAt x y = .ok w' → w'.beeperBits = w.beeperBits ||| 2 ^ (y * width + x)
  bitCleared : ∀ x y w', w.pickAt x y = .ok w' → w'.beeperBits = Nat.ldiff w.beeperBits (2 ^ (y * width + x))
  undone : ∀ h x y w', w.handleAt h x y = .ok w' → w'.handleAt h.undo x y = .ok w
  /-- Different places do not disturb each other: what is done at both of them can be done in either order, and what is refused at
  one of them is refused with and without the other. -/
  commutes : ∀ h k x y a b, (x, y) ≠ (a, b) → ∀ w₂,
    (w.handleAt h x y >>= fun w₁ => w₁.handleAt k a b) = .ok w₂ ↔ (w.handleAt k a b >>= fun w₁ => w₁.handleAt h x y) = .ok w₂
  refused : ∀ h k x y a b, (x, y) ≠ (a, b) → ∀ w' e, w.handleAt h x y = .ok w' →
    w.handleAt k a b = .error e → w'.handleAt k a b = .error e

/-- Beepers are handled by the laws of a set. -/
theorem handles (w : World) : w.Handles where
  drop := fun _ _ => exists_handleAt_iff (h := .drop)
  pick := fun _ _ => exists_handleAt_iff (h := .pick)
  alone := by
    intro h x y w' hw
    refine ⟨beeperAt_of_handleAt hw, ?_⟩
    obtain ⟨c, -, -, rfl⟩ := handleAt_eq_ok_iff.1 hw
    exact ⟨rfl, rfl, rfl⟩
  bitSet := by
    intro x y w' hw
    obtain ⟨c, hc, hdrop⟩ := locate_bind_eq_ok hw
    obtain ⟨rfl, rfl⟩ := Cell.at?_eq_some_iff.1 hc
    exact beeperBits_of_dropInto hdrop
  bitCleared := by
    intro x y w' hw
    obtain ⟨c, hc, hpick⟩ := locate_bind_eq_ok hw
    obtain ⟨rfl, rfl⟩ := Cell.at?_eq_some_iff.1 hc
    exact beeperBits_of_pickFrom hpick
  undone := fun _ _ _ _ => handleAt_undo
  commutes := fun _ _ _ _ _ _ hne _ => ⟨handleAt_swap hne, handleAt_swap hne.symm⟩
  refused := fun _ _ _ _ _ _ hne _ _ => handleAt_error_of_apart hne

/-- The beepers of a world are a set of places on the floor. Their number is that of the places that hold one, of the cells that are
listed, of the bits that are set, of all rows together and of all columns together; a part of the floor holds as many as it has such
places, and as many as the two parts that it is cut into. A beeper is put into a place of the floor that holds none and taken from
one that holds one; this changes that place alone and is undone by the opposite, and it makes no difference which of two places comes
first. -/
theorem beepers_are_a_set (w : World) : w.Tallies ∧ w.Handles := ⟨w.tallies, w.handles⟩

end World

end GridRobot

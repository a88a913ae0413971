import GridRobot.FloorPlan
import Mathlib.Data.Nat.Bitwise

/-!
# Building walls

Which walls a floor plan has after requests for walls: the border, the sides that a request names, and the opposite sides of
their neighbours (`performAll_walls`). So a plan knows nothing of the order of the requests, or of a wall that is asked for twice.
The plans that can be built in this way are the regular ones, whose border is walled and whose neighbours agree
(`Built.regular`, `Regular.built`).
-/

namespace GridRobot

/-! ## Neighbours -/

namespace Cell

/-- The second cell is next to the first one in a direction. -/
def Beside (c : Cell) : Heading → Cell → Prop
  | .east, d => d.x.val = c.x.val + 1 ∧ d.y.val = c.y.val
  | .north, d => d.x.val = c.x.val ∧ d.y.val + 1 = c.y.val
  | .west, d => d.x.val + 1 = c.x.val ∧ d.y.val = c.y.val
  | .south, d => d.x.val = c.x.val ∧ d.y.val = c.y.val + 1

instance (c d : Cell) : (h : Heading) → Decidable (c.Beside h d)
  | .east | .west => inferInstanceAs (Decidable (_ ∧ _))
  | .north | .south => inferInstanceAs (Decidable (_ ∧ _))

/-- A side of a cell is on the outer border: that of the last column to the east, of the first row to the north, of the first
column to the west, of the last row to the south. -/
def OnEdge (c : Cell) : Heading → Prop
  | .east => c.x.val + 1 = width
  | .north => c.y.val = 0
  | .west => c.x.val = 0
  | .south => c.y.val + 1 = height

instance (c : Cell) : (h : Heading) → Decidable (c.OnEdge h)
  | .east | .north | .west | .south => inferInstanceAs (Decidable (_ = _))

/-- The cell at coordinates is the one that has them. -/
theorem at?_eq_some_iff {x y : Nat} {c : Cell} : at? x y = some c ↔ c.x.val = x ∧ c.y.val = y := by
  unfold at?
  split
  · rename_i h
    simp only [Option.some.injEq]
    constructor
    · rintro rfl
      exact ⟨rfl, rfl⟩
    · rintro ⟨rfl, rfl⟩
      rfl
  · rename_i h
    simp only [reduceCtorEq, false_iff, not_and]
    rintro rfl rfl
    exact h ⟨c.x.isLt, c.y.isLt⟩

@[simp] theorem at?_self (c : Cell) : at? c.x c.y = some c := at?_eq_some_iff.2 ⟨rfl, rfl⟩

/-- There is no cell at coordinates exactly if they are off the floor. -/
theorem at?_eq_none_iff {x y : Nat} : at? x y = none ↔ ¬ (x < width ∧ y < height) := by
  unfold at?
  split <;> simp_all

/-- Coordinates on the floor are those of a cell. -/
theorem exists_at? {x y : Nat} (h : x < width ∧ y < height) : ∃ c, at? x y = some c := by
  unfold at?
  rw [dif_pos h]
  exact ⟨_, rfl⟩

/-- The cell ahead is the one beside it on that side. -/
theorem ahead_eq_some_iff {c d : Cell} {h : Heading} : c.ahead h = some d ↔ c.Beside h d := by
  cases h with
  | east | south => simp [ahead, Beside, at?_eq_some_iff]
  | north | west =>
    simp only [ahead, Beside, Option.ite_none_right_eq_some, at?_eq_some_iff]
    omega

/-- There is no cell ahead exactly at the edge of the floor. -/
theorem ahead_eq_none_iff {c : Cell} {h : Heading} : c.ahead h = none ↔ c.OnEdge h := by
  have hx := c.x.isLt
  have hy := c.y.isLt
  cases h with
  | east | south =>
    simp only [ahead, OnEdge, at?_eq_none_iff]
    omega
  | north | west =>
    simp only [ahead, OnEdge]
    split
    · rw [at?_eq_none_iff]
      omega
    · simp only [true_iff]
      omega

/-- Seen from the other cell, a side is the opposite one. -/
theorem beside_around_iff {c d : Cell} {h : Heading} : d.Beside h.around c ↔ c.Beside h d := by
  cases h <;> simp only [Heading.around, Heading.left, Beside] <;> omega

/-- There is one cell at most beside another on a side. -/
theorem Beside.unique {c d e : Cell} {h : Heading} (hd : c.Beside h d) (he : c.Beside h e) : d = e := by
  rw [← ahead_eq_some_iff] at hd he
  exact Option.some.inj (hd.symm.trans he)

end Cell

/-! ## Numbers of walls -/

/-- A side is among the bits of a cell exactly if its weight is. -/
theorem Heading.inBits_iff {h : Heading} {bits : Nat} : h.inBits bits = true ↔ bits &&& h.weight ≠ 0 := by
  have hand : ∀ i, (bits / 2 ^ i % 2 == 1) = true ↔ bits &&& 2 ^ i ≠ 0 := by
    intro i
    rw [Nat.and_two_pow, Nat.testBit_eq_decide_div_mod_eq]
    by_cases hbit : bits / 2 ^ i % 2 = 1 <;> simp [hbit]
  cases h with
  | north => exact hand 0
  | east => exact hand 1
  | south => exact hand 2
  | west => exact hand 3

namespace FloorPlan

@[simp] theorem wallsAt_cell (p : FloorPlan) (c : Cell) : p.wallsAt c.x c.y = p.walls.get c := by
  simp [wallsAt]

@[simp] theorem wallAt_cell (p : FloorPlan) (c : Cell) (h : Heading) : p.wallAt c.x c.y h = p.walled c h := by
  simp [wallAt, walled]

/-- The border is the edge of the floor. -/
theorem onBorder_iff {c : Cell} {h : Heading} : onBorder c h = true ↔ c.OnEdge h := by
  rw [onBorder, Option.isNone_iff_eq_none, Cell.ahead_eq_none_iff]

/-- A floor plan that nothing was added to has walls at the edge only. -/
theorem walled_empty {c : Cell} {h : Heading} : empty.walled c h = true ↔ c.OnEdge h := by
  simp [empty, walled, onBorder_iff]

/-! ## One wall and several -/

/-- A wall is seen from the cell it was added to and from the neighbour behind it. -/
theorem walled_build {p : FloorPlan} {c d : Cell} {h k : Heading} :
    (p.build c h).walled d k = true ↔ p.walled d k = true ∨ (d, k) = (c, h) ∨ c.Beside h d ∧ k = h.around := by
  unfold build
  cases ha : c.ahead h with
  | none =>
    have hnot : ¬ c.Beside h d := by simp [← Cell.ahead_eq_some_iff, ha]
    simp [walled_mark, hnot, @eq_comm _ d]
  | some e =>
    have hiff : c.Beside h d ↔ e = d := by simp [← Cell.ahead_eq_some_iff, ha]
    simp [walled_mark, hiff, or_assoc, @eq_comm _ d]

/-- Adds walls on sides of cells, one after the other. -/
def buildAll (p : FloorPlan) (sides : List (Cell × Heading)) : FloorPlan :=
  sides.foldl (fun plan side => plan.build side.1 side.2) p

/-- Building walls is building some of them and then the others. -/
theorem buildAll_append (p : FloorPlan) (sides others : List (Cell × Heading)) :
    p.buildAll (sides ++ others) = (p.buildAll sides).buildAll others := List.foldl_append

/-- The walls behind a list of sides: those there were, the sides, and the sides opposite to them. -/
theorem walled_buildAll {p : FloorPlan} {sides : List (Cell × Heading)} {c : Cell} {k : Heading} :
    (p.buildAll sides).walled c k = true ↔
      p.walled c k = true ∨ (c, k) ∈ sides ∨ ∃ d, c.Beside k d ∧ (d, k.around) ∈ sides := by
  induction sides generalizing p with
  | nil => simp [buildAll]
  | cons side sides ih =>
    obtain ⟨e, h⟩ := side
    -- the side in front is named from behind exactly if the cell is behind it
    have hbehind : e.Beside h c ∧ k = h.around ↔ ∃ d, c.Beside k d ∧ (d, k.around) = (e, h) := by
      constructor
      · rintro ⟨he, rfl⟩
        exact ⟨e, Cell.beside_around_iff.2 he, by simp⟩
      · rintro ⟨d, hd, heq⟩
        obtain ⟨rfl, rfl⟩ := Prod.mk.inj heq
        exact ⟨Cell.beside_around_iff.2 hd, by simp⟩
    change ((p.build e h).buildAll sides).walled c k = true ↔ _
    simp only [ih, walled_build, hbehind, List.mem_cons, and_or_left, exists_or]
    constructor
    · rintro ((hp | hs | hb) | hs | hb)
      · exact .inl hp
      · exact .inr (.inl (.inl hs))
      · exact .inr (.inr (.inl hb))
      · exact .inr (.inl (.inr hs))
      · exact .inr (.inr (.inr hb))
    · rintro (hp | (hs | hs) | (hb | hb))
      · exact .inl (.inl hp)
      · exact .inl (.inr (.inl hs))
      · exact .inr (.inl hs)
      · exact .inl (.inr (.inr hb))
      · exact .inr (.inr hb)

/-! ## Regular plans -/

/-- The outer border is walled, and two neighbours agree about the side between them. -/
structure Regular (p : FloorPlan) : Prop where
  bordered : ∀ c h, c.OnEdge h → p.walled c h = true
  symmetric : ∀ c h d, c.Beside h d → p.walled d h.around = p.walled c h

/-- A floor plan that nothing was added to is regular. -/
theorem regular_empty : empty.Regular where
  bordered := fun _ _ hedge => walled_empty.2 hedge
  symmetric := by
    intro c h d hbeside
    have hc : ¬ c.OnEdge h := by simp [← Cell.ahead_eq_none_iff, Cell.ahead_eq_some_iff.2 hbeside]
    have hd : ¬ d.OnEdge h.around := by
      simp [← Cell.ahead_eq_none_iff, Cell.ahead_eq_some_iff.2 (Cell.beside_around_iff.2 hbeside)]
    rw [Bool.eq_iff_iff, walled_empty, walled_empty]
    simp only [hc, hd]

/-- Whatever walls are added to a regular plan, it stays regular. -/
theorem Regular.buildAll {p : FloorPlan} (hp : p.Regular) (sides : List (Cell × Heading)) : (p.buildAll sides).Regular where
  bordered := fun c h hedge => walled_buildAll.2 (.inl (hp.bordered c h hedge))
  symmetric := by
    intro c h d hbeside
    have hback := Cell.beside_around_iff.2 hbeside
    have hc : ∀ e, c.Beside h e ↔ e = d :=
      fun e => ⟨fun he => he.unique hbeside, fun he => he ▸ hbeside⟩
    have hd : ∀ e, d.Beside h.around e ↔ e = c :=
      fun e => ⟨fun he => he.unique hback, fun he => he ▸ hback⟩
    rw [Bool.eq_iff_iff, walled_buildAll, walled_buildAll, hp.symmetric c h d hbeside]
    -- a side named from one cell is what the other cell sees behind it, so the two cases change places
    simp only [hc, hd, exists_eq_left, Heading.around_around, or_comm]

/-- A regular plan is built from the sides that are walled in it. -/
theorem Regular.eq_buildAll {p : FloorPlan} (h : p.Regular) {sides : List (Cell × Heading)}
    (hsides : ∀ c k, (c, k) ∈ sides ↔ p.walled c k = true) : empty.buildAll sides = p := by
  ext c k
  rw [Bool.eq_iff_iff, walled_buildAll, walled_empty, hsides]
  constructor
  · rintro (hedge | hwall | ⟨d, hbeside, hwall⟩)
    · exact h.bordered c k hedge
    · exact hwall
    · rw [← h.symmetric c k d hbeside]
      exact (hsides d k.around).1 hwall
  · intro hwall
    exact .inr (.inl hwall)

/-! ## Requests -/

/-- A request for walls at a column and a row: one of them, or those that a number of wall bits names. -/
inductive Request where
  | wall (x y : Nat) (side : Heading)
  | walls (x y bits : Nat)
  deriving DecidableEq, Repr

namespace Request

/-- The request is about a cell of the floor. -/
def OnFloor : Request → Prop
  | wall x y _ | walls x y _ => x < width ∧ y < height

instance : (r : Request) → Decidable r.OnFloor
  | wall x y _ | walls x y _ => inferInstanceAs (Decidable (x < width ∧ y < height))

/-- The request names a side of a cell. -/
def Names : Request → Cell → Heading → Prop
  | wall x y side, c, k => c.x.val = x ∧ c.y.val = y ∧ k = side
  | walls x y bits, c, k => c.x.val = x ∧ c.y.val = y ∧ bits &&& k.weight ≠ 0

instance : (r : Request) → (c : Cell) → (k : Heading) → Decidable (r.Names c k)
  | wall .., _, _ | walls .., _, _ => inferInstanceAs (Decidable (_ ∧ _ ∧ _))

/-- The plan behind a request, or why it is refused. -/
def perform (p : FloorPlan) : Request → Except WorldError FloorPlan
  | wall x y side => p.withWall x y side
  | walls x y bits => p.withWalls x y bits

/-- The sides that a request names, in the order in which they are walled. -/
def sides : Request → List (Cell × Heading)
  | wall x y side => (Cell.at? x y).toList.map (·, side)
  | walls x y bits => (Cell.at? x y).toList.flatMap (fun c => (Heading.all.filter (·.inBits bits)).map (c, ·))

/-- The sides that a request is for are those that it names. -/
theorem mem_sides {r : Request} {c : Cell} {k : Heading} : (c, k) ∈ r.sides ↔ r.Names c k := by
  cases r with
  | wall x y side =>
    simp only [sides, Names, List.mem_map, Option.mem_toList, Cell.at?_eq_some_iff, Prod.mk.injEq]
    constructor
    · rintro ⟨d, ⟨hx, hy⟩, rfl, rfl⟩
      exact ⟨hx, hy, rfl⟩
    · rintro ⟨hx, hy, rfl⟩
      exact ⟨c, ⟨hx, hy⟩, rfl, rfl⟩
  | walls x y bits =>
    simp only [sides, Names, List.mem_flatMap, List.mem_map, List.mem_filter, Option.mem_toList, Cell.at?_eq_some_iff,
      Prod.mk.injEq, Heading.mem_all, true_and, Heading.inBits_iff]
    constructor
    · rintro ⟨d, ⟨hx, hy⟩, h, hbits, rfl, rfl⟩
      exact ⟨hx, hy, hbits⟩
    · rintro ⟨hx, hy, hbits⟩
      exact ⟨c, ⟨hx, hy⟩, k, hbits, rfl, rfl⟩

/-- Asking for walls on several sides of a cell, one after the other, builds them. -/
theorem foldlM_withWall {x y : Nat} {c : Cell} (hc : Cell.at? x y = some c) (hs : List Heading) (p : FloorPlan) :
    hs.foldlM (fun plan h => plan.withWall x y h) p = .ok (p.buildAll (hs.map (c, ·))) := by
  induction hs generalizing p with
  | nil => rfl
  | cons h hs ih =>
    rw [List.foldlM_cons, withWall, hc]
    exact ih (p.build c h)

/-- A request for a cell of the floor is granted. -/
theorem perform_of_onFloor {r : Request} (h : r.OnFloor) (p : FloorPlan) : r.perform p = .ok (p.buildAll r.sides) := by
  cases r with
  | wall x y side =>
    obtain ⟨c, hc⟩ := Cell.exists_at? h
    simp [perform, sides, withWall, hc, buildAll]
  | walls x y bits =>
    obtain ⟨c, hc⟩ := Cell.exists_at? h
    simp [perform, sides, withWalls, hc, foldlM_withWall hc]

/-- What is granted off the floor is a request for no wall. -/
theorem eq_buildAll_of_perform {r : Request} {p q : FloorPlan} (h : r.perform p = .ok q) : q = p.buildAll r.sides := by
  by_cases hr : r.OnFloor
  · rw [perform_of_onFloor hr] at h
    exact (Except.ok.inj h).symm
  · cases r with
    | wall x y side =>
      have hnone := Cell.at?_eq_none_iff.2 hr
      simp [perform, withWall, hnone] at h
    | walls x y bits =>
      have hnone := Cell.at?_eq_none_iff.2 hr
      simp only [perform, withWalls] at h
      cases hs : Heading.all.filter (·.inBits bits) with
      | nil =>
        rw [hs] at h
        simpa [sides, hnone, buildAll] using (Except.ok.inj h).symm
      | cons k ks =>
        rw [hs, List.foldlM_cons, withWall, hnone] at h
        nomatch h

end Request

/-- The plan behind requests, one after the other, or why the first one is refused that is. -/
def performAll (p : FloorPlan) (requests : List Request) : Except WorldError FloorPlan :=
  requests.foldlM (fun plan r => r.perform plan) p

/-- Requests that are all on the floor are granted, and all their walls are built. -/
theorem performAll_of_onFloor {requests : List Request} (h : ∀ r ∈ requests, r.OnFloor) (p : FloorPlan) :
    p.performAll requests = .ok (p.buildAll (requests.flatMap Request.sides)) := by
  induction requests generalizing p with
  | nil => rfl
  | cons r requests ih =>
    obtain ⟨hr, hrs⟩ := List.forall_mem_cons.1 h
    rw [performAll, List.foldlM_cons, Request.perform_of_onFloor hr, List.flatMap_cons, buildAll_append]
    exact ih hrs (p.buildAll r.sides)

/-- Requests that are granted build all their walls and nothing else. -/
theorem eq_buildAll_of_performAll {requests : List Request} {p q : FloorPlan} (h : p.performAll requests = .ok q) :
    q = p.buildAll (requests.flatMap Request.sides) := by
  induction requests generalizing p with
  | nil => exact (Except.ok.inj h).symm
  | cons r requests ih =>
    rw [performAll, List.foldlM_cons] at h
    cases hr : r.perform p with
    | error e =>
      rw [hr] at h
      nomatch h
    | ok p₁ =>
      rw [hr] at h
      rw [List.flatMap_cons, buildAll_append, ← Request.eq_buildAll_of_perform hr]
      exact ih h

/-- Requests that are granted leave a regular plan regular. -/
theorem Regular.performAll {requests : List Request} {p q : FloorPlan} (hp : p.Regular)
    (h : p.performAll requests = .ok q) : q.Regular := by
  rw [eq_buildAll_of_performAll h]
  exact hp.buildAll _

/-- The plan was built from the empty one by requests. -/
def Built (p : FloorPlan) : Prop := ∃ requests, empty.performAll requests = .ok p

/-- A floor plan that is built by requests is regular. -/
theorem Built.regular {p : FloorPlan} (h : p.Built) : p.Regular := by
  obtain ⟨requests, h⟩ := h
  exact regular_empty.performAll h

/-- Every regular plan can be built: by asking for the walls it has, cell by cell. -/
theorem Regular.built {p : FloorPlan} (h : p.Regular) : p.Built := by
  let request (c : Cell) : Request := .walls c.x c.y (p.walls.get c).toBits
  refine ⟨Cell.all.map request, ?_⟩
  have hfloor : ∀ r ∈ Cell.all.map request, r.OnFloor := by
    intro r hr
    obtain ⟨c, -, rfl⟩ := List.mem_map.1 hr
    exact ⟨c.x.isLt, c.y.isLt⟩
  rw [performAll_of_onFloor hfloor, h.eq_buildAll]
  intro c k
  have hnames : ∀ d, (request d).Names c k ↔ c = d ∧ p.walled c k = true := by
    intro d
    simp only [Request.Names, ← Heading.inBits_iff, Walls.inBits_toBits, request]
    constructor
    · rintro ⟨hx, hy, hwall⟩
      obtain rfl : c = d := Cell.ext (Fin.ext hx) (Fin.ext hy)
      exact ⟨rfl, hwall⟩
    · rintro ⟨rfl, hwall⟩
      exact ⟨rfl, rfl, hwall⟩
  simp only [List.mem_flatMap, List.mem_map, Request.mem_sides]
  constructor
  · rintro ⟨r, ⟨d, -, rfl⟩, hr⟩
    exact ((hnames d).1 hr).2
  · intro hwall
    exact ⟨request c, ⟨c, Cell.mem_all c, rfl⟩, (hnames c).2 ⟨rfl, hwall⟩⟩

/-- Requests for walls on the floor are granted. Then there is a wall on a side exactly if it is on the outer border, a request
named it, or a request named the opposite side of the neighbour. So neighbours agree; the number of a cell has the bits of its
walled sides and no others; walls that were asked for first are still there; and the same requests in another order, or made
more than once, give the same plan. -/
theorem performAll_walls {requests : List Request} (h : ∀ r ∈ requests, r.OnFloor) :
    ∃ p, empty.performAll requests = .ok p ∧
      (∀ (c : Cell) (k : Heading), p.wallAt c.x c.y k = true ↔
        c.OnEdge k ∨ (∃ r ∈ requests, r.Names c k) ∨ ∃ d, c.Beside k d ∧ ∃ r ∈ requests, r.Names d k.around) ∧
      (∀ (c : Cell) (k : Heading) (d : Cell), c.Beside k d → p.wallAt d.x d.y k.around = p.wallAt c.x c.y k) ∧
      (∀ c : Cell, (p.wallsAt c.x c.y).toBits ≤ 15 ∧
        ∀ k : Heading, (p.wallsAt c.x c.y).toBits &&& k.weight ≠ 0 ↔ p.wallAt c.x c.y k = true) ∧
      (∀ before after, requests = before ++ after →
        ∃ q, empty.performAll before = .ok q ∧
          ∀ (c : Cell) (k : Heading), q.wallAt c.x c.y k = true → p.wallAt c.x c.y k = true) ∧
      ∀ others, (∀ r, r ∈ others ↔ r ∈ requests) → empty.performAll others = .ok p := by
  refine ⟨_, performAll_of_onFloor h _, ?_, ?_, ?_, ?_, ?_⟩
  · intro c k
    simp only [wallAt_cell, walled_buildAll, walled_empty, List.mem_flatMap, Request.mem_sides]
  · intro c k d hbeside
    simpa only [wallAt_cell] using (regular_empty.buildAll _).symmetric c k d hbeside
  · intro c
    simp only [wallsAt_cell, wallAt_cell, ← Heading.inBits_iff, Walls.inBits_toBits]
    exact ⟨Nat.le_of_lt_succ (Walls.toBits_lt _), fun k => Iff.rfl⟩
  · rintro before after rfl
    have hbefore : ∀ r ∈ before, r.OnFloor := fun r hr => h r (List.mem_append_left _ hr)
    refine ⟨_, performAll_of_onFloor hbefore _, ?_⟩
    intro c k hwall
    simp only [wallAt_cell] at hwall ⊢
    rw [List.flatMap_append, buildAll_append]
    exact walled_buildAll.2 (.inl hwall)
  · intro others hsame
    have hothers : ∀ r ∈ others, r.OnFloor := fun r hr => h r ((hsame r).1 hr)
    rw [performAll_of_onFloor hothers]
    congr 1
    ext c k
    rw [Bool.eq_iff_iff, walled_buildAll, walled_buildAll]
    simp only [List.mem_flatMap, hsame]

/-- A wall, every side of the corner, and the first wall again from behind; then the same in another order. -/
theorem performAll_walls_of_corner :
    ∃ p, empty.performAll [.wall 3 4 .east, .walls 9 9 15, .wall 4 4 .west] = .ok p ∧
      empty.performAll [.walls 9 9 15, .wall 4 4 .west, .wall 3 4 .east, .walls 9 9 15] = .ok p ∧
      p.wallAt 9 8 .south = true ∧ p.wallAt 4 4 .east = false := by
  have hfloor : ∀ r ∈ [Request.wall 3 4 .east, .walls 9 9 15, .wall 4 4 .west], r.OnFloor := by decide
  obtain ⟨p, hp, hwalls, -, -, -, hsame⟩ := performAll_walls hfloor
  refine ⟨p, hp, hsame _ ?_, ?_, ?_⟩
  · intro r
    simp only [List.mem_cons, List.not_mem_nil, or_false]
    grind
  · exact (hwalls ⟨9, 8⟩ .south).2 (.inr (.inr ⟨⟨9, 9⟩, by decide, .walls 9 9 15, by decide, by decide⟩))
  · rw [Bool.eq_false_iff]
    intro hwall
    rcases (hwalls ⟨4, 4⟩ .east).1 hwall with hedge | ⟨r, hr, hnames⟩ | ⟨d, hbeside, r, hr, hnames⟩
    · exact absurd hedge (by decide)
    · revert r
      decide
    · obtain rfl : d = ⟨5, 4⟩ := hbeside.unique (by decide)
      revert r
      decide

end FloorPlan

end GridRobot

import GridRobot.Random.Keystream
import GridRobot.World

/-!
# Scattered beepers

An empty floor with beepers scattered over it. The cells are gone through in the order of their numbers, and for each of them a draw
is taken from the seed's sequence: the cell gets a beeper if the draw is below a threshold that stands for the density. A density of
all takes no draws. Beepers can be scattered by any source of draws (`scatterFrom`); the program uses the keystream (`scatter`).
-/

namespace GridRobot

/-- How likely a cell is to get a beeper: surely, or when its draw of 64 bits is below a threshold. -/
inductive Chance where
  | always
  | below (threshold : Nat)
  deriving DecidableEq, Repr

namespace Chance

/-- Whether a draw gives a beeper. -/
def accepts : Chance → Nat → Bool
  | always, _ => true
  | below threshold, v => decide (v < threshold)

/-- Asks a chance whether there is a beeper. This takes a draw from the source, unless it is sure. -/
def ask (chance : Chance) (g : Random.Source) (s : g.State) : Bool × g.State :=
  match chance with
  | always => (true, s)
  | below _ =>
    let (v, s) := g.draw s
    (chance.accepts v, s)

/-- The chance of a density between none and all; what lies outside is moved to the nearer end, and no number at all counts
as none. The threshold is the density's share of the draws, rounded down. -/
def ofDensity (density : Float) : Chance :=
  if 1.0 ≤ density then always
  else if 0.0 < density then below (density * 18446744073709551616.0).toUInt64.toNat
  else below 0

end Chance

namespace World

/-- The world with a beeper in a cell, whether there was one or not. -/
def withBeeper (w : World) (c : Cell) : World :=
  match w.dropInto c with
  | .ok next => next
  | .error _ => w

section

variable (g : Random.Source)

/-- Goes through cells and puts a beeper into each of them for which a chance says so. -/
def scatterOver (chance : Chance) : List Cell → g.State → World → World
  | [], _, w => w
  | c :: cells, s, w =>
    let (given, s) := chance.ask g s
    scatterOver chance cells s (if given then w.withBeeper c else w)

/-- The empty world with beepers scattered over it by a chance. -/
def scatterBy (seed : UInt64) (chance : Chance) : World := scatterOver g chance Cell.all (g.ofSeed seed) empty

/-- The empty world with a share of its cells given a beeper by a source of draws. -/
def scatterFrom (seed : UInt64) (density : Float) : World := scatterBy g seed (Chance.ofDensity density)

end

/-- The empty world with a share of its cells given a beeper by the keystream. -/
def scatter (seed : UInt64) (density : Float) : World := scatterFrom Random.keystream seed density

/-! ## What is scattered over stays -/

theorem withBeeper_eq (w : World) (c : Cell) : w.withBeeper c = { w with beepers := w.beepers.set c true } := by
  unfold withBeeper dropInto
  cases h : w.beepers.get c with
  | false => rfl
  | true =>
    have hsame : w.beepers.set c true = w.beepers := by
      apply Grid.ext
      intro d
      rw [Grid.get_set]
      split
      · rename_i hd
        rw [← hd, h]
      · rfl
    rw [hsame]
    rfl

/-- Scattering beepers changes nothing but the beepers. -/
theorem exists_scatterOver_eq (g : Random.Source) (chance : Chance) (cells : List Cell) (s : g.State) (w : World) :
    ∃ beepers, scatterOver g chance cells s w = { w with beepers } := by
  induction cells generalizing s w with
  | nil => exact ⟨w.beepers, rfl⟩
  | cons c cells ih =>
    obtain ⟨beepers, h⟩ := ih (chance.ask g s).2 (if (chance.ask g s).1 then w.withBeeper c else w)
    refine ⟨beepers, h.trans ?_⟩
    split
    · rw [withBeeper_eq]
    · rfl

theorem exists_scatterFrom_eq (g : Random.Source) (seed : UInt64) (density : Float) :
    ∃ beepers, scatterFrom g seed density = { empty with beepers } := exists_scatterOver_eq ..

end World

end GridRobot

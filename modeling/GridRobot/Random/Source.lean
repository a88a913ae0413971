/-!
# Sources of draws

What chance decides is decided by draws, numbers of 64 bits. A source gives each seed a sequence of them, which depends on the seed
alone. Nothing else is asked of a source, so what is said of a world that chance had a part in is said for every source.
-/

namespace GridRobot.Random

/-- A source of draws. -/
structure Source where
  /-- A place in a sequence of draws. -/
  State : Type
  /-- The beginning of a seed's sequence. -/
  ofSeed : UInt64 → State
  /-- Takes the next draw. -/
  draw : State → Nat × State
  /-- A draw is a number of 64 bits. -/
  draw_lt : ∀ s, (draw s).1 < 18446744073709551616

namespace Source

variable (g : Source)

/-- The draw number `n` from a place on. -/
def nth : (n : Nat) → g.State → Nat
  | 0, s => (g.draw s).1
  | n + 1, s => nth n (g.draw s).2

/-- The draw number `n` of a seed. -/
def drawOf (seed : UInt64) (n : Nat) : Nat := g.nth n (g.ofSeed seed)

theorem nth_lt (n : Nat) (s : g.State) : g.nth n s < 18446744073709551616 := by
  induction n generalizing s with
  | zero => exact g.draw_lt s
  | succ n ih => exact ih (g.draw s).2

theorem drawOf_lt (seed : UInt64) (n : Nat) : g.drawOf seed n < 18446744073709551616 := g.nth_lt n (g.ofSeed seed)

end Source

end GridRobot.Random

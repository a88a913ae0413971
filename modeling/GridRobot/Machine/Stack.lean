import GridRobot.Machine.Fault

/-!
# Bounded stacks

A stack that holds no more than a number of values, and knows what to report when it would hold more or has nothing to give.
-/

namespace GridRobot

/-- A stack; the value on top comes first. -/
structure Stack (α : Type) where
  limit : Nat
  overflow : FaultCause
  underflow : FaultCause
  items : List α
  deriving DecidableEq, Repr

namespace Stack

variable {α : Type}

/-- A stack without values. -/
def empty (limit : Nat) (overflow underflow : FaultCause) : Stack α := ⟨limit, overflow, underflow, []⟩

/-- The number of values. -/
def size (s : Stack α) : Nat := s.items.length

/-- Whether there is no value. -/
def isEmpty (s : Stack α) : Bool := s.items.isEmpty

/-- The stack without its values. -/
def clear (s : Stack α) : Stack α := { s with items := [] }

/-- The value on top. -/
def top? (s : Stack α) : Option α := s.items.head?

/-- Puts a value on top. -/
def push (s : Stack α) (a : α) : Except FaultCause (Stack α) :=
  if s.size < s.limit then .ok { s with items := a :: s.items } else .error s.overflow

/-- Takes the value on top. -/
def pop (s : Stack α) : Except FaultCause (α × Stack α) :=
  match s.items with
  | [] => .error s.underflow
  | a :: rest => .ok (a, { s with items := rest })

/-- Takes two values, the lower one given first. If there is only one, it is taken all the same. -/
def pop₂ (s : Stack α) : Stack α × Except FaultCause (α × α) :=
  match s.items with
  | [] | [_] => (s.clear, .error s.underflow)
  | b :: a :: rest => ({ s with items := rest }, .ok (a, b))

/-- Changes the value on top. -/
def modifyTop (s : Stack α) (f : α → α) : Except FaultCause (Stack α) :=
  match s.items with
  | [] => .error s.underflow
  | a :: rest => .ok { s with items := f a :: rest }

/-- The values from the bottom to the top. -/
def toList (s : Stack α) : List α := s.items.reverse

/-! Values come and go; what is left without them stays. -/

section

variable {s t : Stack α} {a : α}

theorem clear_of_push (h : s.push a = .ok t) : t.clear = s.clear := by
  unfold push at h
  split at h
  · obtain rfl := Except.ok.inj h
    rfl
  · nomatch h

theorem clear_of_pop (h : s.pop = .ok (a, t)) : t.clear = s.clear := by
  unfold pop at h
  split at h
  · nomatch h
  · obtain ⟨-, rfl⟩ := Prod.mk.inj (Except.ok.inj h)
    rfl

theorem clear_of_modifyTop {f : α → α} (h : s.modifyTop f = .ok t) : t.clear = s.clear := by
  unfold modifyTop at h
  split at h
  · nomatch h
  · obtain rfl := Except.ok.inj h
    rfl

theorem clear_pop₂ (s : Stack α) : s.pop₂.1.clear = s.clear := by
  unfold pop₂
  split <;> rfl

end

end Stack

end GridRobot

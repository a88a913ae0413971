import GridRobot.Machine
import GridRobot.Proofs.Machine.Coding

/-!
# What a step can do

What an operation does to the machine (`Does`), why it cannot be done and what it leaves then (`Refuses`), and what becomes of a
machine in one step (`Transition`). Two things that the machine is ready for do not happen as long as the condition stack is within
its limit and the program counter is in memory: an operator always has room for its result, and there is always an instruction to
fetch. A return that finds a call to go back from never fails, and neither does taking away a count that was counted down.
-/

namespace GridRobot

namespace Opcode

/-- What an operator makes of two conditions. -/
def connective? : Opcode → Option (Bool → Bool → Bool)
  | and => some (· && ·)
  | or => some (· || ·)
  | xor => some (· != ·)
  | _ => none

/-- Where a conditional jump goes, and on which condition. -/
def test? : Opcode → Option (Nat × Bool)
  | jumpUnless target => some (target, false)
  | jumpIf target => some (target, true)
  | _ => none

end Opcode

namespace Machine

/-- What an operation does that was taken from an address: the machine behind it, and the address that comes next. -/
inductive Does (m : Machine) (a : Nat) : Opcode → Machine → Nat → Prop
  | halt (h : m.calls.items = []) : Does m a .ret { m with halted := true } a
  | goBack {back : Nat} {rest : List Nat} (h : m.calls.items = back :: rest) :
      Does m a .ret { m with calls.items := rest } back
  | act {x : Action} {w : World} (h : x.perform m.world = .ok w) : Does m a (.act x) { m with world := w } (a + 1)
  | sense {s : Sensor} (h : m.conditions.size < m.conditions.limit) :
      Does m a (.sense s) { m with conditions.items := s.read m.world :: m.conditions.items } (a + 1)
  | not {x : Bool} {rest : List Bool} (h : m.conditions.items = x :: rest) :
      Does m a .not { m with conditions.items := (!x) :: rest } (a + 1)
  | combine {op : Opcode} {f : Bool → Bool → Bool} {x y : Bool} {rest : List Bool} (hop : op.connective? = some f)
      (h : m.conditions.items = y :: x :: rest) : Does m a op { m with conditions.items := f x y :: rest } (a + 1)
  | push {count : Nat} (h : m.loops.size < m.loops.limit) :
      Does m a (.push count) { m with loops.items := count :: m.loops.items } (a + 1)
  | again {target count : Nat} {rest : List Nat} (h : m.loops.items = count :: rest) (hc : 1 < count) :
      Does m a (.loop target) { m with loops.items := (count - 1) :: rest } (target + 1)
  | last {target count : Nat} {rest : List Nat} (h : m.loops.items = count :: rest) (hc : count ≤ 1) :
      Does m a (.loop target) { m with loops.items := rest } (a + 1)
  | call {target : Nat} (h : m.calls.size < m.calls.limit) :
      Does m a (.call target) { m with calls.items := (a + 1) :: m.calls.items } target
  | jump {target : Nat} : Does m a (.jump target) m target
  | test {op : Opcode} {target : Nat} {b x : Bool} {rest : List Bool} (hop : op.test? = some (target, b))
      (h : m.conditions.items = x :: rest) :
      Does m a op { m with conditions.items := rest } (if x = b then target else a + 1)

/-- Why an operation cannot be done, and the machine that it leaves. -/
inductive Refuses (m : Machine) : Opcode → Machine → FaultCause → Prop
  | act {x : Action} {e : WorldError} (h : x.perform m.world = .error e) : Refuses m (.act x) m (.world e)
  | sense {s : Sensor} (h : m.conditions.limit ≤ m.conditions.size) : Refuses m (.sense s) m m.conditions.overflow
  | not (h : m.conditions.items = []) : Refuses m .not m m.conditions.underflow
  | combine {op : Opcode} {f : Bool → Bool → Bool} (hop : op.connective? = some f) (h : m.conditions.size < 2) :
      Refuses m op { m with conditions := m.conditions.clear } m.conditions.underflow
  | push {count : Nat} (h : m.loops.limit ≤ m.loops.size) : Refuses m (.push count) m m.loops.overflow
  | loop {target : Nat} (h : m.loops.items = []) : Refuses m (.loop target) m m.loops.underflow
  | call {target : Nat} (h : m.calls.limit ≤ m.calls.size) : Refuses m (.call target) m m.calls.overflow
  | test {op : Opcode} {target : Nat} {b : Bool} (hop : op.test? = some (target, b)) (h : m.conditions.items = []) :
      Refuses m op m m.conditions.underflow

/-- An operation is done, or refused for a reason. -/
inductive Performs (m : Machine) (a : Nat) (op : Opcode) : Outcome → Prop
  | done {m' : Machine} {next : Nat} (h : m.Does a op m' next) : Performs m a op (m', .ok next)
  | refused {m' : Machine} {cause : FaultCause} (h : m.Refuses op m' cause) : Performs m a op (m', .error cause)

section

variable (m : Machine) (a : Nat)

/-- A return goes back behind the last call, or halts. -/
theorem goBack_performs : m.Performs a .ret (m.goBack a) := by
  unfold goBack Stack.pop
  cases h : m.calls.items with
  | nil => simpa [Stack.isEmpty, h] using Performs.done (.halt h)
  | cons back rest => simpa [Stack.isEmpty, h] using Performs.done (.goBack h)

/-- The end of a repeat goes back, goes on, or is refused with an empty loop stack. -/
theorem countDown_performs (target : Nat) : m.Performs a (.loop target) (m.countDown (a + 1) target) := by
  unfold countDown Stack.modifyTop
  cases h : m.loops.items with
  | nil => exact .refused (.loop h)
  | cons count rest =>
    by_cases hc : 1 < count
    · have hpos : 0 < count - 1 := by omega
      simpa [Stack.top?, hpos] using Performs.done (.again h hc)
    · have hzero : ¬ 0 < count - 1 := by omega
      simpa [Stack.top?, Stack.pop, hzero] using Performs.done (.last h (Nat.not_lt.1 hc))

/-- A jump on a condition takes it, or is refused with an empty condition stack. -/
theorem branch_performs {op : Opcode} {target : Nat} {b : Bool} (hop : op.test? = some (target, b)) :
    m.Performs a op (m.branch (a + 1) target b) := by
  unfold branch Stack.pop
  cases h : m.conditions.items with
  | nil => exact .refused (.test hop h)
  | cons x rest => exact .done (.test hop h)

/-- A connective takes two conditions and leaves one, or is refused with fewer than two. -/
theorem combine_performs {op : Opcode} {f : Bool → Bool → Bool} (hop : op.connective? = some f)
    (hroom : m.conditions.size ≤ m.conditions.limit) : m.Performs a op (m.combine (a + 1) f) := by
  unfold combine Stack.pop₂
  match h : m.conditions.items with
  | [] | [_] => exact .refused (.combine hop (by simp [Stack.size, h]))
  | y :: x :: rest =>
    -- two conditions were taken, so there is room for one
    have hlt : rest.length < m.conditions.limit := by
      simp only [Stack.size, h, List.length_cons] at hroom
      omega
    simpa [pushCondition, continueWith, Stack.push, Stack.size, hlt] using Performs.done (.combine hop h)

/-- Every operation is done, or refused for a reason. -/
theorem perform_performs (hroom : m.conditions.size ≤ m.conditions.limit) (op : Opcode) :
    m.Performs a op (m.perform a op) := by
  cases op with
  | ret => exact m.goBack_performs a
  | act x =>
    simp only [perform, continueWith]
    cases h : x.perform m.world with
    | ok w => exact .done (.act h)
    | error e => exact .refused (.act h)
  | sense s =>
    simp only [perform, pushCondition, continueWith, Stack.push]
    by_cases h : m.conditions.size < m.conditions.limit
    · simpa only [if_pos h] using Performs.done (.sense h)
    · simpa only [if_neg h] using Performs.refused (.sense (Nat.not_lt.1 h))
  | not =>
    simp only [perform, continueWith, Stack.modifyTop]
    cases h : m.conditions.items with
    | nil => exact .refused (.not h)
    | cons x rest => exact .done (.not h)
  | and | or | xor => exact m.combine_performs a rfl hroom
  | push count =>
    simp only [perform, continueWith, Stack.push]
    by_cases h : m.loops.size < m.loops.limit
    · simpa only [if_pos h] using Performs.done (.push h)
    · simpa only [if_neg h] using Performs.refused (.push (Nat.not_lt.1 h))
  | loop target => exact m.countDown_performs a target
  | call target =>
    simp only [perform, continueWith, Stack.push]
    by_cases h : m.calls.size < m.calls.limit
    · simpa only [if_pos h] using Performs.done (.call h)
    · simpa only [if_neg h] using Performs.refused (.call (Nat.not_lt.1 h))
  | jump target => exact .done .jump
  | jumpUnless target | jumpIf target => exact m.branch_performs a rfl

end

/-! ## Steps -/

/-- What becomes of a machine in one step: what is reported, and the machine behind it. -/
inductive Transition (m : Machine) : Except Fault Step × Machine → Prop
  | faulted {f : Fault} (h : m.fault = some f) : Transition m (.error f, m)
  | halted (hf : m.fault = none) (h : m.halted = true) : Transition m (.ok (m.report m.pc .blank false), m)
  | done {i : Instruction} {op : Opcode} {m' : Machine} {next : Nat} (hf : m.fault = none) (hh : m.halted = false)
      (hi : m.program.get? m.pc = some i) (hop : i.decode = some op) (hd : m.Does m.pc op m' next)
      (hnext : next < memorySize) :
      Transition m (.ok (({ m' with pc := next } : Machine).report m.pc i i.pauses), { m' with pc := next })
  | outside {i : Instruction} {op : Opcode} {m' : Machine} {next : Nat} (hf : m.fault = none) (hh : m.halted = false)
      (hi : m.program.get? m.pc = some i) (hop : i.decode = some op) (hd : m.Does m.pc op m' next)
      (hnext : memorySize ≤ next) : Transition m (m'.fail ⟨.addressOutOfRange, m.pc⟩)
  | refused {i : Instruction} {op : Opcode} {m' : Machine} {cause : FaultCause} (hf : m.fault = none)
      (hh : m.halted = false) (hi : m.program.get? m.pc = some i) (hop : i.decode = some op)
      (hr : m.Refuses op m' cause) : Transition m (m'.fail ⟨cause, m.pc⟩)
  | illegal {i : Instruction} (hf : m.fault = none) (hh : m.halted = false) (hi : m.program.get? m.pc = some i)
      (hop : i.decode = none) : Transition m (m.fail ⟨.illegalWord i.word, m.pc⟩)

theorem exists_get? {p : Program} {a : Nat} (h : a < memorySize) : ∃ i, p.get? a = some i :=
  ⟨p.memory[a], Vector.getElem?_eq_getElem h⟩

/-- Every step is one of these. -/
theorem step_transition {m : Machine} (hpc : m.pc < memorySize) (hroom : m.conditions.size ≤ m.conditions.limit) :
    m.Transition m.step := by
  unfold step
  cases hf : m.fault with
  | some f => exact .faulted hf
  | none =>
    cases hh : m.halted with
    | true => exact .halted hf hh
    | false =>
      obtain ⟨i, hi⟩ := exists_get? (p := m.program) hpc
      cases hop : i.decode with
      | none => simpa [hi, retire, hop] using Transition.illegal hf hh hi hop
      | some op =>
        cases hp : m.perform m.pc op with
        | mk m' result =>
          have hperforms := m.perform_performs m.pc hroom op
          rw [hp] at hperforms
          cases hperforms with
          | @done _ next hd =>
            by_cases hnext : next < memorySize
            · simpa [hi, retire, hop, hp, hnext] using Transition.done hf hh hi hop hd hnext
            · simpa [hi, retire, hop, hp, hnext] using Transition.outside hf hh hi hop hd (Nat.not_lt.1 hnext)
          | refused hr => simpa [hi, retire, hop, hp] using Transition.refused hf hh hi hop hr

end Machine

end GridRobot

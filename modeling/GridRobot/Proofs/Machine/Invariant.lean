import GridRobot.Proofs.Machine.Batch
import GridRobot.Proofs.Machine.Effect
import GridRobot.Proofs.World.Reach

/-!
# What holds of every machine

Whatever words are in memory and however small the limits are, a machine that is stepped, run, rewound, loaded anew and put into
other worlds stays sound: its program counter is in memory, its stacks are within their limits and hold what can be put there, and
its world is one that can be reached. `Sound.step` is the one step, `Reachable.sound` the whole use of a machine.
-/

namespace GridRobot

/-! ## Stacks with a limit -/

/-- A stack of a machine: it has the limit and the reports it was made with, holds no more values than that, and only values of one
kind. -/
structure Stack.Keeps {α : Type} (s : Stack α) (limit : Nat) (overflow underflow : FaultCause) (P : α → Prop) : Prop where
  limit_eq : s.limit = limit
  overflow_eq : s.overflow = overflow
  underflow_eq : s.underflow = underflow
  size_le : s.size ≤ limit
  each : ∀ a ∈ s.items, P a

namespace Stack.Keeps

variable {α : Type} {s : Stack α} {limit : Nat} {overflow underflow : FaultCause} {P : α → Prop}

theorem empty (limit : Nat) (overflow underflow : FaultCause) (P : α → Prop) :
    (Stack.empty limit overflow underflow).Keeps limit overflow underflow P :=
  ⟨rfl, rfl, rfl, Nat.zero_le _, nofun⟩

theorem clear (h : s.Keeps limit overflow underflow P) : s.clear.Keeps limit overflow underflow P :=
  ⟨h.limit_eq, h.overflow_eq, h.underflow_eq, Nat.zero_le _, nofun⟩

/-- A value of the kind can be put on top as long as there is room. -/
theorem push {a : α} (h : s.Keeps limit overflow underflow P) (hroom : s.size < s.limit) (ha : P a) :
    { s with items := a :: s.items }.Keeps limit overflow underflow P where
  limit_eq := h.limit_eq
  overflow_eq := h.overflow_eq
  underflow_eq := h.underflow_eq
  size_le := by
    rw [h.limit_eq] at hroom
    exact hroom
  each := List.forall_mem_cons.2 ⟨ha, h.each⟩

/-- The value on top can be taken. -/
theorem pop {a : α} {rest : List α} (h : s.Keeps limit overflow underflow P) (hs : s.items = a :: rest) :
    P a ∧ { s with items := rest }.Keeps limit overflow underflow P := by
  have hsize := h.size_le
  have heach := h.each
  rw [Stack.size, hs] at hsize
  rw [hs] at heach
  obtain ⟨ha, hrest⟩ := List.forall_mem_cons.1 heach
  exact ⟨ha, h.limit_eq, h.overflow_eq, h.underflow_eq, Nat.le_of_succ_le hsize, hrest⟩

/-- The value on top can be replaced by another one of the kind. -/
theorem replace {a b : α} {rest : List α} (h : s.Keeps limit overflow underflow P) (hs : s.items = a :: rest) (hb : P b) :
    { s with items := b :: rest }.Keeps limit overflow underflow P where
  limit_eq := h.limit_eq
  overflow_eq := h.overflow_eq
  underflow_eq := h.underflow_eq
  size_le := by
    have hsize := h.size_le
    rw [Stack.size, hs] at hsize
    exact hsize
  each := List.forall_mem_cons.2 ⟨hb, (h.pop hs).2.each⟩

end Stack.Keeps

/-! ## What a stack has to give -/

namespace Stack

variable {α : Type} {s t : Stack α}

/-- A value can be taken from a stack that is not empty. -/
theorem exists_pop (h : s.isEmpty = false) : ∃ a rest, s.pop = .ok (a, rest) := by
  unfold pop
  cases hs : s.items with
  | nil => simp [isEmpty, hs] at h
  | cons a rest => exact ⟨a, _, rfl⟩

/-- Where the value on top was changed, there still is one. -/
theorem isEmpty_of_modifyTop {f : α → α} (h : s.modifyTop f = .ok t) : t.isEmpty = false := by
  unfold modifyTop at h
  split at h
  · nomatch h
  · obtain rfl := Except.ok.inj h
    rfl

/-- Where two values were taken there is room for one. -/
theorem exists_push_of_pop₂ {a b : α} (hroom : s.size ≤ s.limit) (h : s.pop₂ = (t, .ok (a, b))) (c : α) :
    ∃ u, t.push c = .ok u := by
  unfold pop₂ at h
  split at h
  · nomatch (Prod.mk.inj h).2
  · nomatch (Prod.mk.inj h).2
  · rename_i hs
    obtain ⟨rfl, -⟩ := Prod.mk.inj h
    simp only [size, hs, List.length_cons] at hroom
    exact ⟨_, if_pos (by simp only [size]; omega)⟩

end Stack

namespace Machine

/-! ## Sound machines -/

/-- What holds of every machine. -/
structure Sound (limits : Limits) (m : Machine) : Prop where
  pc_lt : m.pc < memorySize
  /-- A call returns behind an instruction. -/
  calls : m.calls.Keeps limits.calls .stackOverflow .stackOverflow (fun a => 1 ≤ a ∧ a ≤ memorySize)
  /-- A repeat count fits into an instruction. -/
  loops : m.loops.Keeps limits.loops .loopOverflow .loopUnderflow (· < Opcode.operands)
  conditions : m.conditions.Keeps limits.conditions .conditionOverflow .conditionUnderflow (fun _ => True)
  origin : m.origin.floor.Regular
  world : m.world.floor.Regular
  /-- A machine that has halted has not faulted. -/
  apart : m.halted = true → m.fault = none

namespace Sound

variable {limits : Limits} {m m' : Machine}

/-- The condition stack is within its own limit. -/
theorem room (h : m.Sound limits) : m.conditions.size ≤ m.conditions.limit :=
  h.conditions.limit_eq ▸ h.conditions.size_le

/-- A machine that is started in a world with a regular floor plan is sound. -/
theorem start (p : Program) {w : World} (hw : w.floor.Regular) : (Machine.start p w limits).Sound limits where
  pc_lt := Nat.succ_pos _
  calls := .empty _ _ _ _
  loops := .empty _ _ _ _
  conditions := .empty _ _ _ _
  origin := hw
  world := hw
  apart := nofun

/-- A machine that is rewound stays sound. -/
theorem reset (h : m.Sound limits) : m.reset.Sound limits where
  pc_lt := Nat.succ_pos _
  calls := h.calls.clear
  loops := h.loops.clear
  conditions := h.conditions.clear
  origin := h.origin
  world := h.origin
  apart := nofun

/-- A machine that another program is loaded into stays sound. -/
theorem load (h : m.Sound limits) (p : Program) : (m.load p).Sound limits :=
  reset { h with : Sound limits { m with program := p } }

/-- A machine that is put into another world with a regular floor plan stays sound. -/
theorem setWorld (h : m.Sound limits) {w : World} (hw : w.floor.Regular) : (m.setWorld w).Sound limits :=
  reset { h with origin := hw : Sound limits { m with origin := w } }

/-- An operation that is done leaves the machine sound, except for where it goes next. -/
theorem does {op : Opcode} {next : Nat} (h : m.Sound limits) (hf : m.fault = none) (hfit : op.Fits)
    (hd : m.Does m.pc op m' next) : m'.Sound limits := by
  cases hd with
  | halt => exact { h with apart := fun _ => hf }
  | goBack hs => exact { h with calls := (h.calls.pop hs).2 }
  | act hw => exact { h with world := World.floor_of_perform hw ▸ h.world }
  | sense hroom => exact { h with conditions := h.conditions.push hroom trivial }
  | not hs => exact { h with conditions := h.conditions.replace hs trivial }
  | combine _ hs => exact { h with conditions := (h.conditions.pop hs).2.replace rfl trivial }
  | push hroom => exact { h with loops := h.loops.push hroom (hfit _ rfl) }
  | again hs =>
    have hcount := (h.loops.pop hs).1
    exact { h with loops := h.loops.replace hs (Nat.lt_of_le_of_lt (Nat.sub_le _ _) hcount) }
  | last hs => exact { h with loops := (h.loops.pop hs).2 }
  | call hroom => exact { h with calls := h.calls.push hroom ⟨Nat.succ_pos _, h.pc_lt⟩ }
  | jump => exact h
  | test _ hs => exact { h with conditions := (h.conditions.pop hs).2 }

/-- So does one that is refused. -/
theorem refuses {op : Opcode} {cause : FaultCause} (h : m.Sound limits) (hr : m.Refuses op m' cause) :
    m'.Sound limits := by
  cases hr with
  | combine => exact { h with conditions := h.conditions.clear }
  | act | sense | not | push | loop | call | test => exact h

/-- A fault leaves everything else as it was, so the machine stays sound. -/
theorem fail (h : m.Sound limits) (hh : m.halted = false) (f : Fault) : (m.fail f).2.Sound limits :=
  { h with apart := fun hhalted => nomatch hh.symm.trans hhalted }

/-- Only a return halts the machine, and then it goes on where it is. -/
theorem next_of_halted {op : Opcode} {a next : Nat} (hd : m.Does a op m' next) (hh : m.halted = false)
    (hhalted : m'.halted = true) : next = a := by
  cases hd with
  | halt => rfl
  | _ => nomatch hh.symm.trans hhalted

/-- An operation that is refused does not halt the machine. -/
theorem halted_of_refuses {op : Opcode} {cause : FaultCause} (hr : m.Refuses op m' cause) : m'.halted = m.halted := by
  cases hr <;> rfl

/-- The operation of an instruction fits. -/
theorem fits_of_decode {i : Instruction} {op : Opcode} (h : i.decode = some op) : op.Fits :=
  (Opcode.encode_of_decode h).2

/-- A step leaves the machine sound. -/
theorem step (h : m.Sound limits) : m.step.2.Sound limits := by
  have ht := step_transition h.pc_lt h.room
  generalize m.step = result at ht
  cases ht with
  | faulted | halted => exact h
  | done hf _ _ hop hd hnext => exact { h.does hf (fits_of_decode hop) hd with pc_lt := hnext }
  | @outside _ _ m' _ hf hh _ hop hd hnext =>
    refine (h.does hf (fits_of_decode hop) hd).fail ?_ _
    rw [Bool.eq_false_iff]
    intro hhalted
    rw [next_of_halted hd hh hhalted] at hnext
    exact absurd h.pc_lt (Nat.not_lt.2 hnext)
  | refused _ hh _ _ hr => exact (h.refuses hr).fail ((halted_of_refuses hr).trans hh) _
  | illegal _ hh => exact h.fail hh _

/-- A machine stays sound after any number of steps. -/
theorem after (h : m.Sound limits) (n : Nat) : (m.after n).Sound limits :=
  after_induction step h n

/-- A batch of steps leaves the machine sound. -/
theorem execute (h : m.Sound limits) (interrupted : Bool) (cycles : Nat) :
    (m.execute interrupted cycles).2.Sound limits := by
  obtain ⟨n, hn⟩ := m.exists_after_of_execute interrupted cycles
  rw [hn]
  exact h.after n

end Sound

/-! ## Machines in use -/

/-- The machine comes of the use of one that was started with these limits: of single steps, of batches of steps, of rewinding it
and of giving it another program or another world. -/
inductive Reachable (limits : Limits) : Machine → Prop
  | start (p : Program) {w : World} (hw : w.Reachable) : Reachable limits (start p w limits)
  | step {m : Machine} (h : Reachable limits m) : Reachable limits m.step.2
  | execute {m : Machine} (h : Reachable limits m) (interrupted : Bool) (cycles : Nat) :
      Reachable limits (m.execute interrupted cycles).2
  | reset {m : Machine} (h : Reachable limits m) : Reachable limits m.reset
  | load {m : Machine} (h : Reachable limits m) (p : Program) : Reachable limits (m.load p)
  | setWorld {m : Machine} (h : Reachable limits m) {w : World} (hw : w.Reachable) : Reachable limits (m.setWorld w)

/-- Whatever a machine has been through, it is sound. -/
theorem Reachable.sound {limits : Limits} {m : Machine} (h : m.Reachable limits) : m.Sound limits := by
  induction h with
  | start p hw => exact .start p hw.regular
  | step _ ih => exact ih.step
  | execute _ interrupted cycles ih => exact ih.execute interrupted cycles
  | reset _ ih => exact ih.reset
  | load _ p ih => exact ih.load p
  | setWorld _ hw ih => exact ih.setWorld hw.regular

/-- What holds of every machine in use, whatever its words and its limits are: the program counter is in memory; no stack is above
its limit; a call returns behind an instruction, and a count fits into one; the robot is on the floor, whose plan is regular, and no
beeper is beyond it; the machine has not both halted and faulted. So there is always an instruction to fetch, a return that finds
calls can go back from the last, a count that was counted down can be taken away, and an operator that has taken its conditions has
room for what it makes of them. -/
theorem reachable_invariant {limits : Limits} {m : Machine} (h : m.Reachable limits) :
    m.pc < memorySize ∧
      (m.calls.size ≤ limits.calls ∧ m.loops.size ≤ limits.loops ∧ m.conditions.size ≤ limits.conditions) ∧
      (∀ a ∈ m.calls.items, 1 ≤ a ∧ a ≤ memorySize) ∧
      (∀ count ∈ m.loops.items, count ≤ 4095) ∧
      (m.world.robot.x.val < width ∧ m.world.robot.y.val < height) ∧
      m.world.floor.Regular ∧
      (∀ i, 100 ≤ i → m.world.beeperBits.testBit i = false) ∧
      ¬ (m.halted = true ∧ m.fault.isSome = true) ∧
      (∃ i, m.program.get? m.pc = some i) ∧
      (m.calls.isEmpty = false → ∃ back calls, m.calls.pop = .ok (back, calls)) ∧
      (∀ loops, m.loops.modifyTop (· - 1) = .ok loops → ∃ count rest, loops.pop = .ok (count, rest)) ∧
      ∀ rest a b, m.conditions.pop₂ = (rest, .ok (a, b)) → ∀ c, ∃ conditions, rest.push c = .ok conditions := by
  have hs := h.sound
  refine ⟨hs.pc_lt, ⟨hs.calls.size_le, hs.loops.size_le, hs.conditions.size_le⟩, hs.calls.each, ?_,
    ⟨m.world.robot.x.isLt, m.world.robot.y.isLt⟩, hs.world, fun i hi => World.testBit_beeperBits_of_le hi, ?_,
    exists_get? hs.pc_lt, Stack.exists_pop, ?_, ?_⟩
  · intro count hcount
    exact Nat.le_of_lt_succ (hs.loops.each count hcount)
  · rintro ⟨hhalted, hfault⟩
    rw [hs.apart hhalted] at hfault
    nomatch hfault
  · intro loops hloops
    exact Stack.exists_pop (Stack.isEmpty_of_modifyTop hloops)
  · intro rest a b hpop c
    exact Stack.exists_push_of_pop₂ hs.room hpop c

/-- A command that calls itself, with room for four calls, in a world without walls inside. -/
theorem reachable_invariant_of_recursion :
    ∃ m : Machine, m = ((start (Program.empty.replace 0 ⟨0xa000, 1⟩) World.empty ⟨4, 0, 0⟩).execute false 100).2 ∧
      m.Reachable ⟨4, 0, 0⟩ ∧ m.pc < memorySize ∧ m.calls.size ≤ 4 ∧ (∀ a ∈ m.calls.items, 1 ≤ a ∧ a ≤ memorySize) ∧
      m.world.floor.Regular ∧ ¬ (m.halted = true ∧ m.fault.isSome = true) := by
  have hstart : (start (Program.empty.replace 0 ⟨0xa000, 1⟩) World.empty ⟨4, 0, 0⟩).Reachable ⟨4, 0, 0⟩ := .start _ .empty
  have hreach := hstart.execute false 100
  obtain ⟨hpc, ⟨hcalls, -, -⟩, heach, -, -, hfloor, -, hapart, -⟩ := reachable_invariant hreach
  exact ⟨_, rfl, hreach, hpc, hcalls, heach, hfloor, hapart⟩

end Machine

end GridRobot

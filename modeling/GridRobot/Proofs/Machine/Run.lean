import GridRobot.Machine
import GridRobot.Proofs.Machine.Coding
import GridRobot.Proofs.Program.Memory

/-!
# Runs of the machine

What a machine is after a number of steps. A path is a run in front of each of whose steps the machine is going: it has neither
halted nor faulted, and its program counter is at an instruction that was put into memory. Paths are put together; a run that has
ended stays as it is, so it ends in one way only.
-/

namespace GridRobot

namespace Machine

/-- The machine after a number of steps. -/
def after (m : Machine) : Nat → Machine
  | 0 => m
  | n + 1 => m.step.2.after n

/-- A number of steps can be split in two. -/
theorem after_add (m : Machine) (n k : Nat) : m.after (n + k) = (m.after n).after k := by
  induction n generalizing m with
  | zero => rw [Nat.zero_add]; rfl
  | succ n ih => rw [Nat.succ_add]; exact ih m.step.2

/-- What every step keeps holds after any number of them. -/
theorem after_induction {P : Machine → Prop} (hstep : ∀ {m}, P m → P m.step.2) {m : Machine} (h : P m) (n : Nat) :
    P (m.after n) := by
  induction n generalizing m with
  | zero => exact h
  | succ n ih => exact ih (hstep h)

/-- The machine has neither halted nor faulted, and its next instruction was put into memory. -/
structure Going (m : Machine) : Prop where
  awake : m.halted = false
  sound : m.fault = none
  inside : m.pc < m.program.size

/-- The machine has halted or faulted. -/
def Ended (m : Machine) : Prop := m.halted = true ∨ m.fault.isSome = true

/-- A machine that is going has not ended. -/
theorem Going.not_ended {m : Machine} (h : m.Going) : ¬ m.Ended := by
  rintro (he | he)
  · rw [h.awake] at he
    nomatch he
  · rw [h.sound] at he
    nomatch he

/-- A machine that has ended stays as it is. -/
theorem Ended.after {m : Machine} (h : m.Ended) (n : Nat) : m.after n = m := by
  have hstep : m.step.2 = m := by
    unfold step
    split
    · rfl
    · rename_i hf
      rcases h with h | h
      · rw [if_pos h]
      · rw [hf] at h
        nomatch h
  refine after_induction (P := (· = m)) ?_ rfl n
  rintro _ rfl
  exact hstep

/-- A run ends in one way only. -/
theorem Ended.unique {m : Machine} {n k : Nat} (hn : (m.after n).Ended) (hk : (m.after k).Ended) :
    m.after n = m.after k := by
  calc m.after n = m.after (n + k) := by rw [after_add, hn.after]
    _ = m.after (k + n) := by rw [Nat.add_comm]
    _ = m.after k := by rw [after_add, hk.after]

/-! ## Paths -/

/-- So many steps lead from one machine to another, and the machine is going in front of each of them. -/
structure Path (n : Nat) (m m' : Machine) : Prop where
  arrives : m.after n = m'
  going : ∀ i < n, (m.after i).Going

namespace Path

theorem refl (m : Machine) : Path 0 m m := ⟨rfl, fun i hi => absurd hi (Nat.not_lt_zero i)⟩

/-- The step of a machine that is going is a path. -/
theorem one {m m' : Machine} (hg : m.Going) (h : m.step.2 = m') : Path 1 m m' := by
  refine ⟨h, ?_⟩
  intro i hi
  obtain rfl : i = 0 := by omega
  exact hg

/-- Paths compose. -/
theorem trans {n k : Nat} {m m' m'' : Machine} (h : Path n m m') (h' : Path k m' m'') : Path (n + k) m m'' := by
  obtain ⟨rfl, hg⟩ := h
  obtain ⟨rfl, hg'⟩ := h'
  refine ⟨after_add m n k, ?_⟩
  intro i hi
  rcases Nat.lt_or_ge i n with hlt | hge
  · exact hg i hlt
  · obtain ⟨d, rfl⟩ := Nat.exists_eq_add_of_le hge
    rw [after_add]
    exact hg' d (by omega)

/-- Behind a path to a machine that has ended there is nothing but that machine. -/
theorem going_or_ended {n : Nat} {m m' : Machine} (h : Path n m m') (he : m'.Ended) (k : Nat) :
    (m.after k).Going ∨ m.after k = m' := by
  rcases Nat.lt_or_ge k n with hlt | hge
  · exact .inl (h.going k hlt)
  · right
    obtain ⟨d, rfl⟩ := Nat.exists_eq_add_of_le hge
    rw [after_add, h.arrives, he.after]

end Path

/-! ## What a run leaves as it is

No step touches the program, the world that the run began in, or the limits of the stacks. This is what a machine is rewound to, so
rewinding leads to the same machine in front of a step and behind it. -/

/-- Going on with a result leaves the rewound machine as it is, if what the result is put into does. -/
theorem continueWith_reset {α : Type} {m : Machine} {next : Nat} {value : Except FaultCause α} {set : α → Machine}
    (h : ∀ a, value = .ok a → (set a).reset = m.reset) : (m.continueWith next value set).1.reset = m.reset := by
  unfold continueWith
  split
  · exact h _ rfl
  · rfl

theorem pushCondition_reset (m : Machine) (next : Nat) (b : Bool) : (m.pushCondition next b).1.reset = m.reset := by
  refine continueWith_reset ?_
  intro s hs
  rw [reset, reset, Stack.clear_of_push hs]

theorem combine_reset (m : Machine) (next : Nat) (f : Bool → Bool → Bool) : (m.combine next f).1.reset = m.reset := by
  have hclear := m.conditions.clear_pop₂
  unfold combine
  split
  · rename_i he
    rw [he] at hclear
    rw [pushCondition_reset, reset, reset, hclear]
  · rename_i he
    rw [he] at hclear
    rw [reset, reset, hclear]

theorem branch_reset (m : Machine) (next target : Nat) (b : Bool) : (m.branch next target b).1.reset = m.reset := by
  unfold branch
  split
  · rename_i hs
    rw [reset, reset, Stack.clear_of_pop hs]
  · rfl

theorem goBack_reset (m : Machine) (a : Nat) : (m.goBack a).1.reset = m.reset := by
  unfold goBack
  split
  · rfl
  · split
    · rename_i hs
      rw [reset, reset, Stack.clear_of_pop hs]
    · rfl

theorem countDown_reset (m : Machine) (next target : Nat) : (m.countDown next target).1.reset = m.reset := by
  unfold countDown
  split
  · rfl
  · rename_i hs
    have hclear := Stack.clear_of_modifyTop hs
    split
    · rw [reset, reset, hclear]
    · split
      · rename_i hrest
        rw [reset, reset, Stack.clear_of_pop hrest, hclear]
      · rw [reset, reset, hclear]

theorem perform_reset (m : Machine) (a : Nat) (op : Opcode) : (m.perform a op).1.reset = m.reset := by
  cases op with
  | ret => exact m.goBack_reset a
  | act => exact continueWith_reset fun _ _ => rfl
  | sense => exact m.pushCondition_reset _ _
  | not =>
    refine continueWith_reset ?_
    intro s hs
    rw [reset, reset, Stack.clear_of_modifyTop hs]
  | and | or | xor => exact m.combine_reset _ _
  | push | call =>
    refine continueWith_reset ?_
    intro s hs
    rw [reset, reset, Stack.clear_of_push hs]
  | loop => exact m.countDown_reset _ _
  | jump => rfl
  | jumpUnless | jumpIf => exact m.branch_reset _ _ _

theorem retire_reset (m : Machine) (a : Nat) (i : Instruction) : (m.retire a i).2.reset = m.reset := by
  unfold retire
  split
  · rfl
  · rename_i op _
    have hperform := m.perform_reset a op
    split
    · rename_i he
      rw [he] at hperform
      split <;> exact hperform
    · rename_i he
      rw [he] at hperform
      exact hperform

/-- A step changes nothing that rewinding keeps: a machine and the next one are the same when they are rewound. -/
theorem step_reset (m : Machine) : m.step.2.reset = m.reset := by
  unfold step
  split
  · rfl
  · split
    · rfl
    · split
      · rfl
      · rename_i i _
        have hretire := m.retire_reset m.pc i
        split <;> (rename_i he; rw [he] at hretire; exact hretire)

/-- Rewinding after any number of steps gives the machine that rewinding at the beginning gives. -/
theorem after_reset (m : Machine) (n : Nat) : (m.after n).reset = m.reset := by
  refine after_induction (P := fun m' => m'.reset = m.reset) ?_ rfl n
  intro m' h
  exact m'.step_reset.trans h

/-- No step changes the program. -/
theorem step_program (m : Machine) : m.step.2.program = m.program := by
  have hprogram := congrArg program m.step_reset
  exact hprogram

/-- The program never changes. -/
theorem after_program (m : Machine) (n : Nat) : (m.after n).program = m.program := by
  have hprogram := congrArg program (m.after_reset n)
  exact hprogram

/-! ## How a run ends -/

/-- The run halts in a world. -/
def HaltsIn (m : Machine) (w : World) : Prop :=
  ∃ n, (m.after n).halted = true ∧ (m.after n).fault = none ∧ (m.after n).world = w

/-- The run ends with a fault in a world. -/
def FaultsWith (m : Machine) (cause : FaultCause) (w : World) : Prop :=
  ∃ n address, (m.after n).fault = some ⟨cause, address⟩ ∧ (m.after n).world = w

/-- The run goes on for ever. -/
def StepsForever (m : Machine) : Prop := ∀ n, ¬ (m.after n).Ended

/-- A machine halts in one world only. -/
theorem HaltsIn.unique {m : Machine} {w w' : World} (h : m.HaltsIn w) (h' : m.HaltsIn w') : w = w' := by
  obtain ⟨n, hn, -, rfl⟩ := h
  obtain ⟨k, hk, -, rfl⟩ := h'
  rw [Ended.unique (.inl hn) (.inl hk)]

/-- A machine faults with one cause only, in one world. -/
theorem FaultsWith.unique {m : Machine} {cause cause' : FaultCause} {w w' : World} (h : m.FaultsWith cause w)
    (h' : m.FaultsWith cause' w') : cause = cause' ∧ w = w' := by
  obtain ⟨n, a, hn, rfl⟩ := h
  obtain ⟨k, b, hk, rfl⟩ := h'
  have heq := Ended.unique (m := m) (n := n) (k := k) (.inr (by rw [hn]; rfl)) (.inr (by rw [hk]; rfl))
  rw [heq, hk] at hn
  cases hn
  exact ⟨rfl, by rw [heq]⟩

/-- A machine that halts does not fault. -/
theorem HaltsIn.not_faultsWith {m : Machine} {cause : FaultCause} {w w' : World} (h : m.HaltsIn w) :
    ¬ m.FaultsWith cause w' := by
  rintro ⟨k, b, hk, -⟩
  obtain ⟨n, hn, hsound, -⟩ := h
  rw [Ended.unique (.inl hn) (.inr (by rw [hk]; rfl)), hk] at hsound
  nomatch hsound

/-- A machine that goes on forever does not halt. -/
theorem StepsForever.not_haltsIn {m : Machine} {w : World} (h : m.StepsForever) : ¬ m.HaltsIn w := by
  rintro ⟨n, hn, -⟩
  exact h n (.inl hn)

/-- A machine that goes on forever does not fault. -/
theorem StepsForever.not_faultsWith {m : Machine} {cause : FaultCause} {w : World} (h : m.StepsForever) :
    ¬ m.FaultsWith cause w := by
  rintro ⟨n, a, hn, -⟩
  exact h n (.inr (by rw [hn]; rfl))

/-! ## One instruction -/

/-- A step performs the instruction at the program counter, and goes to the address that it gives. -/
theorem step_of_perform_ok {m m' : Machine} {op : Opcode} {line next : Nat} (ha : m.halted = false)
    (hs : m.fault = none) (hi : m.program.instructions[m.pc]? = some (.of op line)) (hfit : op.Fits)
    (hp : m.perform m.pc op = (m', .ok next)) (hn : next < memorySize) : m.step.2 = { m' with pc := next } := by
  have hd : (Instruction.of op line).decode = some op := Opcode.decode_encode hfit
  simp [step, hs, ha, Program.get?_eq_of_instructions hi, retire, hd, hp, hn]

/-- If the instruction at the program counter is refused, the step records the cause with its address. -/
theorem step_of_perform_error {m m' : Machine} {op : Opcode} {line : Nat} {cause : FaultCause} (ha : m.halted = false)
    (hs : m.fault = none) (hi : m.program.instructions[m.pc]? = some (.of op line)) (hfit : op.Fits)
    (hp : m.perform m.pc op = (m', .error cause)) : m.step.2 = { m' with fault := some ⟨cause, m.pc⟩ } := by
  have hd : (Instruction.of op line).decode = some op := Opcode.decode_encode hfit
  simp [step, hs, ha, Program.get?_eq_of_instructions hi, retire, hd, hp, fail]

end Machine

/-! ## Machines in the middle of a run -/

/-- What does not change in a run: the program, the world it starts in, and the limits. -/
structure Setting where
  program : Program
  origin : World
  limits : Limits

namespace Setting

open Machine

/-- The machine at an address with what is on its stacks, in a world. -/
def running (S : Setting) (pc : Nat) (calls loops : List Nat) (conditions : List Bool) (w : World) : Machine where
  program := S.program
  origin := S.origin
  world := w
  pc := pc
  calls := ⟨S.limits.calls, .stackOverflow, .stackOverflow, calls⟩
  loops := ⟨S.limits.loops, .loopOverflow, .loopUnderflow, loops⟩
  conditions := ⟨S.limits.conditions, .conditionOverflow, .conditionUnderflow, conditions⟩
  halted := false
  fault := none

/-- The machine that has ended at an address with what is on its stacks, in a world: with a fault, or by a return. -/
def ended (S : Setting) (fault : Option FaultCause) (pc : Nat) (calls loops : List Nat) (conditions : List Bool)
    (w : World) : Machine :=
  { S.running pc calls loops conditions w with halted := fault.isNone, fault := fault.map (⟨·, pc⟩) }

variable {S : Setting} {a b : Nat} {cs ls cs' ls' : List Nat} {bs bs' : List Bool} {w w' : World} {op : Opcode}
  {line : Nat}

/-- A machine that is started is running at address 0 with empty stacks, in the world that it was given. -/
theorem start_eq (S : Setting) : Machine.start S.program S.origin S.limits = S.running 0 [] [] [] S.origin := rfl

/-- A running machine is going as long as its program counter is at an instruction. -/
theorem going (h : a < S.program.size) : (S.running a cs ls bs w).Going := ⟨rfl, rfl, h⟩

/-- An ended machine has halted or faulted. -/
theorem ended_ended (fault : Option FaultCause) : (S.ended fault a cs ls bs w).Ended := by
  cases fault with
  | none => exact .inl rfl
  | some cause => exact .inr rfl

/-- The address of an instruction that was put into memory fits into an instruction word. -/
theorem address_fits (h : b < S.program.size) : b < Opcode.operands := Nat.lt_of_lt_of_le h S.program.size_le

/-- An operation that is performed takes one step. -/
theorem path_one (hi : S.program.instructions[a]? = some (.of op line)) (hfit : op.Fits)
    (hp : (S.running a cs ls bs w).perform a op = (S.running a cs' ls' bs' w', .ok b)) (hb : b < S.program.size) :
    Path 1 (S.running a cs ls bs w) (S.running b cs' ls' bs' w') :=
  .one (going (Program.lt_size_of_instructions hi)) (step_of_perform_ok rfl rfl hi hfit hp (address_fits hb))

/-- An operation that is refused ends the run where it is, in one step. -/
theorem path_fault {cause : FaultCause} (hi : S.program.instructions[a]? = some (.of op line)) (hfit : op.Fits)
    (hp : (S.running a cs ls bs w).perform a op = (S.running a cs ls bs w, .error cause)) :
    Path 1 (S.running a cs ls bs w) (S.ended (some cause) a cs ls bs w) :=
  .one (going (Program.lt_size_of_instructions hi)) (step_of_perform_error rfl rfl hi hfit hp)

/-! ## Operations one by one -/

/-- A return ends the run where it is if there is no call to go back from. -/
theorem path_halt (hi : S.program.instructions[a]? = some (.of .ret line)) :
    Path 1 (S.running a [] ls bs w) (S.ended none a [] ls bs w) := by
  have hlt := Program.lt_size_of_instructions hi
  have hfit : Opcode.ret.Fits := Opcode.fits_of_none rfl
  have hp : (S.running a [] ls bs w).perform a .ret = (S.ended none a [] ls bs w, .ok a) := rfl
  exact .one (going hlt) (step_of_perform_ok rfl rfl hi hfit hp (address_fits hlt))

/-- A return goes back to the topmost address on the call stack. -/
theorem path_back (hi : S.program.instructions[a]? = some (.of .ret line)) (hb : b < S.program.size) :
    Path 1 (S.running a (b :: cs) ls bs w) (S.running b cs ls bs w) :=
  path_one hi (Opcode.fits_of_none rfl) rfl hb

/-- A call goes to its target, and leaves the address behind it on the call stack. -/
theorem path_call (hi : S.program.instructions[a]? = some (.of (.call b) line)) (hb : b < S.program.size)
    (hc : cs.length < S.limits.calls) :
    Path 1 (S.running a cs ls bs w) (S.running b ((a + 1) :: cs) ls bs w) := by
  refine path_one hi (Opcode.fits_of_lt rfl (address_fits hb)) ?_ hb
  simp [perform, continueWith, running, Stack.push, Stack.size, hc]

/-- A call ends the run where it is if the call stack is full. -/
theorem path_call_fault (hi : S.program.instructions[a]? = some (.of (.call b) line)) (hb : b < S.program.size)
    (hc : ¬ cs.length < S.limits.calls) :
    Path 1 (S.running a cs ls bs w) (S.ended (some .stackOverflow) a cs ls bs w) := by
  refine path_fault hi (Opcode.fits_of_lt rfl (address_fits hb)) ?_
  simp [perform, continueWith, running, Stack.push, Stack.size, hc]

/-- An action that the world allows is performed in one step. -/
theorem path_act {act : Action} (hi : S.program.instructions[a]? = some (.of (.act act) line))
    (hw : act.perform w = .ok w') (hb : a + 1 < S.program.size) :
    Path 1 (S.running a cs ls bs w) (S.running (a + 1) cs ls bs w') := by
  have hresult : (act.perform w).mapError FaultCause.world = .ok w' := by
    rw [hw]
    rfl
  refine path_one hi (Opcode.fits_of_none rfl) ?_ hb
  simp [perform, continueWith, running, hresult]

/-- An action that the world refuses ends the run where it is, with what the world says. -/
theorem path_act_fault {act : Action} {e : WorldError}
    (hi : S.program.instructions[a]? = some (.of (.act act) line)) (hw : act.perform w = .error e) :
    Path 1 (S.running a cs ls bs w) (S.ended (some (.world e)) a cs ls bs w) := by
  have hresult : (act.perform w).mapError FaultCause.world = .error (.world e) := by
    rw [hw]
    rfl
  refine path_fault hi (Opcode.fits_of_none rfl) ?_
  simp [perform, continueWith, running, hresult]

/-- A sensor leaves what it reads in the world on the condition stack. -/
theorem path_sense {s : Sensor} (hi : S.program.instructions[a]? = some (.of (.sense s) line))
    (hc : bs.length < S.limits.conditions) (hb : a + 1 < S.program.size) :
    Path 1 (S.running a cs ls bs w) (S.running (a + 1) cs ls (s.read w :: bs) w) := by
  refine path_one hi (Opcode.fits_of_none rfl) ?_ hb
  simp [perform, pushCondition, continueWith, running, Stack.push, Stack.size, hc]

/-- A negation turns the topmost condition around. -/
theorem path_not {x : Bool} (hi : S.program.instructions[a]? = some (.of .not line)) (hb : a + 1 < S.program.size) :
    Path 1 (S.running a cs ls (x :: bs) w) (S.running (a + 1) cs ls ((!x) :: bs) w) :=
  path_one hi (Opcode.fits_of_none rfl) rfl hb

/-- An operator takes the two topmost conditions, the left one from below the right one. -/
theorem path_combine {f : Bool → Bool → Bool} {x y : Bool} (hi : S.program.instructions[a]? = some (.of op line))
    (hnone : op.operand? = none) (hop : ∀ m : Machine, m.perform a op = m.combine (a + 1) f)
    (hc : bs.length < S.limits.conditions) (hb : a + 1 < S.program.size) :
    Path 1 (S.running a cs ls (y :: x :: bs) w) (S.running (a + 1) cs ls (f x y :: bs) w) := by
  refine path_one hi (Opcode.fits_of_none hnone) ?_ hb
  simp [hop, combine, Stack.pop₂, pushCondition, continueWith, running, Stack.push, Stack.size, hc]

/-- A jump goes to its target. -/
theorem path_jump (hi : S.program.instructions[a]? = some (.of (.jump b) line)) (hb : b < S.program.size) :
    Path 1 (S.running a cs ls bs w) (S.running b cs ls bs w) :=
  path_one hi (Opcode.fits_of_lt rfl (address_fits hb)) rfl hb

/-- The jump of a test goes past what is guarded if the test failed. -/
theorem path_jumpUnless {x : Bool} (hi : S.program.instructions[a]? = some (.of (.jumpUnless b) line))
    (hb : b < S.program.size) (hn : a + 1 < S.program.size) :
    Path 1 (S.running a cs ls (x :: bs) w) (S.running (if x then a + 1 else b) cs ls bs w) := by
  refine path_one hi (Opcode.fits_of_lt rfl (address_fits hb)) ?_ (by cases x <;> assumption)
  cases x <;> rfl

/-- The begin of a repeat leaves its count on the loop stack. -/
theorem path_push {count : Nat} (hi : S.program.instructions[a]? = some (.of (.push count) line))
    (hcount : count < Opcode.operands) (hl : ls.length < S.limits.loops) (hb : a + 1 < S.program.size) :
    Path 1 (S.running a cs ls bs w) (S.running (a + 1) cs (count :: ls) bs w) := by
  refine path_one hi (Opcode.fits_of_lt rfl hcount) ?_ hb
  simp [perform, continueWith, running, Stack.push, Stack.size, hl]

/-- The begin of a repeat ends the run where it is if the loop stack is full. -/
theorem path_push_fault {count : Nat} (hi : S.program.instructions[a]? = some (.of (.push count) line))
    (hcount : count < Opcode.operands) (hl : ¬ ls.length < S.limits.loops) :
    Path 1 (S.running a cs ls bs w) (S.ended (some .loopOverflow) a cs ls bs w) := by
  refine path_fault hi (Opcode.fits_of_lt rfl hcount) ?_
  simp [perform, continueWith, running, Stack.push, Stack.size, hl]

/-- With more than one round to go, the end of a repeat goes back behind its begin. -/
theorem path_loop_again {count : Nat} (hi : S.program.instructions[a]? = some (.of (.loop b) line))
    (hb : b + 1 < S.program.size) (hc : 0 < count) :
    Path 1 (S.running a cs ((count + 1) :: ls) bs w) (S.running (b + 1) cs (count :: ls) bs w) := by
  refine path_one hi (Opcode.fits_of_lt rfl (Nat.lt_of_succ_lt (address_fits hb))) ?_ hb
  simp [perform, countDown, Stack.modifyTop, Stack.top?, running, hc]

/-- With the last round done, the end of a repeat goes on behind it. -/
theorem path_loop_end (hi : S.program.instructions[a]? = some (.of (.loop b) line)) (hfit : b < Opcode.operands)
    (hb : a + 1 < S.program.size) :
    Path 1 (S.running a cs (1 :: ls) bs w) (S.running (a + 1) cs ls bs w) :=
  path_one hi (Opcode.fits_of_lt rfl hfit) rfl hb

end Setting

end GridRobot

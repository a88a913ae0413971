import GridRobot.Proofs.Machine.Invariant
import GridRobot.Proofs.Machine.Run

/-!
# Machines in lockstep

What a machine does depends on its program only through the words in memory, and on its limits only where a stack overflows. So a
machine that is refitted, with a program of the same words and with limits that are no smaller, does what it did before as long as
it does not overflow: `step_refit` is the one step, `after_refit` the whole run. Two runs that are compared step by step are in
`Lockstep`.

`Does`, `Refuses` and `Transition` say what a step can do; here it is shown that they determine it (`Transition.step_eq`), so that
it is enough to follow them from one machine to the other.
-/

namespace GridRobot

/-! ## What decides about a step -/

namespace Machine

section

variable {m m' : Machine} {op : Opcode} {a : Nat}

/-- A connective combines the two conditions on top. -/
theorem perform_of_connective {f : Bool → Bool → Bool} (hop : op.connective? = some f) :
    m.perform a op = m.combine (a + 1) f := by
  cases op with
  | and | or | xor =>
    obtain rfl := Option.some.inj hop
    rfl
  | _ => nomatch hop

/-- A jump on a condition branches on the one on top. -/
theorem perform_of_test {target : Nat} {b : Bool} (hop : op.test? = some (target, b)) :
    m.perform a op = m.branch (a + 1) target b := by
  cases op with
  | jumpUnless | jumpIf =>
    obtain ⟨rfl, rfl⟩ := Prod.mk.inj (Option.some.inj hop)
    rfl
  | _ => nomatch hop

/-- What an operation can do is what performing it does. -/
theorem Does.perform_eq {next : Nat} (hroom : m.conditions.size ≤ m.conditions.limit) (h : m.Does a op m' next) :
    m.perform a op = (m', .ok next) := by
  cases h with
  | halt h => simp [perform, Machine.goBack, Stack.isEmpty, h]
  | goBack h => simp [perform, Machine.goBack, Stack.isEmpty, Stack.pop, h]
  | act h => simp [perform, continueWith, Except.mapError, h]
  | sense h => simp [perform, pushCondition, continueWith, Stack.push, h]
  | not h => simp [perform, continueWith, Stack.modifyTop, h]
  | @combine op f x y rest hop h =>
    -- two conditions are taken, so there is room for one
    have hlt : rest.length < m.conditions.limit := by
      simp only [Stack.size, h, List.length_cons] at hroom
      omega
    simp [perform_of_connective hop, Machine.combine, Stack.pop₂, h, pushCondition, continueWith, Stack.push, Stack.size,
      hlt]
  | push h => simp [perform, continueWith, Stack.push, h]
  | again h hc =>
    have hpos : 0 < _ - 1 := Nat.sub_pos_of_lt hc
    simp [perform, countDown, Stack.modifyTop, Stack.top?, h, hpos]
  | last h hc => simp [perform, countDown, Stack.modifyTop, Stack.top?, Stack.pop, h, Nat.sub_eq_zero_of_le hc]
  | call h => simp [perform, continueWith, Stack.push, h]
  | jump => rfl
  | test hop h => simp [perform_of_test hop, branch, Stack.pop, h]

/-- Why an operation cannot be done is why performing it fails. -/
theorem Refuses.perform_eq {cause : FaultCause} (h : m.Refuses op m' cause) : m.perform a op = (m', .error cause) := by
  cases h with
  | act h => simp [perform, continueWith, Except.mapError, h]
  | sense h => simp [perform, pushCondition, continueWith, Stack.push, Nat.not_lt.2 h]
  | not h => simp [perform, continueWith, Stack.modifyTop, h]
  | combine hop h =>
    rw [perform_of_connective hop, Machine.combine]
    unfold Stack.pop₂
    rcases hs : m.conditions.items with _ | ⟨y, _ | ⟨x, rest⟩⟩
    · rfl
    · rfl
    · simp only [Stack.size, hs, List.length_cons] at h
      omega
  | push h => simp [perform, continueWith, Stack.push, Nat.not_lt.2 h]
  | loop h => simp [perform, countDown, Stack.modifyTop, h]
  | call h => simp [perform, continueWith, Stack.push, Nat.not_lt.2 h]
  | test hop h => simp [perform_of_test hop, branch, Stack.pop, h]

/-- What can become of a machine in one step is what does become of it. -/
theorem Transition.step_eq {r : Except Fault Step × Machine} (hroom : m.conditions.size ≤ m.conditions.limit)
    (h : m.Transition r) : m.step = r := by
  cases h with
  | faulted hf => simp [step, hf]
  | halted hf hh => simp [step, hf, hh]
  | done hf hh hi hop hd hnext => simp [step, hf, hh, hi, retire, hop, hd.perform_eq hroom, hnext]
  | outside hf hh hi hop hd hnext => simp [step, hf, hh, hi, retire, hop, hd.perform_eq hroom, Nat.not_lt.2 hnext]
  | refused hf hh hi hop hr => simp [step, hf, hh, hi, retire, hop, hr.perform_eq]
  | illegal hf hh hi hop => simp [step, hf, hh, hi, retire, hop]

end

end Machine

/-! ## What machines are compared by -/

/-- A fault that a machine with larger limits may not meet. -/
def FaultCause.IsOverflow : FaultCause → Prop
  | stackOverflow | loopOverflow | conditionOverflow => True
  | _ => False

/-- The limits are compared stack by stack. -/
instance : LE Limits := ⟨fun l l' => l.calls ≤ l'.calls ∧ l.loops ≤ l'.loops ∧ l.conditions ≤ l'.conditions⟩

/-- The memories of two programs have the same words at all addresses, on whatever lines. -/
def Program.SameWords (p q : Program) : Prop := ∀ a, (p.get? a).map (·.word) = (q.get? a).map (·.word)

/-- The outcomes of two steps are the same but for the lines of the instructions and for the pauses. -/
inductive SameOutcome : Except Fault Step → Except Fault Step → Prop
  | fault (f : Fault) : SameOutcome (.error f) (.error f)
  | step {s s' : Step} (address : s'.address = s.address) (word : s'.instruction.word = s.instruction.word)
      (next : s'.next = s.next) (halted : s'.halted = s.halted) (world : s'.world = s.world) :
      SameOutcome (.ok s) (.ok s')

namespace Machine

/-- Two machines are in the same state of a run. -/
structure SameState (m m' : Machine) : Prop where
  pc : m'.pc = m.pc
  world : m'.world = m.world
  calls : m'.calls.items = m.calls.items
  loops : m'.loops.items = m.loops.items
  conditions : m'.conditions.items = m.conditions.items
  halted : m'.halted = m.halted
  fault : m'.fault = m.fault

/-- Two machines go through the same states, and their steps have the same outcomes but for lines and pauses. -/
def Lockstep (m m' : Machine) : Prop :=
  ∀ n, (m.after n).SameState (m'.after n) ∧ SameOutcome (m.after n).step.1 (m'.after n).step.1

/-- The machine with another program and other limits. -/
def refit (m : Machine) (q : Program) (limits : Limits) : Machine :=
  { m with
    program := q
    calls.limit := limits.calls
    loops.limit := limits.loops
    conditions.limit := limits.conditions }

variable {p q : Program} {w : World} {limits larger : Limits} {m m' : Machine} {op : Opcode}

theorem start_refit : (start p w limits).refit q larger = start q w larger := rfl

/-- A machine that is refitted is in the same state. -/
theorem sameState_refit : m.SameState (m.refit q larger) := ⟨rfl, rfl, rfl, rfl, rfl, rfl, rfl⟩

/-! ## What steps keep, whatever the world is like -/

/-- The program counter is in memory, and the stacks are within the limits and report their overflows as those of such a machine. -/
structure Steady (limits : Limits) (m : Machine) : Prop where
  pc_lt : m.pc < memorySize
  calls : m.calls.limit = limits.calls ∧ m.calls.overflow = .stackOverflow
  loops : m.loops.limit = limits.loops ∧ m.loops.overflow = .loopOverflow
  conditions : m.conditions.Keeps limits.conditions .conditionOverflow .conditionUnderflow (fun _ => True)

namespace Steady

/-- A machine that is started has the limits that it was given. -/
theorem start : (start p w limits).Steady limits := ⟨Nat.succ_pos _, ⟨rfl, rfl⟩, ⟨rfl, rfl⟩, .empty _ _ _ _⟩

theorem room (h : m.Steady limits) : m.conditions.size ≤ m.conditions.limit :=
  h.conditions.limit_eq ▸ h.conditions.size_le

theorem does {a next : Nat} (h : m.Steady limits) (hd : m.Does a op m' next) : m'.Steady limits := by
  cases hd with
  | sense hroom => exact { h with conditions := h.conditions.push hroom trivial }
  | not hs => exact { h with conditions := h.conditions.replace hs trivial }
  | combine _ hs => exact { h with conditions := (h.conditions.pop hs).2.replace rfl trivial }
  | test _ hs => exact { h with conditions := (h.conditions.pop hs).2 }
  | halt | goBack | act | push | again | last | call | jump => exact { h with }

theorem refuses {cause : FaultCause} (h : m.Steady limits) (hr : m.Refuses op m' cause) : m'.Steady limits := by
  cases hr with
  | combine => exact { h with conditions := h.conditions.clear }
  | act | sense | not | push | loop | call | test => exact h

/-- A step changes no limit. -/
theorem step (h : m.Steady limits) : m.step.2.Steady limits := by
  have ht := step_transition h.pc_lt h.room
  generalize m.step = result at ht
  cases ht with
  | faulted | halted => exact h
  | done _ _ _ _ hd hnext => exact { h.does hd with pc_lt := hnext }
  | outside _ _ _ _ hd => exact { h.does hd with }
  | refused _ _ _ _ hr => exact { h.refuses hr with }
  | illegal => exact { h with }

theorem after (h : m.Steady limits) (n : Nat) : (m.after n).Steady limits :=
  after_induction step h n

/-- The fault that a step reports is the one that the machine keeps. -/
theorem fault_of_step {f : Fault} (h : m.Steady limits) (hstep : m.step.1 = .error f) : m.step.2.fault = some f := by
  have ht := step_transition h.pc_lt h.room
  generalize m.step = result at ht hstep
  cases ht with
  | faulted hf =>
    obtain rfl := Except.error.inj hstep
    exact hf
  | halted | done => nomatch hstep
  | outside | refused | illegal =>
    obtain rfl := Except.error.inj hstep
    rfl

/-- A fault that is reported on the way is the fault at the end. -/
theorem fault_of_after {f : Fault} {k n : Nat} (h : m.Steady limits) (hk : k < n)
    (hstep : (m.after k).step.1 = .error f) : (m.after n).fault = some f := by
  obtain ⟨d, rfl⟩ := Nat.exists_eq_add_of_le (Nat.succ_le_of_lt hk)
  have hfault : (m.after (k + 1)).fault = some f := by
    rw [after_add]
    exact (h.after k).fault_of_step hstep
  rw [after_add, Ended.after (.inr (by rw [hfault]; rfl)), hfault]

end Steady

/-! ## Refitted machines -/

/-- What an operation does, it does with more room as well. -/
theorem Does.refit {a next : Nat} (hs : m.Steady limits) (hle : limits ≤ larger) (h : m.Does a op m' next) :
    (m.refit q larger).Does a op (m'.refit q larger) next := by
  obtain ⟨hcalls, hloops, hconditions⟩ := hle
  cases h with
  | halt h => exact .halt h
  | goBack h => exact .goBack h
  | act h => exact .act h
  | sense h => exact .sense (Nat.lt_of_lt_of_le h (hs.conditions.limit_eq ▸ hconditions))
  | not h => exact .not h
  | combine hop h => exact .combine hop h
  | push h => exact .push (Nat.lt_of_lt_of_le h (hs.loops.1 ▸ hloops))
  | again h hc => exact .again h hc
  | last h hc => exact .last h hc
  | call h => exact .call (Nat.lt_of_lt_of_le h (hs.calls.1 ▸ hcalls))
  | jump => exact .jump
  | test hop h => exact .test hop h

/-- What cannot be done cannot be done with more room either, unless it was the room that was missing. -/
theorem Refuses.refit {cause : FaultCause} (hs : m.Steady limits) (hover : cause.IsOverflow → larger = limits)
    (h : m.Refuses op m' cause) : (m.refit q larger).Refuses op (m'.refit q larger) cause := by
  cases h with
  | act h => exact .act h
  | sense h =>
    obtain rfl : larger = limits := hover (by rw [hs.conditions.overflow_eq]; trivial)
    exact .sense (show larger.conditions ≤ m.conditions.size from hs.conditions.limit_eq ▸ h)
  | not h => exact .not h
  | combine hop h => exact .combine hop h
  | push h =>
    obtain rfl : larger = limits := hover (by rw [hs.loops.2]; trivial)
    exact .push (show larger.loops ≤ m.loops.size from hs.loops.1 ▸ h)
  | loop h => exact .loop h
  | call h =>
    obtain rfl : larger = limits := hover (by rw [hs.calls.2]; trivial)
    exact .call (show larger.calls ≤ m.calls.size from hs.calls.1 ▸ h)
  | test hop h => exact .test hop h

/-- Where two programs have the same words, there is an instruction of the one where there is one of the other. -/
theorem exists_word (hw : m.program.SameWords q) {i : Instruction} (hi : m.program.get? m.pc = some i) :
    ∃ i', q.get? m.pc = some i' ∧ i'.word = i.word := by
  have h := hw m.pc
  rw [hi, Option.map_some] at h
  obtain ⟨i', hi', hword⟩ := Option.map_eq_some_iff.1 h.symm
  exact ⟨i', hi', hword⟩

/-- The operation depends on the word alone. -/
theorem decode_of_word {i i' : Instruction} (h : i'.word = i.word) : i'.decode = i.decode :=
  congrArg Opcode.decode h

/-- One step of a refitted machine is the step of the machine, unless it is one that overflows and the limits have changed. -/
theorem step_refit (hs : m.Steady limits) (hle : limits ≤ larger) (hw : m.program.SameWords q)
    (hover : ∀ f, m.step.1 = .error f → f.cause.IsOverflow → larger = limits) :
    (m.refit q larger).step.2 = m.step.2.refit q larger ∧ SameOutcome m.step.1 (m.refit q larger).step.1 ∧
      (q = m.program → (m.refit q larger).step.1 = m.step.1) := by
  have hroom : (m.refit q larger).conditions.size ≤ (m.refit q larger).conditions.limit :=
    Nat.le_trans hs.conditions.size_le hle.2.2
  have ht := step_transition hs.pc_lt hs.room
  revert hover
  generalize m.step = result at ht
  intro hover
  cases ht with
  | faulted hf =>
    have ht' : (m.refit q larger).Transition _ := .faulted hf
    rw [ht'.step_eq hroom]
    exact ⟨rfl, .fault _, fun _ => rfl⟩
  | halted hf hh =>
    have ht' : (m.refit q larger).Transition _ := .halted hf hh
    rw [ht'.step_eq hroom]
    exact ⟨rfl, .step rfl rfl rfl rfl rfl, fun _ => rfl⟩
  | @done i op m₁ next hf hh hi hop hd hnext =>
    obtain ⟨i', hi', hword⟩ := exists_word hw hi
    have ht' : (m.refit q larger).Transition _ :=
      .done hf hh hi' ((decode_of_word hword).trans hop) (hd.refit hs hle) hnext
    rw [ht'.step_eq hroom]
    refine ⟨rfl, .step rfl hword rfl rfl rfl, ?_⟩
    rintro rfl
    obtain rfl := Option.some.inj (hi.symm.trans hi')
    rfl
  | outside hf hh hi hop hd hnext =>
    obtain ⟨i', hi', hword⟩ := exists_word hw hi
    have ht' : (m.refit q larger).Transition _ :=
      .outside hf hh hi' ((decode_of_word hword).trans hop) (hd.refit hs hle) hnext
    rw [ht'.step_eq hroom]
    exact ⟨rfl, .fault _, fun _ => rfl⟩
  | refused hf hh hi hop hr =>
    obtain ⟨i', hi', hword⟩ := exists_word hw hi
    have ht' : (m.refit q larger).Transition _ :=
      .refused hf hh hi' ((decode_of_word hword).trans hop) (hr.refit hs (hover _ rfl))
    rw [ht'.step_eq hroom]
    exact ⟨rfl, .fault _, fun _ => rfl⟩
  | illegal hf hh hi hop =>
    obtain ⟨i', hi', hword⟩ := exists_word hw hi
    have ht' : (m.refit q larger).Transition _ := .illegal hf hh hi' ((decode_of_word hword).trans hop)
    rw [ht'.step_eq hroom, hword]
    exact ⟨rfl, .fault _, fun _ => rfl⟩

/-! ## Runs of refitted machines -/

/-- A run of a refitted machine is the run of the machine, unless it is one that overflows and the limits have changed. -/
theorem after_refit (hs : m.Steady limits) (hle : limits ≤ larger) (hw : m.program.SameWords q) {n : Nat}
    (hover : ∀ k < n, ∀ f, (m.after k).step.1 = .error f → f.cause.IsOverflow → larger = limits) :
    (m.refit q larger).after n = (m.after n).refit q larger ∧
      ∀ k < n, SameOutcome (m.after k).step.1 ((m.refit q larger).after k).step.1 ∧
        (q = m.program → ((m.refit q larger).after k).step.1 = (m.after k).step.1) := by
  induction n generalizing m with
  | zero => exact ⟨rfl, nofun⟩
  | succ n ih =>
    obtain ⟨hstep, hsame, heq⟩ := step_refit hs hle hw (hover 0 (Nat.succ_pos n))
    have hprogram := m.step_program
    obtain ⟨hafter, hothers⟩ := ih hs.step (hprogram ▸ hw) fun k hk => hover (k + 1) (Nat.succ_lt_succ hk)
    refine ⟨by rw [after, hstep, hafter, after], ?_⟩
    intro k hk
    cases k with
    | zero => exact ⟨hsame, heq⟩
    | succ k =>
      rw [after, after, hstep]
      rw [hprogram] at hothers
      exact hothers k (Nat.lt_of_succ_lt_succ hk)

/-! ## Larger limits -/

/-- Larger limits do not change a run that fits the smaller ones. As long as a run has not faulted with an overflow, the run with
larger limits is in the same state after every number of steps, and all steps so far have had the same outcome. If a run overflows
at a step, the run with larger limits is in the same state in front of that step, and all steps before have had the same outcome. -/
theorem larger_limits {p : Program} {w : World} {limits larger : Limits} (h : limits ≤ larger) :
    (∀ n, (∀ f, ((start p w limits).after n).fault = some f → ¬ f.cause.IsOverflow) →
        ((start p w limits).after n).SameState ((start p w larger).after n) ∧
          ∀ k < n, ((start p w larger).after k).step.1 = ((start p w limits).after k).step.1) ∧
      ∀ k f, ((start p w limits).after k).fault = none → ((start p w limits).after k).step.1 = .error f →
        f.cause.IsOverflow → ((start p w limits).after k).SameState ((start p w larger).after k) ∧
          ∀ j < k, ((start p w limits).after j).SameState ((start p w larger).after j) ∧
            ((start p w larger).after j).step.1 = ((start p w limits).after j).step.1 := by
  have hsteady : (start p w limits).Steady limits := .start
  have hfits : ∀ n, (∀ f, ((start p w limits).after n).fault = some f → ¬ f.cause.IsOverflow) →
      ((start p w limits).after n).SameState ((start p w larger).after n) ∧
        ∀ k < n, ((start p w larger).after k).step.1 = ((start p w limits).after k).step.1 := by
    intro n hn
    have hover : ∀ k < n, ∀ f, ((start p w limits).after k).step.1 = .error f → f.cause.IsOverflow → larger = limits :=
      fun k hk f hf hoverflow => absurd hoverflow (hn f (hsteady.fault_of_after hk hf))
    obtain ⟨hafter, houtcomes⟩ := after_refit hsteady h (fun _ => rfl) hover
    rw [start_refit] at hafter houtcomes
    exact ⟨hafter ▸ sameState_refit, fun k hk => (houtcomes k hk).2 rfl⟩
  refine ⟨hfits, ?_⟩
  intro k f hk _ _
  have hbefore : ∀ j ≤ k, ∀ f, ((start p w limits).after j).fault = some f → ¬ f.cause.IsOverflow := by
    intro j hj f hf
    obtain ⟨d, rfl⟩ := Nat.exists_eq_add_of_le hj
    rw [after_add, Ended.after (.inr (by rw [hf]; rfl)), hf] at hk
    nomatch hk
  obtain ⟨hstate, houtcomes⟩ := hfits k (hbefore k (Nat.le_refl k))
  exact ⟨hstate, fun j hj => ⟨(hfits j (hbefore j (Nat.le_of_lt hj))).1, houtcomes j hj⟩⟩

/-- A command that calls itself four times, and then overflows. -/
theorem larger_limits_of_recursion :
    (⟨4, 0, 0⟩ : Limits) ≤ ⟨8, 0, 0⟩ ∧
      ∃ p, p = Program.empty.replace 0 ⟨0xa000, 1⟩ ∧
        ((start p World.empty ⟨4, 0, 0⟩).after 4).step.1 = .error ⟨.stackOverflow, 0⟩ ∧
        ((start p World.empty ⟨4, 0, 0⟩).after 4).SameState ((start p World.empty ⟨8, 0, 0⟩).after 4) ∧
        ∀ j < 4, ((start p World.empty ⟨8, 0, 0⟩).after j).step.1 = ((start p World.empty ⟨4, 0, 0⟩).after j).step.1 := by
  have hle : (⟨4, 0, 0⟩ : Limits) ≤ ⟨8, 0, 0⟩ := ⟨by decide, by decide, by decide⟩
  have hgoing : ((start (Program.empty.replace 0 ⟨0xa000, 1⟩) World.empty ⟨4, 0, 0⟩).after 4).fault = none := by
    decide +kernel
  have hoverflows : ((start (Program.empty.replace 0 ⟨0xa000, 1⟩) World.empty ⟨4, 0, 0⟩).after 4).step.1 =
      .error ⟨.stackOverflow, 0⟩ := by decide +kernel
  obtain ⟨hstate, hbefore⟩ := (larger_limits hle).2 4 _ hgoing hoverflows trivial
  exact ⟨hle, _, rfl, hoverflows, hstate, fun j hj => (hbefore j hj).2⟩

end Machine

end GridRobot

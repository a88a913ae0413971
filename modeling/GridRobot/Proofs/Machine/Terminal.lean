import GridRobot.Proofs.Machine.Invariant
import GridRobot.Proofs.Machine.Run

/-!
# Ends of runs

A machine that has halted or faulted stays as it is until it is rewound. A step that faults does nothing by half: but for the fault
the machine is as before, except that a test or an operator that lacks conditions leaves none, and that an instruction which would
go on behind the end of memory has been performed (`terminal_states`).
-/

namespace GridRobot

namespace Machine

/-! ## Machines that have ended -/

section

variable {m : Machine}

/-- A machine that has faulted reports its fault at every further step, and stays as it is. -/
theorem step_of_fault {f : Fault} (h : m.fault = some f) : m.step = (.error f, m) := by
  unfold step
  rw [h]

/-- A machine that has halted takes empty steps, and stays as it is. -/
theorem step_of_halted (hf : m.fault = none) (h : m.halted = true) :
    m.step = (.ok (m.report m.pc .blank false), m) := by
  unfold step
  rw [hf]
  exact if_pos h

/-- Batches of steps do not change a machine that has ended either. -/
theorem Ended.execute (h : m.Ended) (interrupted : Bool) (cycles : Nat) : (m.execute interrupted cycles).2 = m := by
  obtain ⟨n, hn⟩ := m.exists_after_of_execute interrupted cycles
  rw [hn, h.after]

end

/-! ## Steps that fault -/

section

variable {limits : Limits} {m m' : Machine} {op : Opcode}

/-- What an operation does has nothing to do with the program counter. -/
theorem pc_of_does {a next : Nat} (h : m.Does a op m' next) : m'.pc = m.pc := by
  cases h <;> rfl

/-- Only an action changes the world, and what follows it is the next instruction. -/
theorem world_of_does {a next : Nat} (h : m.Does a op m' next) :
    m'.world = m.world ∨ (∃ x, op = .act x) ∧ next = a + 1 := by
  cases h with
  | act => exact .inr ⟨⟨_, rfl⟩, rfl⟩
  | _ => exact .inl rfl

theorem clear_of_items {α : Type} {s : Stack α} (h : s.items = []) : s.clear = s := by
  cases s
  cases h
  rfl

/-- An operation that is refused for want of conditions leaves none; otherwise it leaves the machine as it is. -/
theorem eq_of_refuses {cause : FaultCause} (hs : m.Sound limits) (h : m.Refuses op m' cause) :
    cause ≠ .addressOutOfRange ∧ (cause = .conditionUnderflow ∧ m' = { m with conditions := m.conditions.clear } ∨
      cause ≠ .conditionUnderflow ∧ m' = m) := by
  have hover := hs.conditions.overflow_eq
  have hunder := hs.conditions.underflow_eq
  cases h with
  | act => exact ⟨nofun, .inr ⟨nofun, rfl⟩⟩
  | sense => rw [hover]; exact ⟨nofun, .inr ⟨nofun, rfl⟩⟩
  | not hempty | test _ hempty => rw [hunder, clear_of_items hempty]; exact ⟨nofun, .inl ⟨rfl, rfl⟩⟩
  | combine => rw [hunder]; exact ⟨nofun, .inl ⟨rfl, rfl⟩⟩
  | push => rw [hs.loops.overflow_eq]; exact ⟨nofun, .inr ⟨nofun, rfl⟩⟩
  | loop => rw [hs.loops.underflow_eq]; exact ⟨nofun, .inr ⟨nofun, rfl⟩⟩
  | call => rw [hs.calls.overflow_eq]; exact ⟨nofun, .inr ⟨nofun, rfl⟩⟩

/-- What a step leaves that faults: the program counter where it was, and apart from the fault what the cause says. -/
structure Faults (m : Machine) (f : Fault) (m' : Machine) : Prop where
  address : f.address = m.pc
  pc : m'.pc = m.pc
  fault : m'.fault = some f
  whole : f.cause ≠ .conditionUnderflow → f.cause ≠ .addressOutOfRange → m' = { m with fault := some f }
  underflow : f.cause = .conditionUnderflow → m' = { m with conditions := m.conditions.clear, fault := some f }
  outside : f.cause = .addressOutOfRange → m'.world ≠ m.world →
    m.pc = 4095 ∧ ∃ i x, m.program.get? m.pc = some i ∧ i.decode = some (.act x)

/-- A step that is the first to fault does nothing by half. -/
theorem Sound.faults {f : Fault} (hs : m.Sound limits) (hf : m.fault = none) (h : m.step = (.error f, m')) :
    m.Faults f m' := by
  have ht := step_transition hs.pc_lt hs.room
  rw [h] at ht
  cases ht with
  | faulted hfault =>
    rw [hf] at hfault
    nomatch hfault
  | illegal => exact ⟨rfl, rfl, rfl, fun _ _ => rfl, nofun, nofun⟩
  | refused _ _ _ _ hr =>
    obtain ⟨hrange, ⟨rfl, rfl⟩ | ⟨hcause, rfl⟩⟩ := eq_of_refuses hs hr
    · exact ⟨rfl, rfl, rfl, fun hne => absurd rfl hne, fun _ => rfl, nofun⟩
    · exact ⟨rfl, rfl, rfl, fun _ _ => rfl, fun heq => absurd heq hcause, fun heq => absurd heq hrange⟩
  | outside _ _ hi hop hd hnext =>
    have hpc := pc_of_does hd
    refine ⟨rfl, hpc, rfl, fun _ hne => absurd rfl hne, nofun, ?_⟩
    intro _ hworld
    rcases world_of_does hd with heq | ⟨⟨x, rfl⟩, rfl⟩
    · exact absurd heq hworld
    · have hlt : m.pc < 4096 := hs.pc_lt
      have hge : 4096 ≤ m.pc + 1 := hnext
      exact ⟨by omega, _, x, hi, hop⟩

end

/-- A machine that has faulted answers every further step with the same fault, one that has halted reports that it has halted and
does not pause, and neither is changed by a step or by a batch of steps; rewinding it, giving it another program or putting it into
another world wakes it. A step that is the first to fault does nothing by half. -/
theorem terminal_states {limits : Limits} {m : Machine} (h : m.Reachable limits) :
    (∀ f, m.fault = some f → ∀ n, m.after n = m ∧ (m.after n).step = (.error f, m)) ∧
      (m.halted = true → ∀ n, m.after n = m ∧
        ∃ s, (m.after n).step = (.ok s, m) ∧ s.halted = true ∧ s.pause = false) ∧
      (m.Ended → ∀ interrupted cycles, (m.execute interrupted cycles).2 = m) ∧
      (∀ p w, ¬ m.reset.Ended ∧ ¬ (m.load p).Ended ∧ ¬ (m.setWorld w).Ended) ∧
      ∀ f m', m.fault = none → m.step = (.error f, m') → m.Faults f m' := by
  refine ⟨?_, ?_, fun hended => hended.execute, ?_, fun f m' hf hstep => h.sound.faults hf hstep⟩
  · intro f hf n
    have hsame : m.after n = m := Ended.after (.inr (by rw [hf]; rfl)) n
    rw [hsame]
    exact ⟨rfl, step_of_fault hf⟩
  · intro hhalted n
    have hsame : m.after n = m := Ended.after (.inl hhalted) n
    rw [hsame]
    exact ⟨rfl, _, step_of_halted (h.sound.apart hhalted) hhalted, hhalted, rfl⟩
  · intro p w
    have hawake : ∀ m : Machine, ¬ m.reset.Ended := by
      rintro m (he | he) <;> nomatch he
    exact ⟨hawake m, hawake _, hawake _⟩

/-- The end of a repeat without a begin. -/
theorem terminal_states_of_loop :
    ∃ m m' : Machine, m = start (Program.empty.replace 0 ⟨0x9000, 1⟩) World.empty .standard ∧
      m.step = (.error ⟨.loopUnderflow, 0⟩, m') ∧ m' = { m with fault := some ⟨.loopUnderflow, 0⟩ } ∧
      ∀ n, (m'.after n).step = (.error ⟨.loopUnderflow, 0⟩, m') := by
  have hreach : (start (Program.empty.replace 0 ⟨0x9000, 1⟩) World.empty .standard).Reachable .standard := .start _ .empty
  have hfetch : (Program.empty.replace 0 ⟨0x9000, 1⟩).get? 0 = some ⟨0x9000, 1⟩ := by
    simp [Program.get?, Program.replace]
  have hdecode : (⟨0x9000, 1⟩ : Instruction).decode = some (.loop 0) := by decide
  obtain ⟨m', hstep⟩ : ∃ m', (start (Program.empty.replace 0 ⟨0x9000, 1⟩) World.empty .standard).step =
      (.error ⟨.loopUnderflow, 0⟩, m') := by
    simp [step, start, hfetch, retire, hdecode, perform, countDown, Stack.modifyTop, Stack.empty, fail]
  obtain ⟨-, -, -, -, hfaults⟩ := terminal_states hreach
  have hwhole := hfaults _ m' rfl hstep
  have hafter := hreach.step
  rw [hstep] at hafter
  obtain ⟨habsorbs, -⟩ := terminal_states hafter
  exact ⟨_, m', rfl, hstep, hwhole.whole (by decide) (by decide), fun n => (habsorbs _ hwhole.fault n).2⟩

end Machine

end GridRobot

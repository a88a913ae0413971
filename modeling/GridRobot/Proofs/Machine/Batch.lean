import GridRobot.Proofs.Machine.Run

/-!
# Batches of steps

A batch performs steps one after the other up to the first that faults, halts or pauses. It leaves the machine as these steps do
and reports the last of them (`batches_are_steps`), so it does not matter how a batch is cut in two.
-/

namespace GridRobot

/-- How the outcome of a step ends a batch, if it does. A step that halts ends it so even if it pauses too. -/
def Event.ofStep? : Except Fault Step → Option Event
  | .error f => some (.fault f)
  | .ok s => if s.halted then some .stopped else if s.pause then some (.paused s) else none

/-- A step that ends a batch does not leave it running. -/
theorem Event.ofStep?_ne_running (r : Except Fault Step) : Event.ofStep? r ≠ some .running := by
  unfold Event.ofStep?
  split
  · exact nofun
  · split
    · exact nofun
    · split <;> exact nofun

namespace Machine

variable {m : Machine}

/-- A batch whose first step ends it does no more. -/
theorem execute_of_ofStep?_eq_some {e : Event} (h : Event.ofStep? m.step.1 = some e) (n : Nat) :
    m.execute false (n + 1) = (e, m.step.2) := by
  rw [execute, if_neg Bool.false_ne_true]
  cases hs : m.step with
  | mk r after =>
    rw [hs] at h
    cases r with
    | error f => exact congrArg (·, after) (Option.some.inj h)
    | ok s =>
      simp only [Event.ofStep?] at h ⊢
      split at h
      · rename_i hhalted
        rw [if_pos hhalted, Option.some.inj h]
      · rename_i hawake
        rw [if_neg hawake]
        split at h
        · rename_i hpause
          rw [if_pos hpause, Option.some.inj h]
        · nomatch h

/-- A batch whose first step does not end it goes on with the steps that are left. -/
theorem execute_of_ofStep?_eq_none (h : Event.ofStep? m.step.1 = none) (n : Nat) :
    m.execute false (n + 1) = m.step.2.execute false n := by
  rw [execute, if_neg Bool.false_ne_true]
  cases hs : m.step with
  | mk r after =>
    rw [hs] at h
    cases r with
    | error f => nomatch h
    | ok s =>
      simp only [Event.ofStep?] at h ⊢
      split at h
      · nomatch h
      · rename_i hawake
        rw [if_neg hawake]
        split at h
        · nomatch h
        · rename_i hpause
          rw [if_neg hpause]

/-- A batch is so many steps, or as many as there are up to the first that ends it. The induction is on the number of steps. -/
theorem execute_eq_after (m : Machine) (n : Nat) :
    (∃ k < n, ∃ e, (∀ j < k, Event.ofStep? (m.after j).step.1 = none) ∧ Event.ofStep? (m.after k).step.1 = some e ∧
        m.execute false n = (e, m.after (k + 1))) ∨
      (∀ j < n, Event.ofStep? (m.after j).step.1 = none) ∧ m.execute false n = (.running, m.after n) := by
  induction n generalizing m with
  | zero => exact .inr ⟨nofun, rfl⟩
  | succ n ih =>
    cases hs : Event.ofStep? m.step.1 with
    | some e => exact .inl ⟨0, Nat.succ_pos n, e, nofun, hs, execute_of_ofStep?_eq_some hs n⟩
    | none =>
      have quiet : ∀ k, (∀ j < k, Event.ofStep? (m.step.2.after j).step.1 = none) →
          ∀ j < k + 1, Event.ofStep? (m.after j).step.1 = none := by
        intro k h j hj
        cases j with
        | zero => exact hs
        | succ j => exact h j (Nat.lt_of_succ_lt_succ hj)
      rw [execute_of_ofStep?_eq_none hs n]
      rcases ih m.step.2 with ⟨k, hk, e, hquiet, hend, hrun⟩ | ⟨hquiet, hrun⟩
      · exact .inl ⟨k + 1, Nat.succ_lt_succ hk, e, quiet k hquiet, hend, hrun⟩
      · exact .inr ⟨quiet n hquiet, hrun⟩

/-- A batch goes on where a shorter one has left off, unless this one has ended early. -/
theorem execute_add (m : Machine) (a b : Nat) :
    m.execute false (a + b) =
      match m.execute false a with
      | (.running, m') => m'.execute false b
      | r => r := by
  induction a generalizing m with
  | zero => rw [Nat.zero_add]; rfl
  | succ a ih =>
    rw [Nat.succ_add]
    cases hs : Event.ofStep? m.step.1 with
    | some e =>
      rw [execute_of_ofStep?_eq_some hs, execute_of_ofStep?_eq_some hs]
      cases e with
      | running => exact absurd hs (Event.ofStep?_ne_running _)
      | paused | stopped | interrupted | fault => rfl
    | none =>
      rw [execute_of_ofStep?_eq_none hs, execute_of_ofStep?_eq_none hs]
      exact ih m.step.2

/-- A batch of steps leaves the machine as some number of steps do. -/
theorem exists_after_of_execute (m : Machine) (interrupted : Bool) (cycles : Nat) :
    ∃ n, (m.execute interrupted cycles).2 = m.after n := by
  cases interrupted with
  | true =>
    cases cycles <;> exact ⟨0, rfl⟩
  | false =>
    rcases m.execute_eq_after cycles with ⟨k, -, e, -, -, hrun⟩ | ⟨-, hrun⟩
    · exact ⟨k + 1, congrArg Prod.snd hrun⟩
    · exact ⟨cycles, congrArg Prod.snd hrun⟩

/-- Batches are iterated steps. Without an interruption, a batch of `n` steps leaves the machine as the first `k + 1` of them do
where the last of these is the first to fault, to halt or to pause, and reports how it does; where there is none, it leaves the
machine as all `n` do and is still running. So a batch of `a + b` steps is one of `a` steps and, only if this is still running, one
of `b`. With an interruption, no batch that has a step to do does any. -/
theorem batches_are_steps (m : Machine) :
    (∀ n, (∃ k < n, ∃ e, (∀ j < k, Event.ofStep? (m.after j).step.1 = none) ∧
          Event.ofStep? (m.after k).step.1 = some e ∧ m.execute false n = (e, m.after (k + 1))) ∨
        (∀ j < n, Event.ofStep? (m.after j).step.1 = none) ∧ m.execute false n = (.running, m.after n)) ∧
      (∀ a b, m.execute false (a + b) =
        match m.execute false a with
        | (.running, m') => m'.execute false b
        | r => r) ∧
      ∀ n, m.execute true (n + 1) = (.interrupted, m) :=
  ⟨execute_eq_after m, execute_add m, fun _ => rfl⟩

end Machine

end GridRobot

import GridRobot.Proofs.Machine.Batch
import GridRobot.Session

/-!
# Stepping in batches

A run up to a goal performs batch after batch until one of them ends it. Where the batches begin and end cannot be seen: whatever
the number of steps in a batch, the run comes to its end at the first step that faults, that halts or, if the run goes to the next
pause, that pauses, and reports this step (`batch_size_unobservable`).
-/

namespace GridRobot

namespace Session

/-! ## Ends of a run -/

/-- What a run reports of the step that ends it. A step that faults or halts ends every run, and one that pauses ends a run that goes
to the next pause. -/
def Goal.ofStep? (goal : Goal) : Except Fault Step → Option String
  | .error f => some (faultReport f)
  | .ok s => if s.halted then some stoppedReport else if s.pause ∧ goal = .pause then some "" else none

/-- What a run reports of the batch that ends it. -/
def Goal.ofEvent? (goal : Goal) : Event → Option String
  | .running => none
  | .paused _ => if goal = .pause then some "" else none
  | .stopped => some stoppedReport
  | .interrupted => some "interrupted\n"
  | .fault f => some (faultReport f)

/-- A run that is performed step by step ends behind so many steps and one more with a report in a machine: this step is the first
that ends it. -/
structure Goal.EndsAt (goal : Goal) (n : Nat) (m : Machine) (r : String × Machine) : Prop where
  quiet : ∀ j < n, goal.ofStep? (m.after j).step.1 = none
  last : goal.ofStep? (m.after n).step.1 = some r.1
  arrives : m.after (n + 1) = r.2

/-- A run in batches ends with a report in a machine, after however many batches. -/
def Returns (goal : Goal) (cycles : Nat) (m : Machine) (r : String × Machine) : Prop :=
  ∃ batches, advance goal cycles batches m = some r

section

variable {goal : Goal} {m : Machine} {r r' : String × Machine} {cycles n k : Nat}

/-- A run ends in one way only. -/
theorem Goal.EndsAt.unique (h : goal.EndsAt n m r) (h' : goal.EndsAt k m r') : r = r' := by
  obtain rfl : n = k := by
    rcases Nat.lt_trichotomy n k with hlt | heq | hgt
    · nomatch (h'.quiet n hlt).symm.trans h.last
    · exact heq
    · nomatch (h.quiet k hgt).symm.trans h'.last
  exact Prod.ext (Option.some.inj (h.last.symm.trans h'.last)) (h.arrives.symm.trans h'.arrives)

/-- Steps that end nothing may be put in front of a run. -/
theorem Goal.EndsAt.behind (hquiet : ∀ j < k, goal.ofStep? (m.after j).step.1 = none) (h : goal.EndsAt n (m.after k) r) :
    goal.EndsAt (k + n) m r where
  quiet := by
    intro j hj
    rcases Nat.lt_or_ge j k with hlt | hge
    · exact hquiet j hlt
    · obtain ⟨d, rfl⟩ := Nat.exists_eq_add_of_le hge
      rw [Machine.after_add]
      exact h.quiet d (by omega)
  last := by rw [Machine.after_add]; exact h.last
  arrives := by rw [Nat.add_assoc, Machine.after_add]; exact h.arrives

/-- What is left of a run ends as the run does. -/
theorem Goal.EndsAt.rest (h : goal.EndsAt (k + n) m r) : goal.EndsAt n (m.after k) r where
  quiet := by
    intro j hj
    rw [← Machine.after_add]
    exact h.quiet _ (by omega)
  last := by rw [← Machine.after_add]; exact h.last
  arrives := by rw [← Machine.after_add, ← Nat.add_assoc]; exact h.arrives

/-- A run can only end with steps that end batches. -/
theorem Goal.ofStep?_eq (goal : Goal) (result : Except Fault Step) :
    goal.ofStep? result = (Event.ofStep? result).bind goal.ofEvent? := by
  cases result with
  | error f => rfl
  | ok s =>
    unfold Event.ofStep? Goal.ofStep?
    dsimp only
    split
    · rfl
    · by_cases hpause : s.pause = true
      · simp [hpause, Goal.ofEvent?]
      · simp [hpause]

/-! ## One batch -/

theorem advance_succ (goal : Goal) (cycles batches : Nat) (m : Machine) :
    advance goal cycles (batches + 1) m =
      match goal.ofEvent? (m.execute false cycles).1 with
      | some text => some (text, (m.execute false cycles).2)
      | none => advance goal cycles batches (m.execute false cycles).2 := by
  rw [advance]
  rcases m.execute false cycles with ⟨e, after⟩
  cases e with
  | paused => cases goal <;> rfl
  | running | stopped | interrupted | fault => rfl

/-- A batch with a step to do performs steps of which only the last may end the run, and is reported as this one. -/
theorem exists_of_execute (goal : Goal) (m : Machine) (h : 0 < cycles) :
    ∃ k, (∀ j < k, goal.ofStep? (m.after j).step.1 = none) ∧
      goal.ofEvent? (m.execute false cycles).1 = goal.ofStep? (m.after k).step.1 ∧
      (m.execute false cycles).2 = m.after (k + 1) := by
  have quiet : ∀ {j}, Event.ofStep? (m.after j).step.1 = none → goal.ofStep? (m.after j).step.1 = none := by
    intro j hj
    rw [goal.ofStep?_eq, hj, Option.bind_none]
  rcases m.execute_eq_after cycles with ⟨k, -, e, hquiet, hend, hrun⟩ | ⟨hquiet, hrun⟩
  · refine ⟨k, fun j hj => quiet (hquiet j hj), ?_, by rw [hrun]⟩
    rw [hrun, goal.ofStep?_eq, hend, Option.bind_some]
  · -- the batch is still running, so its last step ends nothing
    obtain ⟨k, rfl⟩ : ∃ k, cycles = k + 1 := ⟨cycles - 1, by omega⟩
    refine ⟨k, fun j hj => quiet (hquiet j (Nat.lt_succ_of_lt hj)), ?_, by rw [hrun]⟩
    rw [hrun, quiet (hquiet k (Nat.lt_succ_self k))]
    rfl

/-! ## Batch after batch -/

/-- A run in batches ends as the run step by step does. The induction is on the batches. -/
theorem endsAt_of_returns (h : 0 < cycles) (hreturns : Returns goal cycles m r) : ∃ n, goal.EndsAt n m r := by
  obtain ⟨batches, hrun⟩ := hreturns
  induction batches generalizing m with
  | zero => nomatch hrun
  | succ batches ih =>
    obtain ⟨k, hquiet, hreport, hafter⟩ := exists_of_execute goal m h
    rw [advance_succ, hreport, hafter] at hrun
    cases hlast : goal.ofStep? (m.after k).step.1 with
    | some text =>
      rw [hlast] at hrun
      obtain rfl := Option.some.inj hrun
      exact ⟨k, hquiet, hlast, rfl⟩
    | none =>
      rw [hlast] at hrun
      obtain ⟨n, hends⟩ := ih hrun
      refine ⟨k + 1 + n, .behind ?_ hends⟩
      intro j hj
      rcases Nat.lt_succ_iff_lt_or_eq.1 hj with hlt | rfl
      · exact hquiet j hlt
      · exact hlast

/-- A run step by step that ends does so in batches too. The induction is on the steps that are left: a batch that does not end the run
has performed at least one of them. -/
theorem returns_of_endsAt (h : 0 < cycles) (hends : goal.EndsAt n m r) : Returns goal cycles m r := by
  induction n using Nat.strongRecOn generalizing m with
  | _ n ih =>
    obtain ⟨k, hquiet, hreport, hafter⟩ := exists_of_execute goal m h
    rcases Nat.lt_trichotomy n k with hlt | rfl | hgt
    · nomatch (hquiet n hlt).symm.trans hends.last
    · exact ⟨1, by rw [advance_succ, hreport, hends.last, hafter, hends.arrives]⟩
    · obtain ⟨d, rfl⟩ : ∃ d, n = k + 1 + d := Nat.exists_eq_add_of_le hgt
      obtain ⟨batches, hrest⟩ := ih d (by omega) hends.rest
      refine ⟨batches + 1, ?_⟩
      rw [advance_succ, hreport, hends.quiet k (by omega), hafter]
      exact hrest

theorem returns_iff (h : 0 < cycles) : Returns goal cycles m r ↔ ∃ n, goal.EndsAt n m r :=
  ⟨endsAt_of_returns h, fun ⟨_, hends⟩ => returns_of_endsAt h hends⟩

end

/-- The number of steps in a batch cannot be observed. A run up to the next pause or to the end that comes back with one number of
steps in a batch comes back with any other, with the same report and in the same machine: those of the first step that faults, halts
or, if the run goes to the next pause, pauses. It comes back exactly if there is such a step. -/
theorem batch_size_unobservable (m : Machine) (goal : Goal) {cycles cycles' : Nat} (h : 0 < cycles) (h' : 0 < cycles') :
    (∀ r, Returns goal cycles m r ↔ Returns goal cycles' m r) ∧
      (∀ r r', Returns goal cycles m r → Returns goal cycles' m r' → r = r') ∧
      ∀ r, Returns goal cycles m r ↔ ∃ n, goal.EndsAt n m r := by
  refine ⟨?_, ?_, fun r => returns_iff h⟩
  · intro r
    rw [returns_iff h, returns_iff h']
  · intro r r' hr hr'
    obtain ⟨n, hends⟩ := (returns_iff h).1 hr
    obtain ⟨k, hends'⟩ := (returns_iff h').1 hr'
    exact hends.unique hends'

/-- Sensing does not pause and turning does: one step at a time, the way to the pause takes two batches. In larger batches it comes to
the same. -/
theorem batch_size_unobservable_of_turn :
    ∃ p r, assemble "BEEP\nTRNL" = .ok p ∧ advance .pause 1 1 (.start p .empty .standard) = none ∧
      advance .pause 1 2 (.start p .empty .standard) = some r ∧ Returns .pause 5000 (.start p .empty .standard) r := by
  have hrun : (assemble "BEEP\nTRNL").toOption.any (fun p =>
      (advance .pause 1 1 (.start p .empty .standard)).isNone &&
        (advance .pause 1 2 (.start p .empty .standard)).isSome) = true := by decide +kernel
  cases hp : assemble "BEEP\nTRNL" with
  | error e =>
    rw [hp] at hrun
    nomatch hrun
  | ok p =>
    rw [hp] at hrun
    obtain ⟨hnone, hsome⟩ := Bool.and_eq_true_iff.1 hrun
    obtain ⟨r, hr⟩ := Option.isSome_iff_exists.1 hsome
    obtain ⟨hsame, -⟩ := batch_size_unobservable (.start p .empty .standard) .pause (show 0 < 1 by decide)
      (show 0 < 5000 by decide)
    exact ⟨p, r, rfl, Option.isNone_iff_eq_none.1 hnone, hr, (hsame r).1 ⟨2, hr⟩⟩

end Session

end GridRobot

import GridRobot.Proofs.Machine.Invariant
import GridRobot.Proofs.Machine.Run
import GridRobot.Proofs.World.Change

/-!
# What runs leave as it is

A run is one step after the other, none of which faults. No run changes the floor plan, each of its steps changes no more of the
world than its action does, and beepers are neither made nor lost: those at the end are those at the beginning without the ones that
were picked and with the ones that were dropped (`runs_conserve`).
-/

namespace GridRobot

/-- The action that an operation is, if it is one. -/
def Opcode.action? : Opcode → Option Action
  | act a => some a
  | _ => none

/-- The action that a step has performed, if its instruction says one. -/
def Step.action? (s : Step) : Option Action := s.instruction.decode.bind Opcode.action?

namespace Machine

variable {limits : Limits} {m m' : Machine} {s : Step}

/-! ## One step -/

/-- An operation changes the world as its action does, and is without influence on the world if it is none. -/
theorem changes_of_does {op : Opcode} {a next : Nat} (hfloor : m.world.floor.Regular) (h : m.Does a op m' next) :
    World.Changes op.action? m.world m'.world := by
  cases h with
  | act hact => exact World.changes_of_perform hfloor hact
  | combine hop =>
    cases op with
    | act => nomatch hop
    | _ => exact .none _
  | test hop =>
    cases op with
    | act => nomatch hop
    | _ => exact .none _
  | _ => exact .none _

/-- A step that does not fault changes the world as its action does. -/
theorem Sound.changes (hs : m.Sound limits) (h : m.step = (.ok s, m')) : World.Changes s.action? m.world m'.world := by
  have ht := step_transition hs.pc_lt hs.room
  rw [h] at ht
  cases ht with
  | halted =>
    have hblank : Instruction.blank.decode = some .ret := by decide
    rw [Step.action?, report, hblank]
    exact .none _
  | done _ _ _ hop hd =>
    have hchanges := changes_of_does hs.world hd
    rwa [Step.action?, report, hop]

/-! ## Runs -/

/-- From one machine to another lead steps that do not fault; these are what they report. -/
inductive Runs : Machine → List Step → Machine → Prop
  | nil (m : Machine) : Runs m [] m
  | cons {m m₁ m' : Machine} {s : Step} {steps : List Step} (h : m.step = (.ok s, m₁)) (hrest : Runs m₁ steps m') :
      Runs m (s :: steps) m'

namespace Runs

variable {steps before after : List Step}

/-- Steps one after the other are a run as long as none of them faults. -/
theorem of_after {n : Nat} (h : ∀ i < n, ((m.after i).step.1).isOk = true) :
    ∃ steps, steps.map .ok = (List.range n).map (fun i => (m.after i).step.1) ∧ m.Runs steps (m.after n) := by
  induction n generalizing m with
  | zero => exact ⟨[], rfl, .nil m⟩
  | succ n ih =>
    cases hstep : m.step with
    | mk result m₁ =>
    cases result with
    | error f =>
      have hfirst := h 0 (Nat.succ_pos n)
      rw [after, hstep] at hfirst
      cases hfirst
    | ok s =>
      have hbehind : ∀ i, m.after (i + 1) = m₁.after i := by
        intro i
        rw [after, hstep]
      obtain ⟨steps, hsteps, hruns⟩ := @ih m₁ fun i hi => by
        rw [← hbehind]
        exact h (i + 1) (Nat.succ_lt_succ hi)
      refine ⟨s :: steps, ?_, ?_⟩
      · simp [List.range_succ_eq_map, hsteps, after, hstep]
      · rw [hbehind]
        exact .cons hstep hruns

theorem sound (h : m.Runs steps m') (hs : m.Sound limits) : m'.Sound limits := by
  induction h with
  | nil => exact hs
  | cons hstep _ ih =>
    have hnext := hs.step
    rw [hstep] at hnext
    exact ih hnext

/-- Each step of a run has its place between two machines. -/
theorem split (h : m.Runs (before ++ s :: after) m') :
    ∃ m₁ m₂, m.Runs before m₁ ∧ m₁.step = (.ok s, m₂) ∧ m₂.Runs after m' := by
  induction before generalizing m with
  | nil =>
    obtain _ | ⟨hstep, hrest⟩ := h
    exact ⟨m, _, .nil m, hstep, hrest⟩
  | cons first before ih =>
    obtain _ | ⟨hstep, hrest⟩ := h
    obtain ⟨m₁, m₂, hbefore, hs, hafter⟩ := ih hrest
    exact ⟨m₁, m₂, .cons hstep hbefore, hs, hafter⟩

/-- The floor plan stays over a run, and beepers are picked and dropped one by one. -/
theorem conserves (h : m.Runs steps m') (hs : m.Sound limits) :
    m'.world.floor = m.world.floor ∧
      m'.world.count + steps.countP (·.action? = some .pick) =
        m.world.count + steps.countP (·.action? = some .drop) := by
  induction h with
  | nil => exact ⟨rfl, rfl⟩
  | @cons m m₁ m' s steps hstep _ ih =>
    have hchanges := hs.changes hstep
    have hnext := hs.step
    rw [hstep] at hnext
    obtain ⟨hfloor, hcount⟩ := ih hnext
    have hone := hchanges.count
    refine ⟨hfloor.trans hchanges.floor, ?_⟩
    simp only [List.countP_cons, decide_eq_true_eq]
    omega

end Runs

/-- Runs of steps that do not fault, from the start of any words in any world, leave the floor plan as it is; and the beepers at the
end and the steps that picked one are as many as the beepers at the beginning and the steps that dropped one. Each of the steps
changes what the robot's own cell holds by picking or dropping only, the robot's place by moving only, which takes it to the next
cell without a wall in between, and its heading by turning only. -/
theorem runs_conserve {p : Program} {w : World} {steps : List Step} (hw : w.Reachable)
    (h : (start p w limits).Runs steps m) :
    m.world.floor = w.floor ∧
      m.world.count + steps.countP (·.action? = some .pick) = w.count + steps.countP (·.action? = some .drop) ∧
      ∀ before s after, steps = before ++ s :: after →
        ∃ m₁ m₂, (start p w limits).Runs before m₁ ∧ m₁.step = (.ok s, m₂) ∧ m₂.Runs after m ∧
          World.Changes s.action? m₁.world m₂.world := by
  have hs : (start p w limits).Sound limits := .start p hw.regular
  obtain ⟨hfloor, hcount⟩ := h.conserves hs
  refine ⟨hfloor, hcount, ?_⟩
  rintro before s after rfl
  obtain ⟨m₁, m₂, hbefore, hstep, hafter⟩ := h.split
  exact ⟨m₁, m₂, hbefore, hstep, hafter, (hbefore.sound hs).changes hstep⟩

/-- A beeper is dropped and left behind, and the machine halts. -/
theorem runs_conserve_of_drop :
    ∃ steps m, (start ((Program.empty.replace 0 ⟨6, 1⟩).replace 1 ⟨1, 1⟩) World.empty .standard).Runs steps m ∧
      steps.map Step.action? = [some .drop, some .move, none] ∧ m.world.count = World.empty.count + 1 ∧
      m.world.floor = World.empty.floor := by
  obtain ⟨steps, hsteps, hruns⟩ :=
    @Runs.of_after (start ((Program.empty.replace 0 ⟨6, 1⟩).replace 1 ⟨1, 1⟩) World.empty .standard) 3 (by decide +kernel)
  have hactions : steps.map Step.action? = [some .drop, some .move, none] := by
    have hreports := congrArg (List.map fun r => r.toOption.bind Step.action?) hsteps
    rw [List.map_map] at hreports
    exact hreports.trans (by decide +kernel)
  have hcountP : ∀ a, steps.countP (·.action? = some a) = (steps.map Step.action?).countP (· = some a) := by
    intro a
    rw [List.countP_map]
    rfl
  have hpicked : [some Action.drop, some .move, none].countP (· = some .pick) = 0 := by decide
  have hdropped : [some Action.drop, some .move, none].countP (· = some .drop) = 1 := by decide
  obtain ⟨hfloor, hcount, -⟩ := runs_conserve .empty hruns
  rw [hcountP, hcountP, hactions, hpicked, hdropped, Nat.add_zero] at hcount
  exact ⟨steps, _, hruns, hactions, hcount, hfloor⟩

end Machine

end GridRobot

import GridRobot.Proofs.Machine.Batch

/-!
# Rewinding

A machine that is rewound is as good as new, whatever has been done with it: it is the machine that starts the program that was
loaded last, in the world that it was put into last, within the limits it was made with (`rewound_is_fresh`). So is one that is given
another program or another world.
-/

namespace GridRobot

/-- What can be done with a machine. -/
inductive Use where
  | step
  | execute (interrupted : Bool) (cycles : Nat)
  | reset
  | load (program : Program)
  | setWorld (world : World)

namespace Use

/-- The program that is loaded, if one is. -/
def program? : Use → Option Program
  | load p => some p
  | _ => none

/-- The world that the machine is put into, if it is. -/
def world? : Use → Option World
  | setWorld w => some w
  | _ => none

/-- The program that is loaded last, or the one at the beginning. -/
def lastProgram (p : Program) (uses : List Use) : Program := (uses.filterMap program?).getLastD p

/-- The world that the machine is put into last, or the one at the beginning. -/
def lastWorld (w : World) (uses : List Use) : World := (uses.filterMap world?).getLastD w

theorem lastProgram_cons (p : Program) (u : Use) (uses : List Use) :
    lastProgram p (u :: uses) = lastProgram (u.program?.getD p) uses := by
  cases u with
  | load q => exact List.getLastD_cons
  | step | execute | reset | setWorld => rfl

theorem lastWorld_cons (w : World) (u : Use) (uses : List Use) :
    lastWorld w (u :: uses) = lastWorld (u.world?.getD w) uses := by
  cases u with
  | setWorld v => exact List.getLastD_cons
  | step | execute | reset | load => rfl

end Use

namespace Machine

variable {m : Machine} {p : Program} {w : World} {limits : Limits}

/-- The machine behind one use. -/
def use (m : Machine) : Use → Machine
  | .step => m.step.2
  | .execute interrupted cycles => (m.execute interrupted cycles).2
  | .reset => m.reset
  | .load p => m.load p
  | .setWorld w => m.setWorld w

/-- The machine behind uses one after the other. -/
def useAll (m : Machine) (uses : List Use) : Machine := uses.foldl use m

/-- Running a batch leaves the rewound machine as it is. -/
theorem execute_reset (m : Machine) (interrupted : Bool) (cycles : Nat) :
    (m.execute interrupted cycles).2.reset = m.reset := by
  obtain ⟨n, hn⟩ := m.exists_after_of_execute interrupted cycles
  rw [hn, after_reset]

/-- What is loaded into a machine is as good as loaded into the rewound one. -/
theorem load_eq_start (h : m.reset = start p w limits) (q : Program) : m.load q = start q w limits :=
  congrArg (fun m => m.load q) h

/-- Putting a machine into another world starts it anew there. -/
theorem setWorld_eq_start (h : m.reset = start p w limits) (v : World) : m.setWorld v = start p v limits :=
  congrArg (fun m => m.setWorld v) h

/-- One use changes what the machine is rewound to by the program or the world that it brings along. -/
theorem reset_use (h : m.reset = start p w limits) (u : Use) :
    (m.use u).reset = start (u.program?.getD p) (u.world?.getD w) limits := by
  cases u with
  | step => exact m.step_reset.trans h
  | execute interrupted cycles => exact (m.execute_reset interrupted cycles).trans h
  | reset => exact congrArg reset h
  | load q => exact congrArg reset (load_eq_start h q)
  | setWorld v => exact congrArg reset (setWorld_eq_start h v)

/-- After any uses, the rewound machine is that of the last program and the last world. -/
theorem reset_useAll (h : m.reset = start p w limits) (uses : List Use) :
    (m.useAll uses).reset = start (Use.lastProgram p uses) (Use.lastWorld w uses) limits := by
  induction uses generalizing m p w with
  | nil => exact h
  | cons u uses ih =>
    rw [Use.lastProgram_cons, Use.lastWorld_cons]
    exact ih (reset_use h u)

/-- Whatever has been done with a machine since it was started, rewinding it leaves it as one that is started with the program that
was loaded last, in the world that it was put into last, within the same limits. Loading a program leaves it as one that is started
with this program, and putting it into a world as one that is started there. So the steps behind a rewinding are those from a fresh
start, each with the same outcome. -/
theorem rewound_is_fresh (p : Program) (w : World) (limits : Limits) (uses : List Use) :
    ((start p w limits).useAll uses).reset = start (Use.lastProgram p uses) (Use.lastWorld w uses) limits ∧
      (∀ q, ((start p w limits).useAll uses).load q = start q (Use.lastWorld w uses) limits) ∧
      (∀ v, ((start p w limits).useAll uses).setWorld v = start (Use.lastProgram p uses) v limits) ∧
      ∀ n, (((start p w limits).useAll uses).reset.after n).step =
        ((start (Use.lastProgram p uses) (Use.lastWorld w uses) limits).after n).step := by
  have hreset : ((start p w limits).useAll uses).reset = start (Use.lastProgram p uses) (Use.lastWorld w uses) limits :=
    reset_useAll rfl uses
  refine ⟨hreset, load_eq_start hreset, setWorld_eq_start hreset, ?_⟩
  intro n
  rw [hreset]

end Machine

end GridRobot

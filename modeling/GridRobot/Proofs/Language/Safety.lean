import GridRobot.Proofs.Language.Preservation

/-!
# Compiled programs run safely

Whatever a compiled program is entered with, whatever world it runs in and whatever the limits are, as long as there is room for 64
conditions: its program counter stays inside the program, it faults only for the causes that a program can be stopped for, and
where it halts its stacks are empty.
-/

namespace GridRobot

open Machine

/-- What a compiled program keeps a machine to: it is at an instruction of the program, it has faulted for a cause of the language
if at all, and it has halted at the exit and with empty stacks if at all. -/
structure Machine.Safe (m : Machine) (p : Program) (exit : Nat) : Prop where
  inside : m.pc < p.size
  causes : ∀ f, m.fault = some f → f.cause.OfLanguage
  exits : m.halted = true → m.calls.items = [] ∧ m.loops.items = [] ∧ m.conditions.items = [] ∧ m.pc = exit

namespace Machine.Safe

variable {S : Setting} {m : Machine} {exit : Nat}

/-- A machine that is going is safe. -/
theorem of_going (hp : m.program = S.program) (h : m.Going) : m.Safe S.program exit where
  inside := hp ▸ h.inside
  causes := by
    intro f hf
    rw [h.sound] at hf
    nomatch hf
  exits := by
    intro hh
    rw [h.awake] at hh
    nomatch hh

/-- A run that ends with a fault of the language is safe. -/
theorem of_fault {cause : FaultCause} {a : Nat} {cs ls : List Nat} {bs : List Bool} {w : World}
    (hc : cause.OfLanguage) (ha : a < S.program.size) : (S.ended (some cause) a cs ls bs w).Safe S.program exit where
  inside := ha
  causes := by
    rintro _ ⟨⟩
    exact hc
  exits := nofun

/-- A run that ends at its exit with nothing left on its stacks is safe. -/
theorem of_exit {w : World} (h : exit < S.program.size) : (S.ended none exit [] [] [] w).Safe S.program exit where
  inside := h
  causes := nofun
  exits := fun _ => ⟨rfl, rfl, rfl, rfl⟩

/-- A run that follows results is safe in every state: up to where the result says, because the machine is going, and from there
on, because it stays as it has ended. -/
theorem of_follows {R : Nat → Result} (hm : m.program = S.program) (hexit : exit < S.program.size)
    (h : ∀ n, S.Follows n m (fun w => S.ended none exit [] [] [] w) (R n)) (n : Nat) :
    (m.after n).Safe S.program exit := by
  have hprogram : (m.after n).program = S.program := (m.after_program n).trans hm
  have hf := h (n + 1)
  cases hr : R (n + 1) with
  | finished w =>
    rw [hr] at hf
    obtain ⟨k, hk⟩ := hf
    rcases hk.going_or_ended (Setting.ended_ended none) n with hg | he
    · exact of_going hprogram hg
    · rw [he]
      exact of_exit hexit
  | stopped cause w =>
    rw [hr] at hf
    obtain ⟨hc, k, a, cs, ls, ha, hk⟩ := hf
    rcases hk.going_or_ended (Setting.ended_ended (some cause)) n with hg | he
    · exact of_going hprogram hg
    · rw [he]
      exact of_fault hc ha
  | unfinished =>
    rw [hr] at hf
    obtain ⟨k, m', hk, hp⟩ := hf
    exact of_going hprogram (hp.going n hk)

/-- A run of a program of admissible declarations is safe if there is room for 64 conditions. -/
theorem of_assembleAll {ds : List Declaration} {depth : Nat} {asked : Option String} {p : Program}
    (ha : Grammar.Admissible ds depth) (hp : Compiler.assembleAll ds asked = .ok p) (w : World) {limits : Limits}
    (hc : 64 ≤ limits.conditions) (n : Nat) : ((start p w limits).after n).Safe p (Declaration.exitIn ds) := by
  let S : Setting := ⟨p, w, limits⟩
  obtain ⟨-, hreturn, -⟩ := loaded_of_assembleAll ha hp
  have hexit : Declaration.exitIn ds < S.program.size := by
    have hlt := Program.lt_size_of_instructions hreturn
    unfold Declaration.exitIn
    split
    · exact Nat.lt_of_succ_lt hlt
    · exact hlt
  have hstart : start p w limits = S.running 0 [] [] [] w := S.start_eq
  rw [hstart]
  exact of_follows rfl hexit (Setting.follows_program (S := S) ha hp hc) n

end Machine.Safe

/-- Compiled programs run safely: in every state that a run of any number of steps comes to, whatever the program is entered with,
the world it starts in, and the limits on calls and repeats are. -/
theorem compiled_runs_safely {source : String} {asked : Option String} {p : Program}
    (h : compile source asked = .ok p) :
    ∃ ds, parse source = .ok ds ∧ ∀ w limits n, 64 ≤ limits.conditions →
      ((Machine.start p w limits).after n).Safe p (if ds = [] then 0 else 1) := by
  obtain ⟨ts, eof, lexicon, ds, depth, hlex, hs, ha, hparse, hp⟩ := admissible_of_compile h
  exact ⟨ds, hparse, fun w limits n hc => Machine.Safe.of_assembleAll ha hp w hc n⟩

set_option maxRecDepth 100000 in
/-- Entered with a command that is not `main` and that calls itself as long as the way is clear. Where few calls are allowed it
faults on the way, and the run is safe all the same. -/
theorem compiled_runs_safely_from_go :
    ∃ source p ds, source = "void main() { go(); } void go() { if (frontIsClear()) { moveForward(); go(); } }" ∧
      compile source (some "go") = .ok p ∧ parse source = .ok ds ∧ ∀ w limits n, 64 ≤ limits.conditions →
        ((Machine.start p w limits).after n).Safe p (if ds = [] then 0 else 1) := by
  have hok : (compile "void main() { go(); } void go() { if (frontIsClear()) { moveForward(); go(); } }"
      (some "go")).isOk = true := by decide +kernel
  obtain ⟨p, hp⟩ := exists_of_isOk hok
  obtain ⟨ds, hparse, hsafe⟩ := compiled_runs_safely hp
  exact ⟨_, p, ds, rfl, hp, hparse, hsafe⟩

end GridRobot

import GridRobot.Language.Tree
import GridRobot.Machine

/-!
# What a program means

The statements of the language performed in a world, block by block and without addresses. Commands may call each other and loops
may go on for ever, so a run is given a number of rounds: each call of a command and each further round of a `while` takes one, and
a run that has none left is unfinished. More rounds never change how a run ends, only whether it does.

Calls and repeats that have not ended are counted, and no more of them may be active at once than the limits allow.

What a sensor tells and what a command does is said here with the operations on worlds alone. That the machine reads and performs
the same is a lemma for each of its tables (`Sensor.read_eq_holds`, `Action.run_eq`).
-/

namespace GridRobot

/-- What a sensor asks about the robot and its world. -/
def Sensor.holds : Sensor → World → Bool
  | onBeeper, w => w.onBeeper
  | beeperAhead, w => w.beeperAhead
  | leftIsClear, w => w.leftIsClear
  | frontIsClear, w => w.frontIsClear
  | rightIsClear, w => w.rightIsClear

/-- The machine reads of a world what the sensor asks about it. -/
theorem Sensor.read_eq_holds (s : Sensor) (w : World) : s.read w = s.holds w := by
  cases s <;> rfl

/-- The value of a condition in a world. -/
def Condition.eval : Condition → World → Bool
  | sense s _, w => s.holds w
  | not c _, w => !c.eval w
  | and left right _, w => left.eval w && right.eval w
  | or left right _, w => left.eval w || right.eval w

/-- How a run has ended, if it has. -/
inductive Result where
  | finished (w : World)
  | stopped (cause : FaultCause) (w : World)
  | unfinished
  deriving DecidableEq

namespace Result

/-- What an operation on a world comes to: the world it gives, or its refusal, which stops the run in the world as it is. -/
def ofOperation (w : World) : Except WorldError World → Result
  | .ok w' => finished w'
  | .error e => stopped (.world e) w

/-- Goes on in the world that a run has finished in. -/
def andThen (r : Result) (next : World → Result) : Result :=
  match r with
  | finished w => next w
  | stopped cause w => stopped cause w
  | unfinished => unfinished

/-- Does something a number of times. -/
def times (body : World → Result) : Nat → World → Result
  | 0, w => finished w
  | n + 1, w => (body w).andThen (times body n)

/-- One run is as far as it goes what the other one is. -/
def Upto (r r' : Result) : Prop := r = unfinished ∨ r = r'

theorem Upto.refl (r : Result) : r.Upto r := .inr rfl

theorem Upto.trans {r r' r'' : Result} (h : r.Upto r') (h' : r'.Upto r'') : r.Upto r'' := by
  rcases h with rfl | rfl
  · exact .inl rfl
  · exact h'

theorem Upto.andThen {r r' : Result} {f f' : World → Result} (h : r.Upto r') (hf : ∀ w, (f w).Upto (f' w)) :
    (r.andThen f).Upto (r'.andThen f') := by
  rcases h with rfl | rfl
  · exact .inl rfl
  · cases r with
    | finished w => exact hf w
    | stopped cause w => exact .refl _
    | unfinished => exact .refl _

theorem Upto.times {f f' : World → Result} (hf : ∀ w, (f w).Upto (f' w)) (n : Nat) (w : World) :
    (Result.times f n w).Upto (Result.times f' n w) := by
  induction n generalizing w with
  | zero => exact .refl _
  | succ n ih => exact (hf w).andThen ih

end Result

/-- What a robot does in a world by an action. Only moving, picking and dropping can be refused. -/
def Action.run : Action → World → Result
  | move, w => .ofOperation w w.move
  | turnLeft, w => .finished w.turnLeft
  | turnAround, w => .finished w.turnAround
  | turnRight, w => .finished w.turnRight
  | pick, w => .ofOperation w w.pick
  | drop, w => .ofOperation w w.drop

/-- The machine performs of an action what the robot does by it. -/
theorem Action.run_eq (a : Action) (w : World) : a.run w = .ofOperation w (a.perform w) := by
  cases a <;> rfl

/-- Performs a statement while so many calls and repeats are active. A command that is called and a further round of a `while` are
left to `again`. -/
def Statement.perform (limits : Limits) (body : String → Statement) (again : Nat → Nat → Statement → World → Result)
    (calls : Nat) : (loops : Nat) → Statement → World → Result
  | _, nothing, w => .finished w
  | loops, andThen first rest, w =>
    (first.perform limits body again calls loops w).andThen (rest.perform limits body again calls loops)
  | _, act a _, w => a.run w
  | loops, call name _ _, w =>
    if calls < limits.calls then again (calls + 1) loops (body name) w else .stopped .stackOverflow w
  | loops, ifThen test _ inner, w =>
    if test.eval w then inner.perform limits body again calls loops w else .finished w
  | loops, ifElse test _ inner otherwise, w =>
    if test.eval w then inner.perform limits body again calls loops w
    else otherwise.perform limits body again calls loops w
  | loops, whileDo test line inner, w =>
    if test.eval w then
      (inner.perform limits body again calls loops w).andThen (again calls loops (whileDo test line inner))
    else .finished w
  | loops, repeatTimes count _ inner _, w =>
    if loops < limits.loops then Result.times (inner.perform limits body again calls (loops + 1)) count w
    else .stopped .loopOverflow w

/-- Performs a statement in a number of rounds while so many calls and repeats are active. -/
def Statement.run (limits : Limits) (body : String → Statement) :
    (rounds calls loops : Nat) → Statement → World → Result
  | 0, _, _, _, _ => .unfinished
  | rounds + 1, calls, loops, s, w => s.perform limits body (run limits body rounds) calls loops w

/-- A statement is performed as far as what is left to others is. -/
theorem Statement.perform_upto {limits : Limits} {body : String → Statement}
    {again again' : Nat → Nat → Statement → World → Result}
    (h : ∀ c l s w, (again c l s w).Upto (again' c l s w)) (s : Statement) (c l : Nat) (w : World) :
    (s.perform limits body again c l w).Upto (s.perform limits body again' c l w) := by
  induction s generalizing l w with
  | nothing => exact .refl _
  | andThen first rest ih₁ ih₂ => exact (ih₁ l w).andThen (ih₂ l)
  | act a => exact .refl _
  | call name =>
    unfold perform
    split
    · exact h _ _ _ _
    · exact .refl _
  | ifThen test line inner ih =>
    unfold perform
    split
    · exact ih l w
    · exact .refl _
  | ifElse test line inner otherwise ih₁ ih₂ =>
    unfold perform
    split
    · exact ih₁ l w
    · exact ih₂ l w
  | whileDo test line inner ih =>
    unfold perform
    split
    · exact (ih l w).andThen (h _ _ _)
    · exact .refl _
  | repeatTimes count line inner closing ih =>
    unfold perform
    split
    · exact .times (ih (l + 1)) count w
    · exact .refl _

theorem Statement.run_upto_succ {limits : Limits} {body : String → Statement} (n c l : Nat) (s : Statement) (w : World) :
    (s.run limits body n c l w).Upto (s.run limits body (n + 1) c l w) := by
  induction n generalizing c l s w with
  | zero => exact .inl rfl
  | succ n ih => exact s.perform_upto ih c l w

/-- More rounds do not change how a run ends. -/
theorem Statement.run_upto {limits : Limits} {body : String → Statement} {n k : Nat} (h : n ≤ k) (c l : Nat)
    (s : Statement) (w : World) : (s.run limits body n c l w).Upto (s.run limits body k c l w) := by
  induction h with
  | refl => exact .refl _
  | step _ ih => exact ih.trans (s.run_upto_succ _ c l w)

/-! ## Programs -/

namespace Declaration

/-- The body of the first command of a name. -/
def bodyIn (declared : List Declaration) (name : String) : Statement :=
  match declared.find? (fun d => d.name == name) with
  | some d => d.body
  | none => .nothing

/-- The command that a program is entered with: the one asked for, and otherwise `main`, or the first command if there is no
`main`. -/
def entryIn (declared : List Declaration) (asked : Option String) : Option String :=
  asked.or (((declared.find? (fun d => d.name == "main")).or declared.head?).map (·.name))

/-- Only a program without commands has no entry. -/
theorem eq_nil_of_entryIn {ds : List Declaration} {asked : Option String} (h : entryIn ds asked = none) :
    ds = [] := by
  obtain ⟨-, h⟩ := Option.or_eq_none_iff.1 h
  obtain ⟨-, h⟩ := Option.or_eq_none_iff.1 (Option.map_eq_none_iff.1 h)
  exact List.head?_eq_none_iff.1 h

/-- Runs a program in a number of rounds. Its entry is called like any other command; without commands there is nothing to do. -/
def runAll (limits : Limits) (declared : List Declaration) (asked : Option String) (rounds : Nat) (w : World) : Result :=
  match entryIn declared asked with
  | some name => (Statement.call name 0 0).run limits (bodyIn declared) rounds 0 0 w
  | none => .finished w

section

variable (limits : Limits) (declared : List Declaration) (asked : Option String) (w : World)

/-- In enough rounds the program finishes in a world. -/
def Finishes (w' : World) : Prop := ∃ n, runAll limits declared asked n w = .finished w'

/-- In enough rounds the program stops in a world for a cause. -/
def Stops (cause : FaultCause) (w' : World) : Prop := ∃ n, runAll limits declared asked n w = .stopped cause w'

/-- No number of rounds is enough for the program to end. -/
def NeverEnds : Prop := ∀ n, runAll limits declared asked n w = .unfinished

end

/-- A run that ends in some number of rounds ends so in every number that is enough. -/
theorem runAll_upto {limits : Limits} {declared : List Declaration} {asked : Option String} {n k : Nat} (h : n ≤ k)
    (w : World) : (runAll limits declared asked n w).Upto (runAll limits declared asked k w) := by
  unfold runAll
  split
  · exact Statement.run_upto h _ _ _ w
  · exact .refl _

end Declaration

end GridRobot

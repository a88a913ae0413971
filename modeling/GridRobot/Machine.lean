import GridRobot.Machine.Stack
import GridRobot.Program

/-!
# The machine

Runs a program in a world, one instruction at a time. Beside the program counter it has three bounded stacks: return addresses,
repeat counts and conditions. A run starts at address 0 and ends when a return finds no call to go back from, or with a fault. A
machine that has halted or faulted stays as it is until it is rewound.
-/

namespace GridRobot

/-- How many values each stack may hold. -/
structure Limits where
  calls : Nat
  loops : Nat
  conditions : Nat
  deriving DecidableEq, Repr

/-- The limits of a machine that is given no others. -/
def Limits.standard : Limits := ⟨1024, 1024, 64⟩

/-- A machine in the middle of a run. -/
structure Machine where
  program : Program
  /-- The world that a run starts in. -/
  origin : World
  world : World
  pc : Nat
  calls : Stack Nat
  loops : Stack Nat
  conditions : Stack Bool
  halted : Bool
  fault : Option Fault
  deriving DecidableEq

/-- What one instruction did. -/
structure Step where
  address : Nat
  instruction : Instruction
  /-- The address that the next instruction is taken from. -/
  next : Nat
  pause : Bool
  halted : Bool
  world : World
  deriving DecidableEq, Repr

/-- How a batch of instructions ended. -/
inductive Event where
  | paused (step : Step)
  | running
  | stopped
  | interrupted
  | fault (f : Fault)
  deriving DecidableEq, Repr

namespace Machine

/-- A machine at the start of a program in a world. -/
def start (program : Program) (world : World) (limits : Limits) : Machine where
  program := program
  origin := world
  world := world
  pc := 0
  calls := Stack.empty limits.calls .stackOverflow .stackOverflow
  loops := Stack.empty limits.loops .loopOverflow .loopUnderflow
  conditions := Stack.empty limits.conditions .conditionOverflow .conditionUnderflow
  halted := false
  fault := none

/-- Rewinds the machine to the start of its program in the world it started in. -/
def reset (m : Machine) : Machine where
  program := m.program
  origin := m.origin
  world := m.origin
  pc := 0
  calls := m.calls.clear
  loops := m.loops.clear
  conditions := m.conditions.clear
  halted := false
  fault := none

/-- Puts another program into the machine and rewinds it. -/
def load (m : Machine) (program : Program) : Machine := reset { m with program }

/-- Puts the machine into another world and rewinds it. -/
def setWorld (m : Machine) (world : World) : Machine := reset { m with origin := world }

/-- The number of calls that have not returned. -/
def callDepth (m : Machine) : Nat := m.calls.size

/-! ## One operation

An operation at an address changes the machine and says which address comes next, or what went wrong. What it changed before
something went wrong stays changed. -/

/-- What an operation leaves: the machine, and the next address or the cause of a fault. -/
abbrev Outcome := Machine × Except FaultCause Nat

/-- Goes on at `next` with what `set` makes of a value, unless there is none. -/
def continueWith {α : Type} (m : Machine) (next : Nat) (value : Except FaultCause α) (set : α → Machine) : Outcome :=
  match value with
  | .ok a => (set a, .ok next)
  | .error cause => (m, .error cause)

/-- Puts a condition on the stack and goes on at `next`. -/
def pushCondition (m : Machine) (next : Nat) (b : Bool) : Outcome :=
  m.continueWith next (m.conditions.push b) (fun s => { m with conditions := s })

/-- Replaces the two topmost conditions by one. -/
def combine (m : Machine) (next : Nat) (f : Bool → Bool → Bool) : Outcome :=
  match m.conditions.pop₂ with
  | (s, .ok (a, b)) => { m with conditions := s }.pushCondition next (f a b)
  | (s, .error cause) => ({ m with conditions := s }, .error cause)

/-- Takes a condition, and goes on at `target` if it is `b` and at `next` if not. -/
def branch (m : Machine) (next target : Nat) (b : Bool) : Outcome :=
  match m.conditions.pop with
  | .ok (a, s) => ({ m with conditions := s }, .ok (if a = b then target else next))
  | .error cause => (m, .error cause)

/-- Goes back behind the last call, or halts if there is none. -/
def goBack (m : Machine) (address : Nat) : Outcome :=
  if m.calls.isEmpty then ({ m with halted := true }, .ok address)
  else
    match m.calls.pop with
    | .ok (back, s) => ({ m with calls := s }, .ok back)
    | .error cause => (m, .error cause)

/-- Counts the topmost repeat count down; goes behind `target` while it is not zero, and takes it away when it is. -/
def countDown (m : Machine) (next target : Nat) : Outcome :=
  match m.loops.modifyTop (· - 1) with
  | .error cause => (m, .error cause)
  | .ok s =>
    if s.top?.any (0 < ·) then ({ m with loops := s }, .ok (target + 1))
    else
      match s.pop with
      | .ok (_, s) => ({ m with loops := s }, .ok next)
      | .error cause => ({ m with loops := s }, .error cause)

/-- Performs an operation that was taken from an address. -/
def perform (m : Machine) (address : Nat) : Opcode → Outcome
  | .ret => m.goBack address
  | .act a => m.continueWith (address + 1) ((a.perform m.world).mapError .world) (fun w => { m with world := w })
  | .sense s => m.pushCondition (address + 1) (s.read m.world)
  | .not => m.continueWith (address + 1) (m.conditions.modifyTop (!·)) (fun s => { m with conditions := s })
  | .and => m.combine (address + 1) (· && ·)
  | .or => m.combine (address + 1) (· || ·)
  | .xor => m.combine (address + 1) (· != ·)
  | .push count => m.continueWith (address + 1) (m.loops.push count) (fun s => { m with loops := s })
  | .loop target => m.countDown (address + 1) target
  | .call target => m.continueWith target (m.calls.push (address + 1)) (fun s => { m with calls := s })
  | .jump target => (m, .ok target)
  | .jumpUnless target => m.branch (address + 1) target false
  | .jumpIf target => m.branch (address + 1) target true

/-- Performs an instruction that was taken from an address. A next address behind the end of memory is a fault. -/
def retire (m : Machine) (address : Nat) (i : Instruction) : Except FaultCause Unit × Machine :=
  match i.decode with
  | none => (.error (.illegalWord i.word), m)
  | some op =>
    match m.perform address op with
    | (m, .ok next) => if next < memorySize then (.ok (), { m with pc := next }) else (.error .addressOutOfRange, m)
    | (m, .error cause) => (.error cause, m)

/-! ## Steps and batches -/

/-- What is reported of an instruction that has been performed. -/
def report (m : Machine) (address : Nat) (i : Instruction) (pause : Bool) : Step :=
  ⟨address, i, m.pc, pause, m.halted, m.world⟩

/-- Ends the run with a fault. -/
def fail (m : Machine) (f : Fault) : Except Fault Step × Machine := (.error f, { m with fault := some f })

/-- Performs the next instruction. -/
def step (m : Machine) : Except Fault Step × Machine :=
  match m.fault with
  | some f => (.error f, m)
  | none =>
    if m.halted then (.ok (m.report m.pc .blank false), m)
    else
      match m.program.get? m.pc with
      | none => m.fail ⟨.addressOutOfRange, m.pc⟩
      | some i =>
        match m.retire m.pc i with
        | (.ok (), after) => (.ok (after.report m.pc i i.pauses), after)
        | (.error cause, after) => after.fail ⟨cause, m.pc⟩

/-- Performs up to `cycles` instructions. Stops early behind a pause, at the end of the program, at a fault, and in front of an
instruction if the run is interrupted. -/
def execute (m : Machine) (interrupted : Bool) : (cycles : Nat) → Event × Machine
  | 0 => (.running, m)
  | cycles + 1 =>
    if interrupted then (.interrupted, m)
    else
      match m.step with
      | (.error f, after) => (.fault f, after)
      | (.ok s, after) =>
        if s.halted then (.stopped, after)
        else if s.pause then (.paused s, after)
        else after.execute interrupted cycles

end Machine

end GridRobot

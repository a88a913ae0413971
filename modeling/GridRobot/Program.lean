import GridRobot.Diagnostic
import GridRobot.Instruction

/-!
# Programs

A memory of 4096 instructions, of which the first `size` were put there; the rest are returns. Beside them a program has the
address it is entered at and the commands it declares, with their addresses.
-/

namespace GridRobot

/-- The number of instructions in memory. -/
abbrev memorySize : Nat := 4096

/-- Instructions in memory, and what is known about them. -/
structure Program where
  memory : Vector Instruction memorySize
  size : Nat
  entry : Nat
  commands : List (String × Nat)
  size_le : size ≤ memorySize
  deriving DecidableEq

namespace Program

/-- The program without instructions. -/
def empty : Program := ⟨Vector.replicate memorySize .blank, 0, 0, [], Nat.zero_le _⟩

instance : Inhabited Program := ⟨empty⟩

/-- The instruction at an address; none behind the end of memory. -/
def get? (p : Program) (address : Nat) : Option Instruction := p.memory[address]?

/-- The instructions that were put into memory. -/
def instructions (p : Program) : List Instruction := p.memory.toList.take p.size

/-- Puts an instruction behind the others, and gives its address. -/
def push (p : Program) (i : Instruction) : Except SourceError (Nat × Program) :=
  if h : p.size < memorySize then
    .ok (p.size, { p with memory := p.memory.set p.size i, size := p.size + 1, size_le := h })
  else .error ⟨.programTooLong, 0⟩

/-- Puts instructions behind the others, one after the other. -/
def pushAll (p : Program) : List Instruction → Except SourceError Program
  | [] => .ok p
  | i :: rest => do
    let (_, p) ← p.push i
    p.pushAll rest

/-- Puts another instruction at an address, if it is in memory. The number of instructions stays. -/
def replace (p : Program) (address : Nat) (i : Instruction) : Program :=
  { p with memory := p.memory.setIfInBounds address i }

/-- Changes the target of the instruction at an address, if it is in memory. -/
def patch (p : Program) (address target : Nat) : Program :=
  match p.get? address with
  | some i => p.replace address (i.withTarget target)
  | none => p

/-- The program entered at another address. -/
def withEntry (p : Program) (entry : Nat) : Program := { p with entry }

/-- The program with one more command. -/
def addCommand (p : Program) (name : String) (address : Nat) : Program :=
  { p with commands := p.commands ++ [(name, address)] }

/-- The first command that is declared at an address. -/
def commandAt? (p : Program) (address : Nat) : Option String :=
  (p.commands.find? (fun command => command.2 == address)).map (·.1)

/-- The operations of the program, one to a line. -/
def disassembly (p : Program) : String := String.join (p.instructions.map (fun i => i.mnemonic ++ "\n"))

end Program

end GridRobot

import GridRobot.Opcode

/-!
# Instructions

An instruction word with the line of the text that it was made for. Line 0 marks words that no line stands for.
-/

namespace GridRobot

/-- A word and the line it was made for. -/
structure Instruction where
  word : UInt16
  line : Nat
  deriving DecidableEq, Repr

namespace Instruction

/-- The instruction that says an operation. -/
def of (op : Opcode) (line : Nat) : Instruction := ⟨op.encode, line⟩

/-- A return that no line stands for: what memory holds before a program is put there. -/
def blank : Instruction := ⟨0, 0⟩

instance : Inhabited Instruction := ⟨blank⟩

/-- The operation that the word says, if any. -/
def decode (i : Instruction) : Option Opcode := Opcode.decode i.word

/-- The part of the word that tells the category: the word without its low twelve bits. -/
def category (i : Instruction) : Nat := i.word.toNat / Opcode.operands * Opcode.operands

/-- The low twelve bits of the word. -/
def target (i : Instruction) : Nat := i.word.toNat % Opcode.operands

/-- The instruction with other low bits. -/
def withTarget (i : Instruction) (target : Nat) : Instruction :=
  { i with word := UInt16.ofNat (i.category + target % Opcode.operands) }

/-- The written form of the operation, or four question marks if the word says none. -/
def mnemonic (i : Instruction) : String := (i.decode.map Opcode.mnemonic).getD "????"

/-- Whether a line stands for the instruction. -/
def fromLine (i : Instruction) : Bool := decide (0 < i.line)

/-- Whether a run pauses behind the instruction: always behind an action, never behind sensing and logic, and otherwise if a
line stands for it. -/
def pauses (i : Instruction) : Bool :=
  match i.decode with
  | some (.act _) => true
  | some (.sense _) | some .not | some .and | some .or | some .xor => false
  | _ => i.fromLine

end Instruction

end GridRobot

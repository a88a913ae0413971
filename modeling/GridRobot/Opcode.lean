import GridRobot.Abilities
import GridRobot.Text.Numeral

/-!
# Operations of the machine

What an instruction word of 16 bits says. The top four bits are its category. Category 0 holds sixteen operations without an
operand; categories 8 to 13 hold those with one, a repeat count or an address in the low twelve bits. Every other word says
nothing. Twelve bits reach all of a memory of 4096 words.
-/

namespace GridRobot

open Text

/-- An operation of the machine. -/
inductive Opcode where
  /-- Goes back behind the last call, or halts if there is none. -/
  | ret
  | act (a : Action)
  | sense (s : Sensor)
  | not
  | and
  | or
  | xor
  /-- Puts a repeat count on the loop stack. -/
  | push (count : Nat)
  /-- Counts the top of the loop stack down and goes behind `target` while it is not zero. -/
  | loop (target : Nat)
  | call (target : Nat)
  | jump (target : Nat)
  /-- Jumps if the condition on top of the stack is false. -/
  | jumpUnless (target : Nat)
  /-- Jumps if the condition on top of the stack is true. -/
  | jumpIf (target : Nat)
  deriving DecidableEq, Repr

namespace Opcode

/-- The number of operands that twelve bits tell apart. -/
abbrev operands : Nat := 4096

/-- The operations without an operand, in the order of their words. -/
def primitives : List Opcode :=
  ret :: Action.all.map act ++ Sensor.all.map sense ++ [not, and, or, xor]

/-- The operation of a word, if it says one. -/
def decode (word : UInt16) : Option Opcode :=
  let target := word.toNat % operands
  match word.toNat / operands with
  | 0 => primitives[target]?
  | 8 => some (push target)
  | 9 => some (loop target)
  | 10 => some (call target)
  | 11 => some (jump target)
  | 12 => some (jumpUnless target)
  | 13 => some (jumpIf target)
  | _ => none

/-- The number of the word that says an operation. Of an operand only the low twelve bits are kept. -/
def code : Opcode → Nat
  | ret => 0
  | act a => 1 + Action.all.idxOf a
  | sense s => 7 + Sensor.all.idxOf s
  | not => 12
  | and => 13
  | or => 14
  | xor => 15
  | push count => 8 * operands + count % operands
  | loop target => 9 * operands + target % operands
  | call target => 10 * operands + target % operands
  | jump target => 11 * operands + target % operands
  | jumpUnless target => 12 * operands + target % operands
  | jumpIf target => 13 * operands + target % operands

/-- The word that says an operation. -/
def encode (op : Opcode) : UInt16 := UInt16.ofNat op.code

/-- The short name of an operation. -/
def name : Opcode → String
  | ret => "RET"
  | act .move => "MOVE"
  | act .turnLeft => "TRNL"
  | act .turnAround => "TRNA"
  | act .turnRight => "TRNR"
  | act .pick => "PICK"
  | act .drop => "DROP"
  | sense .onBeeper => "BEEP"
  | sense .beeperAhead => "HEAD"
  | sense .leftIsClear => "LCLR"
  | sense .frontIsClear => "FCLR"
  | sense .rightIsClear => "RCLR"
  | not => "NOT"
  | and => "AND"
  | or => "OR"
  | xor => "XOR"
  | push _ => "PUSH"
  | loop _ => "LOOP"
  | call _ => "CALL"
  | jump _ => "JUMP"
  | jumpUnless _ => "J0MP"
  | jumpIf _ => "J1MP"

/-- The operand of an operation that has one. -/
def operand? : Opcode → Option Nat
  | push n | loop n | call n | jump n | jumpUnless n | jumpIf n => some n
  | _ => none

/-- The written form of an operation: its name, and its operand in at least three hexadecimal digits. -/
def mnemonic (op : Opcode) : String :=
  match op.operand? with
  | some n => op.name ++ " " ++ hex 3 n
  | none => op.name

/-- The operation without an operand that has a name. -/
def primitiveNamed (name : String) : Option Opcode := primitives.find? (fun op => op.name == name)

/-- The operations with an operand, in the order of their words. -/
def addressed : List (Nat → Opcode) := [push, loop, call, jump, jumpUnless, jumpIf]

/-- The operation with an operand that has a name. -/
def addressedNamed (name : String) : Option (Nat → Opcode) := addressed.find? (fun op => (op 0).name == name)

end Opcode

end GridRobot

import GridRobot.Opcode

/-!
# Faults

Why a run ends before its program does, and at which address.
-/

namespace GridRobot

open Text

/-- The causes of faults. -/
inductive FaultCause where
  | stackOverflow
  | loopOverflow
  | loopUnderflow
  | conditionOverflow
  | conditionUnderflow
  | illegalWord (word : UInt16)
  | addressOutOfRange
  | world (e : WorldError)
  deriving DecidableEq, Repr

namespace FaultCause

/-- The cause in words. -/
def text : FaultCause → String
  | stackOverflow => "stack overflow"
  | loopOverflow => "too many nested repeats"
  | loopUnderflow => "loop without repeat count"
  | conditionOverflow => "condition too complex"
  | conditionUnderflow => "no condition to test"
  | illegalWord word => "illegal bytecode " ++ hex 4 word.toNat
  | addressOutOfRange => "program counter out of range"
  | world e => e.message

end FaultCause

/-- A cause, and the address of the instruction that met it. -/
structure Fault where
  cause : FaultCause
  address : Nat
  deriving DecidableEq, Repr

namespace Fault

/-- The fault in one line. -/
def message (f : Fault) : String := f.cause.text ++ " at " ++ hex 3 f.address

/-- The fault in braces, as a value is shown. -/
def shown (f : Fault) : String := "Fault \x7b " ++ f.message ++ " \x7d"

end Fault

end GridRobot

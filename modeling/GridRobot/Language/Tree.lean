import GridRobot.Abilities

/-!
# Programs as trees

What a program of the robot language says, with the lines that its instructions are made for. A block is a statement: nothing, or a
statement followed by the rest of the block.
-/

namespace GridRobot

/-- A condition. The line is that of the sensor or of the operator. -/
inductive Condition where
  | sense (s : Sensor) (line : Nat)
  | not (c : Condition) (line : Nat)
  | and (left right : Condition) (line : Nat)
  | or (left right : Condition) (line : Nat)
  deriving DecidableEq, Repr

/-- A statement. The line is that of the word it begins with. -/
inductive Statement where
  | nothing
  | andThen (first rest : Statement)
  | act (a : Action) (line : Nat)
  /-- Performs another command; the position is that of its name. -/
  | call (name : String) (line position : Nat)
  | ifThen (test : Condition) (line : Nat) (body : Statement)
  | ifElse (test : Condition) (line : Nat) (body otherwise : Statement)
  | whileDo (test : Condition) (line : Nat) (body : Statement)
  /-- Performs a block a number of times; `closing` is the line of its closing brace. -/
  | repeatTimes (count line : Nat) (body : Statement) (closing : Nat)
  deriving DecidableEq, Repr

/-- A command that a program declares; `closing` is the line of the closing brace of its body. -/
structure Declaration where
  name : String
  body : Statement
  closing : Nat
  deriving DecidableEq, Repr

/-- The commands that a statement calls, in the order of the text, with the positions of the calls. -/
def Statement.calls : Statement → List (String × Nat)
  | nothing | act _ _ => []
  | andThen first rest => first.calls ++ rest.calls
  | call name _ position => [(name, position)]
  | ifThen _ _ body | whileDo _ _ body | repeatTimes _ _ body _ => body.calls
  | ifElse _ _ body otherwise => body.calls ++ otherwise.calls

end GridRobot

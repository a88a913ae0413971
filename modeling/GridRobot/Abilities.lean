import GridRobot.World

/-!
# Actions and sensors

What a robot can do and what it can sense, by the names that programs use for them. An action changes the world or is refused; a
sensor reads a truth value from it.
-/

namespace GridRobot

/-- What a robot can do. -/
inductive Action where
  | move | turnLeft | turnAround | turnRight | pick | drop
  deriving DecidableEq, Repr

namespace Action

/-- The actions in the order of their instruction words. -/
def all : List Action := [move, turnLeft, turnAround, turnRight, pick, drop]

/-- The name of an action in a program. -/
def name : Action → String
  | move => "moveForward"
  | turnLeft => "turnLeft"
  | turnAround => "turnAround"
  | turnRight => "turnRight"
  | pick => "pickBeeper"
  | drop => "dropBeeper"

/-- The action of a name. -/
def ofName? (name : String) : Option Action := all.find? (fun a => a.name == name)

/-- The world after an action, or why it is refused. -/
def perform : Action → World → Except WorldError World
  | move, w => w.move
  | turnLeft, w => .ok w.turnLeft
  | turnAround, w => .ok w.turnAround
  | turnRight, w => .ok w.turnRight
  | pick, w => w.pick
  | drop, w => w.drop

end Action

/-- What a robot can sense. -/
inductive Sensor where
  | onBeeper | beeperAhead | leftIsClear | frontIsClear | rightIsClear
  deriving DecidableEq, Repr

namespace Sensor

/-- The sensors in the order of their instruction words. -/
def all : List Sensor := [onBeeper, beeperAhead, leftIsClear, frontIsClear, rightIsClear]

/-- The name of a sensor in a program. -/
def name : Sensor → String
  | onBeeper => "onBeeper"
  | beeperAhead => "beeperAhead"
  | leftIsClear => "leftIsClear"
  | frontIsClear => "frontIsClear"
  | rightIsClear => "rightIsClear"

/-- The sensor of a name. -/
def ofName? (name : String) : Option Sensor := all.find? (fun s => s.name == name)

/-- What a sensor reads in a world. -/
def read : Sensor → World → Bool
  | onBeeper, w => w.onBeeper
  | beeperAhead, w => w.beeperAhead
  | leftIsClear, w => w.leftIsClear
  | frontIsClear, w => w.frontIsClear
  | rightIsClear, w => w.rightIsClear

end Sensor

end GridRobot

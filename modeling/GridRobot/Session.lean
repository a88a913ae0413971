import GridRobot.Assembler
import GridRobot.Language.Compiler
import GridRobot.Machine
import GridRobot.Program.Listing
import GridRobot.Text.Style
import GridRobot.World.Drawing
import GridRobot.World.Level
import GridRobot.World.Scatter

/-!
# Sessions

Stepping through a program at a prompt. A session is opened from a program file and perhaps a level file; each line that is typed is
answered with a report and a drawing of the world. Reading the files again either succeeds as a whole or leaves the session as it is.

Files are read through a function that the caller gives. A run may go on for ever, so an answer has a number of batches of
instructions to come to an end in.
-/

namespace GridRobot

open Text

/-- What a session is opened with. -/
structure Options where
  /-- The file with the program. -/
  file : String
  /-- Whether the file is in the form of the assembler. -/
  assembly : Bool
  /-- The file with the level to start in. -/
  level : Option String
  /-- The seed of a level with scattered beepers. -/
  random : Option UInt64
  /-- The share of cells that get a beeper of the scattered ones. -/
  density : Float
  /-- The command that the program is entered with. -/
  entry : Option String
  /-- Whether the listing of the program is all that is wanted. -/
  list : Bool
  /-- The number of instructions in a batch. -/
  cycles : Nat
  deriving Repr

/-- How files are read: the text under a name, or why there is none. -/
abbrev FileReader : Type := String → Except String String

namespace Session

/-! ## Opening -/

/-- A line with one character underlined, or a space behind it if the column is the one behind its end. -/
def underlined (p : Palette) (line : List Char) (column : Nat) : String :=
  match line.drop (column - 1) with
  | c :: rest => String.ofList (line.take (column - 1)) ++ p.paint .underline c.toString ++ String.ofList rest
  | [] => String.ofList line ++ if line.length + 1 = column then p.paint .underline " " else ""

/-- An error with the line it is in, the column marked with the escape sequences of a palette. -/
def explainWith (p : Palette) (source : String) (e : SourceError) : String :=
  let d := e.diagnostic
  let l := d.location source
  let line := ((lines source.toList)[l.line - 1]?).getD []
  p.paint .bold d.message ++ "\n" ++ padded 4 l.line ++ " " ++ underlined p line l.column

/-- An error with the line it is in, for ANSI terminals. -/
def explain (source : String) (e : SourceError) : String := explainWith .ansi source e

/-- Makes the program of a text. -/
def build (o : Options) (source : String) : Except SourceError Program :=
  if o.assembly then assemble source else compile source o.entry

/-- A file's text, or its name and why there is none. -/
def readFile (files : FileReader) (name : String) : Except String String :=
  (files name).mapError (name ++ ": " ++ ·)

/-- The text and the program of the program file. -/
def loadProgram (o : Options) (files : FileReader) : Except String (String × Program) := do
  let source ← readFile files o.file
  let program ← (build o source).mapError (explain source)
  return (source, program)

/-- The world to start in: that of the level file, or one with scattered beepers, or the empty one. -/
def loadWorld (o : Options) (files : FileReader) : Except String World :=
  match o.level, o.random with
  | some name, _ => do
    let text ← readFile files name
    (Level.parse text).mapError (fun e => name ++ ": " ++ e.message)
  | none, some seed => .ok (World.scatter seed o.density)
  | none, none => .ok World.empty

end Session

/-- A program being stepped through. -/
structure Session where
  options : Options
  source : String
  machine : Machine

/-- What comes of a command line: a listing, a session with what it shows first, or why there is neither. -/
inductive Opening where
  | listing (text : String)
  | session (s : Session)
  | failed (message : String)

namespace Session

/-- A session at the start of a program. -/
def start (o : Options) (source : String) (program : Program) (world : World) : Session :=
  ⟨o, source, Machine.start program world Limits.standard⟩

/-- Opens a session, or lists the program if that is wanted. -/
def openWith (o : Options) (files : FileReader) : Opening :=
  match loadProgram o files with
  | .error message => .failed message
  | .ok (source, program) =>
    if o.list then .listing program.listing
    else
      match loadWorld o files with
      | .error message => .failed message
      | .ok world => .session (start o source program world)

/-! ## Reports -/

/-- Where the run is: the drawing of the world, the row of the next instruction with the line it was made for, and whether the
program has ended. -/
def status (s : Session) : String :=
  let m := s.machine
  let row := (m.program.row? m.pc).getD ""
  let line := ((m.program.get? m.pc).map Instruction.line).getD 0
  let text :=
    if line = 0 then ""
    else
      match (lines s.source.toList)[line - 1]? with
      | some text => "  " ++ padded 4 line ++ " " ++ String.ofList (trim text)
      | none => ""
  m.world.draw ++ row ++ text ++ (if m.halted then "  (halted)" else "") ++ "\n"

/-- The report of a fault. -/
def faultReport (f : Fault) : String := Palette.ansi.paint .bold f.message ++ "\n"

/-- The report of a program that has ended. -/
def stoppedReport : String := "stopped\n"

/-- The rows around the next instruction, which is bold, with the names of the commands that begin there. -/
def surroundings (m : Machine) : String :=
  String.join <| (m.program.window m.pc 8 8).map fun (address, row) =>
    let name := match m.program.commandAt? address with
      | some name => "    " ++ name ++ ":\n"
      | none => ""
    name ++ (if address = m.pc then Palette.ansi.paint .bold row else row) ++ "\n"

/-- The commands of the prompt. -/
def help : String := String.join
  ["s, step   run to the next pause\n",
    "i         run one instruction\n",
    "r, run    run to the end (Ctrl-C stops)\n",
    "reset     back to the starting world\n",
    "reload    read the program and world files again\n",
    "list      instructions around the program counter\n",
    "world     draw the world\n",
    "q, quit   leave\n"]

/-! ## Running -/

/-- How far a run goes: to the next pause, or to the end. -/
inductive Goal where
  | pause | finish
  deriving DecidableEq, Repr

/-- Runs batches of instructions up to a goal, and reports how the run ended. There is no answer if it has not ended within a
number of batches. -/
def advance (goal : Goal) (cycles : Nat) : (batches : Nat) → Machine → Option (String × Machine)
  | 0, _ => none
  | batches + 1, m =>
    match m.execute false cycles with
    | (.running, m) => advance goal cycles batches m
    | (.paused _, m) =>
      match goal with
      | .pause => some ("", m)
      | .finish => advance goal cycles batches m
    | (.stopped, m) => some (stoppedReport, m)
    | (.interrupted, m) => some ("interrupted\n", m)
    | (.fault f, m) => some (faultReport f, m)

/-- Runs one instruction. -/
def instruction (m : Machine) : String × Machine :=
  match m.step with
  | (.ok step, m) => (if step.halted then stoppedReport else "", m)
  | (.error f, m) => (faultReport f, m)

/-- Reads the files again and goes back to the start. A broken file leaves the session as it is. -/
def reload (s : Session) (files : FileReader) : String × Session :=
  match loadProgram s.options files with
  | .error message => (message ++ "\n", s)
  | .ok (source, program) =>
    match loadWorld s.options files with
    | .error message => (message ++ "\n", s)
    | .ok world => ("", { s with source, machine := (s.machine.load program).setWorld world })

/-! ## Commands -/

/-- What a typed line asks for. -/
inductive Command where
  | run (goal : Goal)
  | instruction
  | reset
  | reload
  | list
  | world
  | quit
  | help
  | unknown (word : String)
  deriving DecidableEq, Repr

/-- Reads a typed line. -/
def Command.ofLine (line : String) : Command :=
  match String.ofList (trim line.toList) with
  | "" | "s" | "step" => run .pause
  | "i" => instruction
  | "r" | "run" => run .finish
  | "reset" => reset
  | "reload" => reload
  | "list" => list
  | "world" => world
  | "q" | "quit" => quit
  | "h" | "help" => help
  | word => unknown word

/-- How a typed line is answered: with a report, after which the session goes on, or by leaving. A run that has not ended has no
answer yet. -/
inductive Answer where
  | report (text : String) (s : Session)
  | leave
  | unfinished

/-- The answer that reports from a machine. -/
def reportFrom (s : Session) (result : String × Machine) : Answer :=
  .report result.1 { s with machine := result.2 }

/-- Carries a command out. -/
def perform (s : Session) (files : FileReader) (batches : Nat) : Command → Answer
  | .run goal =>
    match advance goal (max s.options.cycles 1) batches s.machine with
    | some result => s.reportFrom result
    | none => .unfinished
  | .instruction => s.reportFrom (instruction s.machine)
  | .reset => s.reportFrom ("", s.machine.reset)
  | .reload =>
    let (text, s) := s.reload files
    .report text s
  | .list => .report (surroundings s.machine) s
  | .world => .report "" s
  | .quit => .leave
  | .help => .report help s
  | .unknown word => .report ("unknown command " ++ word ++ "\n" ++ help) s

/-- Answers a typed line: the report and where the run is then. -/
def answer (s : Session) (files : FileReader) (batches : Nat) (line : String) : Answer :=
  match s.perform files batches (Command.ofLine line) with
  | .report text s => .report (text ++ s.status) s
  | other => other

end Session

end GridRobot

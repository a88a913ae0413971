import GridRobot.CommandLine

/-!
# The program

Steps through a program at a prompt on the terminal. All that is decided is decided by `CommandLine` and `Session`; here files are
read, lines are typed and texts are printed.
-/

namespace GridRobot.Main

/-- Why a file could not be read. -/
def reason : IO.Error → String
  | .noFileOrDirectory .. => "No such file or directory (os error 2)"
  | e => toString e

/-- A file as it is now. -/
def readNow (name : String) : IO (String × Except String String) := do
  match ← (IO.FS.readFile name).toBaseIO with
  | .ok text => return (name, .ok text)
  | .error e => return (name, .error (reason e))

/-- The files of a session as they are now. -/
def filesOf (o : Options) : IO FileReader := do
  let files ← (o.file :: o.level.toList).mapM readNow
  return fun name => (files.lookup name).getD (.error "not a file of this session")

/-- More batches of instructions than any run can last. -/
def batches : Nat := 0x4000000000000000

/-- Answers one typed line after the other, up to the end of the input. -/
partial def prompt (s : Session) : IO Unit := do
  let out ← IO.getStdout
  out.putStr "karel> "
  out.flush
  let line ← (← IO.getStdin).getLine
  if line.isEmpty then
    return
  match s.answer (← filesOf s.options) batches line with
  | .report text s =>
    out.putStr text
    prompt s
  | .leave | .unfinished => return

/-- Opens what the arguments ask for. -/
def run (arguments : List String) : IO UInt32 := do
  match CommandLine.parse arguments with
  | .error message =>
    IO.eprintln message
    IO.eprintln CommandLine.usage
    return 2
  | .ok options =>
    match Session.openWith options (← filesOf options) with
    | .failed message =>
      IO.eprintln message
      return 1
    | .listing text =>
      IO.print text
      return 0
    | .session s =>
      IO.print s.status
      prompt s
      return 0

end GridRobot.Main

/-- The program. -/
def main (arguments : List String) : IO UInt32 := GridRobot.Main.run arguments

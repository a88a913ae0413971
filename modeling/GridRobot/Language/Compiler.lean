import GridRobot.Language.Code
import GridRobot.Language.Parser

/-!
# The compiler

Makes a program of a text. Word 0 calls the command that the program is entered with and word 1 ends it; the commands follow in the
order of the text. The entry is the command that is asked for, and otherwise `main`, or the first command if there is no `main`. A
text without commands becomes a program that ends at once.
-/

namespace GridRobot

namespace Compiler

/-- The first call of a command that no declaration names, if there is one. -/
def undefinedCall? (declared : List Declaration) : Option (String × Nat) :=
  (declared.flatMap (fun d => d.body.calls)).find? (fun c => !declared.any (fun d => d.name == c.1))

/-- The address that the program is entered at: that of the command asked for, or the usual one if none is asked for. A program
without commands has none. -/
def entryAddress (commands : List (String × Nat)) : Option String → Except SourceError (Option Nat)
  | some name =>
    match commands.lookup name with
    | some address => .ok (some address)
    | none => .error ⟨.undefinedCommand name, 0⟩
  | none => .ok ((commands.lookup "main").or (commands.head?.map (·.2)))

/-- The words in front of the first command. -/
def header : Option Nat → List Instruction
  | some entry => [.of (.call entry) 0, .of .ret 0]
  | none => [.of .ret 0, .of .ret 0]

/-- The program of declarations. -/
def assembleAll (declared : List Declaration) (entry : Option String) : Except SourceError Program := do
  if let some (name, position) := undefinedCall? declared then
    throw ⟨.undefinedCommand name, position⟩
  let commands := Declaration.layout Parser.headerSize declared
  let entry ← entryAddress commands entry
  let address := fun name => (commands.lookup name).getD 0
  let program ← Program.empty.pushAll (header entry ++ Declaration.codeAll address Parser.headerSize declared)
  return { program with entry := entry.getD 0, commands }

end Compiler

/-- Compiles a text, to be entered with a command of a name or with the usual one. -/
def compile (source : String) (entry : Option String) : Except SourceError Program := do
  Compiler.assembleAll (← parse source) entry

end GridRobot

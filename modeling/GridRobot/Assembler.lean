import GridRobot.Program
import GridRobot.Text.Lines
import GridRobot.Text.Words

/-!
# The assembler

Makes a program of a text with one operation to a line. Blank lines and lines that begin with an at sign say nothing. A line that
begins with the address and the word of a listing is read from what follows them. An operand is three hexadecimal digits, and a
repeat count is at least two. Each instruction knows the number of its line, and the program is entered at address 0.
-/

namespace GridRobot

open Text

namespace Assembler

/-- Whether a word is a column of a listing: so many hexadecimal digits, with small letters. -/
def isColumn (width : Nat) (w : Word) : Bool :=
  w.text.length == width && w.text.all (fun c => c.isDigit || ('a' ≤ c && c ≤ 'f'))

/-- The words of a line without the columns of a listing. -/
def dropColumns : List Word → List Word
  | address :: word :: rest => if isColumn 3 address && isColumn 4 word then rest else address :: word :: rest
  | ws => ws

/-- The number that hexadecimal digits write. -/
def hexNumber? (digits : List Char) : Option Nat :=
  digits.foldlM (fun n c => (hexValue? c).map (n * 16 + ·)) 0

/-- Reads an operand. -/
def readOperand (make : Nat → Opcode) (w : Word) : Except SourceError Opcode :=
  match (hexNumber? w.text).filter (fun _ => w.text.length == 3) with
  | none => .error ⟨.expectedAddress, w.start⟩
  | some n =>
    match make n with
    | .push count => if count < 2 then .error ⟨.countOutOfRange w.toString, w.start⟩ else .ok (.push count)
    | op => .ok op

/-- Makes sure that nothing follows an operation. -/
def noMore : List Word → Except SourceError Unit
  | [] => .ok ()
  | extra :: _ => .error ⟨.unexpectedOperand, extra.start⟩

/-- Reads the words of a line as an operation; a line without words says none. -/
def readWords : List Word → Except SourceError (Option Opcode)
  | [] => .ok none
  | name :: rest =>
    match Opcode.primitiveNamed name.toString, Opcode.addressedNamed name.toString, rest with
    | some op, _, _ => do
      noMore rest
      return some op
    | none, some make, operand :: rest => do
      let op ← readOperand make operand
      noMore rest
      return some op
    | none, some _, [] => .error ⟨.expectedAddress, name.stop⟩
    | none, none, _ => .error ⟨.unknownMnemonic name.toString, name.start⟩

/-- Reads a line whose first byte is at an offset. -/
def readLine (line : List Char) (start : Nat) : Except SourceError (Option Opcode) :=
  if (trimStart line).head? = some '@' then .ok none else readWords (dropColumns (words line start))

/-- Puts the operations of lines behind those of a program. The first line has a number and begins at an offset. -/
def assembleLines (p : Program) (number start : Nat) : List (List Char) → Except SourceError Program
  | [] => .ok p
  | line :: rest => do
    match ← readLine line start with
    | none => assembleLines p (number + 1) (start + byteLength line + 1) rest
    | some op =>
      match p.push (.of op number) with
      | .ok (_, p) => assembleLines p (number + 1) (start + byteLength line + 1) rest
      | .error e => throw { e with position := start }

end Assembler

/-- Assembles a text. -/
def assemble (source : String) : Except SourceError Program :=
  Assembler.assembleLines Program.empty 1 0 (pieces source.toList)

end GridRobot

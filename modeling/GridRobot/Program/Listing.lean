import GridRobot.Program

/-!
# Listings

A program as rows of address, word and operation under a header. The header begins with an at sign, which the assembler skips, as
it does the first two columns, so a listing can be assembled again.
-/

namespace GridRobot

open Text

namespace Program

/-- The line above the rows of a listing. -/
def listingHeader : String := "@   CODE MNEMONIC"

/-- The row of an instruction at an address. -/
def listingRow (address : Nat) (i : Instruction) : String :=
  hex 3 address ++ " " ++ hex 4 i.word.toNat ++ " " ++ i.mnemonic

/-- The row of an address; none behind the end of memory. -/
def row? (p : Program) (address : Nat) : Option String := (p.get? address).map (listingRow address)

/-- The rows of the instructions that were put into memory. -/
def rows (p : Program) : List String := (List.range p.size).filterMap p.row?

/-- The program as text. -/
def listing (p : Program) : String :=
  String.join ((listingHeader :: p.rows).map (· ++ "\n"))

/-- The rows from `before` addresses in front of an address to `after` behind it, with their addresses. They end with the
program, though never in front of the address itself. -/
def window (p : Program) (address before after : Nat) : List (Nat × String) :=
  let first := address - before
  let stop := min (address + after + 1) (max p.size (address + 1))
  (List.range' first (stop - first)).filterMap (fun a => (p.row? a).map (a, ·))

end Program

end GridRobot

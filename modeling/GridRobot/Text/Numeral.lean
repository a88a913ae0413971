/-!
# Numerals

Hexadecimal numerals of a least width, decimal numerals set to the right, and reading decimal numerals.
-/

namespace GridRobot.Text

/-- The last `width` hexadecimal digits of a number. -/
def hexDigits : (width : Nat) → Nat → List Char
  | 0, _ => []
  | width + 1, n => hexDigits width (n / 16) ++ [Nat.digitChar (n % 16)]

/-- The hexadecimal numeral of a number, with zeros in front up to `width` digits. -/
def hex (width n : Nat) : String := String.ofList (hexDigits (max width (n.log2 / 4 + 1)) n)

/-- The value of a hexadecimal digit in either case. -/
def hexValue? (c : Char) : Option Nat :=
  if '0' ≤ c ∧ c ≤ '9' then some (c.toNat - '0'.toNat)
  else if 'a' ≤ c ∧ c ≤ 'f' then some (c.toNat - 'a'.toNat + 10)
  else if 'A' ≤ c ∧ c ≤ 'F' then some (c.toNat - 'A'.toNat + 10)
  else none

/-- The decimal numeral of a number, set to the right in `width` columns. -/
def padded (width n : Nat) : String :=
  let digits := toString n
  String.ofList (List.replicate (width - digits.length) ' ') ++ digits

/-- The number that decimal digits write, counted on from `acc`. -/
def decimalFrom (acc : Nat) : List Char → Option Nat
  | [] => some acc
  | c :: rest => if c.isDigit then decimalFrom (acc * 10 + (c.toNat - '0'.toNat)) rest else none

/-- The value of a run of decimal digits of any length; at least one is needed. -/
def decimal? : List Char → Option Nat
  | [] => none
  | digits => decimalFrom 0 digits

/-- Reads an unsigned number of 64 bits: decimal digits, with a plus sign in front or without. -/
def unsigned? (text : List Char) : Option Nat :=
  let digits := match text with
    | '+' :: rest => rest
    | _ => text
  (decimal? digits).filter (· < 0x10000000000000000)

end GridRobot.Text

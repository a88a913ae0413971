import GridRobot.Text.Numeral

/-!
# Decimal fractions

Reading a decimal fraction as a floating point number: digits with a point among them or without, and an exponent of ten behind
them or without. Infinity and the value that is no number have names, in letters of either case.
-/

namespace GridRobot.Text

/-- The largest exponent that is told from larger ones. No number with fewer digits than this is finite and not zero beyond it. -/
def exponentLimit : Nat := 100000

/-- Reads an exponent of ten: digits with a sign in front or without. -/
def exponent? : List Char → Option Int
  | '-' :: digits => (decimal? digits).map (fun n => -(min n exponentLimit : Nat))
  | '+' :: digits => (decimal? digits).map (fun n => (min n exponentLimit : Nat))
  | digits => (decimal? digits).map (fun n => (min n exponentLimit : Nat))

/-- The number of a mantissa and an exponent of ten. -/
def scaled (mantissa : Nat) (exponent : Int) : Float := Float.ofScientific mantissa (exponent < 0) exponent.natAbs

/-- Reads an unsigned fraction. -/
def unsignedFraction? (text : List Char) : Option Float :=
  let whole := text.takeWhile Char.isDigit
  let behind := text.dropWhile Char.isDigit
  let (places, rest) := match behind with
    | '.' :: rest => (rest.takeWhile Char.isDigit, rest.dropWhile Char.isDigit)
    | _ => ([], behind)
  match decimal? (whole ++ places) with
  | none => none
  | some mantissa =>
    let exponent := match rest with
      | [] => some 0
      | e :: digits => if e.toLower = 'e' then exponent? digits else none
    exponent.map (fun e => scaled mantissa (e - places.length))

/-- Reads a fraction: a sign or none, and an unsigned fraction or a name. -/
def fraction? (text : List Char) : Option Float :=
  let (negative, text) := match text with
    | '-' :: rest => (true, rest)
    | '+' :: rest => (false, rest)
    | _ => (false, text)
  let value := match String.ofList (text.map Char.toLower) with
    | "inf" | "infinity" => some (1.0 / 0.0)
    | "nan" => some (0.0 / 0.0)
    | _ => unsignedFraction? text
  value.map (fun x => if negative then -x else x)

end GridRobot.Text

import GridRobot.Language.Lexer
import GridRobot.Language.Tree
import GridRobot.Machine

/-!
# The parser

Reads the tokens of a program as declarations. One token is looked at ahead, and a lexical error is met as soon as the token it is in
the place of comes next.

Three limits are kept while reading. The words that the code of the program needs are counted, and the program is refused where they
pass the size of memory. Blocks, negations and groups in parentheses may be nested 256 deep altogether. A condition may leave no
more results pending than the machine's condition stack holds: the first operand of an operator is read with the results pending
before it, and each further operand with one more.

Recursion is on the nesting that is left; what is repeated at one depth is bounded by the number of tokens that are left.
-/

namespace GridRobot

/-- What is left to read: the tokens ahead and how they end. `words` is the number of words that the code needs so far. -/
structure Reading where
  tokens : List Token
  ending : Ending
  words : Nat
  deriving DecidableEq, Repr

/-- Reads a part of a program or refuses it. -/
abbrev Parser (α : Type) : Type := StateT Reading (Except SourceError) α

namespace Parser

variable {α : Type}

/-- How deep blocks, negations and groups may be nested. -/
abbrev nestingLimit : Nat := 256

/-- The words in front of the first command: a call of the entry and a return. -/
abbrev headerSize : Nat := 2

/-! ## Tokens -/

/-- The token ahead. -/
def current : Parser Token := do
  let reading ← get
  match reading.tokens with
  | token :: _ => return token
  | [] =>
    match reading.ending with
    | .endOfInput token => return token
    | .error e => throw e

/-- Refuses the token ahead. -/
def refuse (problem : Problem) : Parser α := do
  throw ⟨problem, (← current).position⟩

/-- Takes the token ahead and looks at the next one. -/
def advance : Parser Token := do
  let token ← current
  modify fun reading => { reading with tokens := reading.tokens.tail }
  let _ ← current
  return token

/-- Takes the token ahead, which must be of a kind. -/
def expect (kind : Kind) : Parser Token := do
  if (← current).kind = kind then advance else refuse (.expected kind)

/-- Takes an opening and a closing parenthesis. -/
def emptyParens : Parser Unit := do
  let _ ← expect .openingParen
  let _ ← expect .closingParen

/-- Counts one more word of code. -/
def reserve : Parser Unit := do
  let reading ← get
  if reading.words < memorySize then set { reading with words := reading.words + 1 } else refuse .programTooLong

/-- The number of tokens ahead. -/
def remaining : Parser Nat := do
  return (← get).tokens.length

/-! ## Conditions -/

/-- Goes on with a condition whose left part has been read: as long as a sign follows, so does an operand. -/
def chainFrom (sign : Kind) (operand : Parser Condition) (join : Condition → Condition → Nat → Condition) :
    (fuel : Nat) → Condition → Parser Condition
  | 0, left => return left
  | fuel + 1, left => do
    if (← current).kind = sign then
      let operator ← advance
      let right ← operand
      reserve
      chainFrom sign operand join fuel (join left right operator.line)
    else
      return left

/-- Reads operands with a sign between each two of them. -/
def chain (sign : Kind) (operand : (pending : Nat) → Parser Condition) (join : Condition → Condition → Nat → Condition)
    (pending : Nat) : Parser Condition := do
  let first ← operand pending
  chainFrom sign (operand (pending + 1)) join (← remaining) first

/-- Reads conditions with `||` between them, each of which is made of parts with `&&` between them. -/
def disjunction (part : (pending : Nat) → Parser Condition) : (pending : Nat) → Parser Condition :=
  chain .doubleBar (chain .doubleAmpersand part .and) .or

/-- Reads the call of a sensor. -/
def sensor (pending : Nat) : Parser Condition := do
  let token ← current
  match Sensor.ofName? token.text with
  | none => refuse (.illegalStart .condition)
  | some s =>
    if pending < Limits.standard.conditions then
      let _ ← advance
      emptyParens
      reserve
      return .sense s token.line
    else
      refuse .conditionTooComplex

/-- Reads a part of a condition: a sensor, the negation of a part, or a condition in parentheses. -/
def part (room pending : Nat) : Parser Condition := do
  let token ← current
  match token.kind with
  | .identifier => sensor pending
  | .bang =>
    let _ ← advance
    match room with
    | 0 => refuse .nestingTooDeep
    | room + 1 =>
      let operand ← part room pending
      reserve
      return .not operand token.line
  | .openingParen =>
    let _ ← advance
    match room with
    | 0 => refuse .nestingTooDeep
    | room + 1 =>
      let inner ← disjunction (part room) pending
      let _ ← expect .closingParen
      return inner
  | _ => refuse (.illegalStart .condition)

/-- Reads the condition of a statement with the parentheses around it. -/
def test (room : Nat) : Parser Condition := do
  let _ ← expect .openingParen
  let condition ← disjunction (part room) 0
  let _ ← expect .closingParen
  return condition

/-! ## Statements -/

/-- A block that has been read, and its closing brace. -/
abbrev Block : Type := Statement × Token

/-- Reads an action or a call. -/
def call : Parser Statement := do
  let name ← advance
  if (Sensor.ofName? name.text).isSome then
    throw ⟨.illegalStart .statement, name.position⟩
  emptyParens
  let _ ← expect .semicolon
  reserve
  match Action.ofName? name.text with
  | some a => return .act a name.line
  | none => return .call name.text name.line name.position

/-- Reads what is to be done otherwise, if it is said: a block, or another conditional, which `further` reads. -/
def alternative (block : Parser Block) (further : Parser Statement) : Parser (Option Statement) := do
  if (← current).kind = .elseWord then
    let _ ← advance
    reserve
    match (← current).kind with
    | .openingBrace =>
      let (otherwise, _) ← block
      return some otherwise
    | .ifWord =>
      let otherwise ← further
      return some otherwise
    | _ => refuse .expectedBranch
  else
    return none

/-- Reads a condition with its block, and what is to be done otherwise. -/
def conditionalThen (room : Nat) (block : Parser Block) (further : Parser Statement) : Parser Statement := do
  let keyword ← advance
  let condition ← test room
  reserve
  let (body, _) ← block
  match ← alternative block further with
  | some otherwise => return .ifElse condition keyword.line body otherwise
  | none => return .ifThen condition keyword.line body

/-- Reads a conditional with all its branches. -/
def conditional (room : Nat) (block : Parser Block) : (fuel : Nat) → Parser Statement
  | 0 => conditionalThen room block (refuse .expectedBranch)
  | fuel + 1 => conditionalThen room block (conditional room block fuel)

/-- Reads a block that is performed as long as a condition holds. -/
def whileLoop (room : Nat) (block : Parser Block) : Parser Statement := do
  let keyword ← advance
  let condition ← test room
  reserve
  let (body, _) ← block
  reserve
  return .whileDo condition keyword.line body

/-- The repeat count that digits write: at least two, and within twelve bits. -/
def repeatCount? (digits : String) : Option Nat :=
  (Text.decimal? digits.toList).filter (fun n => 2 ≤ n ∧ n < Opcode.operands)

/-- Reads a block that is performed a number of times. -/
def repeatLoop (block : Parser Block) : Parser Statement := do
  let keyword ← advance
  let _ ← expect .openingParen
  let number ← expect .number
  match repeatCount? number.text with
  | none => throw ⟨.countOutOfRange number.text, number.position⟩
  | some count =>
    let _ ← expect .closingParen
    reserve
    let (body, closing) ← block
    reserve
    return .repeatTimes count keyword.line body closing.line

/-- Reads a statement with `room` levels of nesting left, given how to read its blocks. -/
def statement (room : Nat) (block : Parser Block) : Parser Statement := do
  match (← current).kind with
  | .identifier => call
  | .ifWord => conditional room block (← remaining)
  | .whileWord => whileLoop room block
  | .repeatWord => repeatLoop block
  | _ => refuse (.illegalStart .statement)

/-- Reads statements up to a closing brace. -/
def statements (statement : Parser Statement) (fuel : Nat) : Parser Block := do
  match (← current).kind with
  | .closingBrace =>
    let closing ← advance
    return (.nothing, closing)
  | .endOfInput => refuse .unclosedBlock
  | .voidWord => refuse .nestedCommand
  | _ =>
    match fuel with
    | 0 => refuse .unclosedBlock
    | fuel + 1 =>
      let first ← statement
      let (rest, closing) ← statements statement fuel
      return (.andThen first rest, closing)

/-- Reads a block with `room` levels of nesting left. -/
def block (room : Nat) : Parser Block := do
  let _ ← expect .openingBrace
  match room with
  | 0 => refuse .nestingTooDeep
  | room + 1 => statements (statement room (block room)) (← remaining)

/-! ## Commands -/

/-- Whether a name is that of an action or a sensor. -/
def isBuiltin (name : String) : Bool := (Action.ofName? name).isSome || (Sensor.ofName? name).isSome

/-- Reads the declaration of a command. Its name is new. -/
def declaration (declared : List Declaration) : Parser Declaration := do
  let _ ← advance
  let name ← expect .identifier
  if isBuiltin name.text then
    throw ⟨.builtinCommand name.text, name.position⟩
  emptyParens
  if declared.any (fun d => d.name == name.text) then
    throw ⟨.duplicateCommand name.text, name.position⟩
  let (body, closing) ← block nestingLimit
  reserve
  return ⟨name.text, body, closing.line⟩

/-- Reads declarations up to the end of the text, behind those that have been read. -/
def declarations (fuel : Nat) (declared : List Declaration) : Parser (List Declaration) := do
  match (← current).kind with
  | .endOfInput => return declared
  | .voidWord =>
    match fuel with
    | 0 => refuse (.illegalStart .command)
    | fuel + 1 =>
      let d ← declaration declared
      declarations fuel (declared ++ [d])
  | .closingBrace => refuse .tooManyClosingBraces
  | _ => refuse (.illegalStart .command)

end Parser

/-- The declarations of a program, in the order of the text. -/
def parse (source : String) : Except SourceError (List Declaration) :=
  let scan := Scan.of source
  (Parser.declarations scan.tokens.length []).run' ⟨scan.tokens, scan.ending, Parser.headerSize⟩

end GridRobot

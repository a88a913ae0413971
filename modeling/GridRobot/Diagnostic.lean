import GridRobot.Language.Kind
import GridRobot.Text.Location

/-!
# Diagnostics

What is said about a text that was refused. A `Problem` is the cause, with what is needed to word it; a `SourceError` is a problem
at a byte offset of the text. For printing, a problem falls into one of six classes and has a wording, which together with the
position make a `Diagnostic`.
-/

namespace GridRobot

open Text

/-- The classes of diagnostics. -/
inductive Diagnostic.Code where
  | illegalCharacter
  | syntaxError
  | outOfRange
  | undefinedCommand
  | duplicateCommand
  | outOfMemory
  deriving DecidableEq, Repr

/-- The heading of a class. -/
def Diagnostic.Code.title : Diagnostic.Code → String
  | illegalCharacter => "LEXICAL ERROR"
  | syntaxError => "SYNTAX ERROR"
  | outOfRange => "RANGE ERROR"
  | undefinedCommand => "UNDEFINED COMMAND"
  | duplicateCommand => "DUPLICATE COMMAND"
  | outOfMemory => "OUT OF MEMORY"

/-- A class, a byte offset and a wording, which may be empty. -/
structure Diagnostic where
  code : Diagnostic.Code
  position : Nat
  text : String
  deriving DecidableEq, Repr

namespace Diagnostic

/-- The diagnostic in one line. -/
def message (d : Diagnostic) : String :=
  let place := d.code.title ++ s!" AT {d.position}"
  if d.text.isEmpty then place else place ++ "; " ++ d.text

/-- The diagnostic in braces, as a value is shown. -/
def shown (d : Diagnostic) : String := "Error \x7b " ++ d.message ++ " \x7d"

/-- Where the diagnostic points in the text it is about. -/
def location (d : Diagnostic) (source : String) : Location := Location.ofOffset source.toList d.position

end Diagnostic

/-- What the start of a command, a statement or a condition was expected to be. -/
inductive Construct where
  | command | statement | condition
  deriving DecidableEq, Repr

/-- The name of a construct. -/
def Construct.name : Construct → String
  | command => "command"
  | statement => "statement"
  | condition => "condition"

/-- Why a text is refused. -/
inductive Problem where
  /-- A character that begins no token. -/
  | strayCharacter (c : Char)
  | loneSlash
  | loneAmpersand
  | loneBar
  | unclosedComment
  | expected (kind : Kind)
  /-- Neither a block nor a further test follows the word `else`. -/
  | expectedBranch
  | tooManyClosingBraces
  | illegalStart (construct : Construct)
  | unclosedBlock
  | nestedCommand
  | nestingTooDeep
  | conditionTooComplex
  /-- A repeat count, or the operand that writes one, that cannot be repeated. -/
  | countOutOfRange (digits : String)
  | builtinCommand (name : String)
  | duplicateCommand (name : String)
  | undefinedCommand (name : String)
  | programTooLong
  | unknownMnemonic (name : String)
  | expectedAddress
  | unexpectedOperand
  deriving DecidableEq, Repr

namespace Problem

/-- The class of a problem. -/
def code : Problem → Diagnostic.Code
  | strayCharacter _ | loneSlash | loneAmpersand | loneBar => .illegalCharacter
  | conditionTooComplex | countOutOfRange _ => .outOfRange
  | builtinCommand _ | duplicateCommand _ => .duplicateCommand
  | undefinedCommand _ => .undefinedCommand
  | programTooLong => .outOfMemory
  | unclosedComment | expected _ | expectedBranch | tooManyClosingBraces | illegalStart _ | unclosedBlock
  | nestedCommand | nestingTooDeep | unknownMnemonic _ | expectedAddress | unexpectedOperand => .syntaxError

/-- The wording of a problem. -/
def text : Problem → String
  | strayCharacter c => "illegal character " ++ c.toString
  | loneSlash => "comments start with // or /*"
  | loneAmpersand => "logical and is &&"
  | loneBar => "logical or is ||"
  | unclosedComment => "unclosed comment"
  | expected kind => "expected " ++ kind.text
  | expectedBranch => "expected \x7b or if"
  | tooManyClosingBraces => "Too many closing braces"
  | illegalStart construct => "illegal start of " ++ construct.name
  | unclosedBlock => "unclosed block"
  | nestedCommand => "nested commands are not allowed"
  | nestingTooDeep => "nesting too deep"
  | conditionTooComplex => "condition too complex"
  | countOutOfRange digits => digits ++ " out of range"
  | builtinCommand name => name ++ " is a builtin command"
  | duplicateCommand name => "duplicate command " ++ name
  | undefinedCommand name => "undefined command " ++ name
  | programTooLong => "program too long"
  | unknownMnemonic name => "unknown mnemonic " ++ name
  | expectedAddress => "expected address"
  | unexpectedOperand => "unexpected operand"

end Problem

/-- A problem and the byte offset it is at. -/
structure SourceError where
  problem : Problem
  position : Nat
  deriving DecidableEq, Repr

namespace SourceError

/-- What is printed about an error. -/
def diagnostic (e : SourceError) : Diagnostic := ⟨e.problem.code, e.position, e.problem.text⟩

end SourceError

end GridRobot

/-!
# Kinds of tokens

The words and signs of the robot language. Five words are reserved, eight signs are punctuation, and every other token is a number,
an identifier or the end of the text.
-/

namespace GridRobot

/-- What kind of token a piece of text is. -/
inductive Kind where
  | number
  | identifier
  | elseWord
  | ifWord
  | repeatWord
  | voidWord
  | whileWord
  | bang
  | doubleAmpersand
  | openingParen
  | closingParen
  | semicolon
  | openingBrace
  | doubleBar
  | closingBrace
  | endOfInput
  deriving DecidableEq, Repr

namespace Kind

/-- The reserved words in alphabetical order. -/
def keywords : List (String × Kind) :=
  [("else", elseWord), ("if", ifWord), ("repeat", repeatWord), ("void", voidWord), ("while", whileWord)]

/-- The signs. -/
def signs : List (String × Kind) :=
  [("!", bang), ("&&", doubleAmpersand), ("(", openingParen), (")", closingParen), (";", semicolon),
    ("\x7b", openingBrace), ("||", doubleBar), ("\x7d", closingBrace)]

/-- The kinds that have one spelling only, with that spelling. -/
def fixed : List (String × Kind) := keywords ++ signs

/-- Whether a kind is a reserved word. -/
def isKeyword (k : Kind) : Bool := keywords.any (fun entry => entry.2 == k)

/-- What a kind is called in messages: its spelling if it has only one. -/
def text : Kind → String
  | number => "number"
  | identifier => "identifier"
  | endOfInput => "end of input"
  | k => ((fixed.find? (fun entry => entry.2 == k)).map (·.1)).getD "?"

end Kind

end GridRobot

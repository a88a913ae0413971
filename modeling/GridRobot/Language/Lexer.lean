import GridRobot.Diagnostic
import GridRobot.Language.Lexicon

/-!
# The lexer

Cuts a text into tokens: words, numerals and signs, with white space and comments between them. A comment runs from two slashes to
the end of the line, or from a slash and a star to the first star and slash behind them. A token knows the byte offset and the line
it begins at.

`Lexer.next` gives one token after the other and never stops: behind the last one it gives the end of the text again and again,
and behind an error it goes on with what was not consumed. `Scan.of` reads on to the end of the text or the first error.
-/

namespace GridRobot

open Text

/-- A piece of text and where it begins. The end of the text has no symbol. -/
structure Token where
  kind : Kind
  symbol : Option Nat
  text : String
  position : Nat
  line : Nat
  deriving DecidableEq, Repr

namespace Lexer

/-- The white space of the language; other blank characters belong to no token. -/
def isSpace (c : Char) : Bool :=
  c == ' ' || c == '\t' || c == '\n' || c == '\x0b' || c == '\x0c' || c == '\r'

/-- The characters that a word begins with. -/
def isWordStart (c : Char) : Bool := c.isAlpha || c == '_'

/-- The characters that a word goes on with. -/
def isWordPart (c : Char) : Bool := c.isAlphanum || c == '_'

end Lexer

/-- A place in a text: what lies ahead, and the byte offset and line it begins at. -/
structure Cursor where
  rest : List Char
  offset : Nat
  line : Nat
  deriving DecidableEq, Repr

/-- The token that stands for the end of a text at a place. -/
def Token.endOf (cur : Cursor) : Token := ⟨.endOfInput, none, "", cur.offset, cur.line⟩

namespace Cursor

/-- The beginning of a text. -/
def start (text : List Char) : Cursor := ⟨text, 0, 1⟩

/-- The line behind a character of a line. -/
def lineAfter (c : Char) (line : Nat) : Nat := if c = '\n' then line + 1 else line

/-- What surrounds a place between two tokens: nothing, a comment up to the end of its line, or a comment in stars. Of the last it
is known where it began and whether the character before is a star. -/
inductive Gap where
  | space
  | lineComment
  | starComment (start : Nat) (afterStar : Bool)
  deriving DecidableEq, Repr

/-- Goes over white space and comments to the first character of a token, or to the end of the text. -/
def skip : Gap → List Char → (offset line : Nat) → Except SourceError Unit × Cursor
  | .space, [], offset, line => (.ok (), ⟨[], offset, line⟩)
  | .space, c :: rest, offset, line =>
    if Lexer.isSpace c then skip .space rest (offset + c.utf8Size) (lineAfter c line)
    else if c = '/' then
      match rest with
      | '/' :: rest => skip .lineComment rest (offset + 2) line
      | '*' :: rest => skip (.starComment offset false) rest (offset + 2) line
      | rest => (.error ⟨.loneSlash, offset⟩, ⟨rest, offset + 1, line⟩)
    else (.ok (), ⟨c :: rest, offset, line⟩)
  | .lineComment, [], offset, line => (.ok (), ⟨[], offset, line⟩)
  | .lineComment, c :: rest, offset, line =>
    skip (if c = '\n' then .space else .lineComment) rest (offset + c.utf8Size) (lineAfter c line)
  | .starComment start _, [], offset, line => (.error ⟨.unclosedComment, start⟩, ⟨[], offset, line⟩)
  | .starComment start afterStar, c :: rest, offset, line =>
    skip (if afterStar && c == '/' then .space else .starComment start (c == '*')) rest (offset + c.utf8Size)
      (lineAfter c line)

/-- Goes over white space and comments. -/
def skipGap (cur : Cursor) : Except SourceError Unit × Cursor := skip .space cur.rest cur.offset cur.line

/-- Takes the longest piece whose characters all pass a test, none of which is a newline. -/
def takeWhile (cur : Cursor) (p : Char → Bool) : List Char × Cursor :=
  let piece := cur.rest.takeWhile p
  (piece, { cur with rest := cur.rest.dropWhile p, offset := cur.offset + byteLength piece })

end Cursor

/-- A text on its way through the lexer. -/
structure Lexer where
  cursor : Cursor
  lexicon : Lexicon
  deriving DecidableEq, Repr

namespace Lexer

/-- The beginning of a text, with the spellings that are known before. -/
def start (text : String) (lexicon : Lexicon) : Lexer := ⟨Cursor.start text.toList, lexicon⟩

/-- The kind of the sign at the beginning of a text and the number of its characters, or what is wrong there; one character is
consumed then. -/
def sign : Char → List Char → Except Problem (Kind × Nat)
  | '(', _ => .ok (.openingParen, 1)
  | ')', _ => .ok (.closingParen, 1)
  | ';', _ => .ok (.semicolon, 1)
  | '\x7b', _ => .ok (.openingBrace, 1)
  | '\x7d', _ => .ok (.closingBrace, 1)
  | '!', _ => .ok (.bang, 1)
  | '&', '&' :: _ => .ok (.doubleAmpersand, 2)
  | '&', _ => .error .loneAmpersand
  | '|', '|' :: _ => .ok (.doubleBar, 2)
  | '|', _ => .error .loneBar
  | c, _ => .error (.strayCharacter c)

/-- The token at a place where neither white space nor a comment begins. -/
def scan (lexicon : Lexicon) (cur : Cursor) : Except SourceError Token × Lexer :=
  match cur.rest with
  | [] => (.ok (Token.endOf cur), ⟨cur, lexicon⟩)
  | c :: rest =>
    if c.isDigit then
      let (digits, next) := cur.takeWhile Char.isDigit
      let (symbol, lexicon) := lexicon.number (String.ofList digits)
      (.ok ⟨.number, some symbol, String.ofList digits, cur.offset, cur.line⟩, ⟨next, lexicon⟩)
    else if isWordStart c then
      let (letters, next) := cur.takeWhile isWordPart
      let ((symbol, kind), lexicon) := lexicon.word (String.ofList letters)
      (.ok ⟨kind, some symbol, String.ofList letters, cur.offset, cur.line⟩, ⟨next, lexicon⟩)
    else
      match sign c rest with
      | .ok (kind, size) =>
        (.ok ⟨kind, Lexicon.symbolOf? kind, String.ofList (cur.rest.take size), cur.offset, cur.line⟩,
          ⟨⟨cur.rest.drop size, cur.offset + size, cur.line⟩, lexicon⟩)
      | .error problem =>
        (.error ⟨problem, cur.offset⟩, ⟨⟨rest, cur.offset + c.utf8Size, Cursor.lineAfter c cur.line⟩, lexicon⟩)

/-- The next token. -/
def next (lx : Lexer) : Except SourceError Token × Lexer :=
  match lx.cursor.skipGap with
  | (.error e, cur) => (.error e, ⟨cur, lx.lexicon⟩)
  | (.ok (), cur) => scan lx.lexicon cur

end Lexer

/-- How the tokens of a text end: with the token that stands for its end, or with an error. -/
inductive Ending where
  | endOfInput (token : Token)
  | error (e : SourceError)
  deriving DecidableEq, Repr

/-- The tokens of a text up to its end or the first error, and the spellings known then. -/
structure Scan where
  tokens : List Token
  ending : Ending
  lexicon : Lexicon
  deriving DecidableEq, Repr

namespace Scan

/-- The tokens from a place on, as far as `fuel` tokens reach. Each of them takes a character, so the number of characters and
one more for the end is enough. -/
def read : (fuel : Nat) → Lexer → Scan
  | 0, lx => ⟨[], .endOfInput (Token.endOf lx.cursor), lx.lexicon⟩
  | fuel + 1, lx =>
    match lx.next with
    | (.error e, lx) => ⟨[], .error e, lx.lexicon⟩
    | (.ok token, lx) =>
      if token.kind = .endOfInput then ⟨[], .endOfInput token, lx.lexicon⟩
      else
        let s := read fuel lx
        { s with tokens := token :: s.tokens }

/-- The tokens of a text. -/
def of (text : String) : Scan :=
  let lx := Lexer.start text Lexicon.standard
  read (lx.cursor.rest.length + 1) lx

end Scan

/-- The tokens of a text with the one that stands for its end, and the spellings known then. -/
def lex (text : String) : Except SourceError (List Token × Lexicon) :=
  let s := Scan.of text
  match s.ending with
  | .endOfInput token => .ok (s.tokens ++ [token], s.lexicon)
  | .error e => .error e

end GridRobot

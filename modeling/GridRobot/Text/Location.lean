import GridRobot.Text.Offset

/-!
# Line and column

Where a byte offset lies in a text, in lines and columns that count from one. Lines end at newlines and columns count
characters. An offset behind the end of the text, or inside a character, is taken for the end of the text.
-/

namespace GridRobot.Text

/-- A line and a column, both counted from one. -/
structure Location where
  line : Nat
  column : Nat
  deriving DecidableEq, Repr

namespace Location

/-- The first character of a text. -/
def start : Location := ⟨1, 1⟩

/-- The location behind one more character. -/
def after (l : Location) (c : Char) : Location :=
  if c = '\n' then ⟨l.line + 1, 1⟩ else ⟨l.line, l.column + 1⟩

/-- The location behind a text that begins at `l`. -/
def afterAll (l : Location) (text : List Char) : Location := text.foldl after l

/-- The location `bytes` bytes into a text that begins at `l`, if a character begins or the text ends there. -/
def advance? : Location → List Char → Nat → Option Location
  | l, _, 0 => some l
  | _, [], _ + 1 => none
  | l, c :: rest, bytes + 1 =>
    if c.utf8Size ≤ bytes + 1 then advance? (l.after c) rest (bytes + 1 - c.utf8Size) else none

/-- The location of a byte offset in a text. -/
def ofOffset (text : List Char) (offset : Nat) : Location :=
  (advance? start text offset).getD (afterAll start text)

end Location

end GridRobot.Text

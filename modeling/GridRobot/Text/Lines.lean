/-!
# Lines

Two ways to cut a text into lines. `pieces` cuts at every newline and keeps all that lies between, so a text with `n` newlines
has `n + 1` pieces. `lines` is the reading of a text file: a carriage return before a newline belongs to the line's end, and
nothing follows a final newline.
-/

namespace GridRobot.Text

/-- The parts of a text between its newlines. -/
def pieces : List Char → List (List Char)
  | [] => [[]]
  | c :: rest =>
    if c = '\n' then [] :: pieces rest
    else
      match pieces rest with
      | [] => [[c]]
      | first :: others => (c :: first) :: others

/-- A line without the carriage return at its end. -/
def dropReturn (line : List Char) : List Char :=
  if line.getLast? = some '\r' then line.dropLast else line

/-- The pieces of a text read as lines: all but the last ended in a newline, and an empty last one is no line. -/
def linesOfPieces : List (List Char) → List (List Char)
  | [] => []
  | [last] => if last = [] then [] else [last]
  | line :: next :: others => dropReturn line :: linesOfPieces (next :: others)

/-- The lines of a text. -/
def lines (text : List Char) : List (List Char) := linesOfPieces (pieces text)

theorem pieces_ne_nil (text : List Char) : pieces text ≠ [] := by
  cases text with
  | nil => simp [pieces]
  | cons c rest =>
    simp only [pieces]
    split
    · simp
    · split <;> simp

end GridRobot.Text

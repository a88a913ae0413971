import GridRobot.Text.Blank
import GridRobot.Text.Offset

/-!
# Words

The words of a text are its longest runs of characters that are not blank, each with the byte offset it starts at.
-/

namespace GridRobot.Text

/-- A run of characters that are not blank, and where it starts. -/
structure Word where
  start : Nat
  text : List Char
  deriving DecidableEq, Repr

namespace Word

/-- The word as a string. -/
def toString (w : Word) : String := String.ofList w.text

/-- The offset of the first byte behind the word. -/
def stop (w : Word) : Nat := w.start + byteLength w.text

end Word

/-- Puts a character that is not blank in front of the words behind it: it begins the first of them if that one follows at
once, and is a word of its own otherwise. -/
def consWord (c : Char) (start : Nat) : List Word → List Word
  | [] => [⟨start, [c]⟩]
  | w :: ws => if w.start = start + c.utf8Size then ⟨start, c :: w.text⟩ :: ws else ⟨start, [c]⟩ :: w :: ws

/-- The words of a text whose first character is at `start`. -/
def words : List Char → Nat → List Word
  | [], _ => []
  | c :: rest, start =>
    if isBlank c then words rest (start + c.utf8Size) else consWord c start (words rest (start + c.utf8Size))

end GridRobot.Text

import GridRobot.Language.Kind

/-!
# The lexicon

Every spelling of a text once, numbered in the order of first sight. The reserved words and the signs come first, so a word is told
to be reserved by looking it up. A spelling keeps its number and the kind it was entered with.
-/

namespace GridRobot

/-- The spellings seen so far with their kinds; the number of a spelling, its symbol, is its place. -/
structure Lexicon where
  entries : List (String × Kind)
  deriving DecidableEq, Repr

namespace Lexicon

/-- The lexicon of the language itself: the reserved words and then the signs. -/
def standard : Lexicon := ⟨Kind.fixed⟩

/-- The number of spellings. -/
def size (l : Lexicon) : Nat := l.entries.length

/-- The spellings in the order of their symbols. -/
def spellings (l : Lexicon) : List String := l.entries.map (·.1)

/-- The spelling of a symbol. -/
def get? (l : Lexicon) (symbol : Nat) : Option String := (l.entries[symbol]?).map (·.1)

/-- The symbol of a spelling. -/
def lookup? (l : Lexicon) (spelling : String) : Option Nat := l.entries.findIdx? (fun entry => entry.1 == spelling)

/-- The kind that a spelling was entered with. -/
def kind? (l : Lexicon) (spelling : String) : Option Kind := l.entries.lookup spelling

/-- The symbol of a kind that has one spelling only. -/
def symbolOf? (k : Kind) : Option Nat := Kind.fixed.findIdx? (fun entry => entry.2 == k)

/-- Enters a spelling as a kind, unless it is known. Gives its symbol and the kind it was first entered with. -/
def enter (l : Lexicon) (spelling : String) (kind : Kind) : (Nat × Kind) × Lexicon :=
  match l.lookup? spelling with
  | some symbol => ((symbol, (l.kind? spelling).getD kind), l)
  | none => ((l.size, kind), ⟨l.entries ++ [(spelling, kind)]⟩)

/-- Enters a word. A reserved word has its own kind, and a word that is new is an identifier. -/
def word (l : Lexicon) (spelling : String) : (Nat × Kind) × Lexicon := l.enter spelling .identifier

/-- Enters a numeral. -/
def number (l : Lexicon) (spelling : String) : Nat × Lexicon :=
  let (entry, l) := l.enter spelling .number
  (entry.1, l)

end Lexicon

end GridRobot

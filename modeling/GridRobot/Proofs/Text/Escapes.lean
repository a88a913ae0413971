import GridRobot.Text.Style

/-!
# What a terminal shows of a text

A terminal takes escape sequences as orders and shows the characters between them (`plain`). `Shows` says what is shown of a part
of a text, whatever follows it, so that a text is read part by part. Where nothing is shown of the sequences of a palette
(`Palette.Silent`), a styled text shows the text that was styled (`Palette.Silent.shows_paint`).
-/

namespace GridRobot.Text

/-- The character that begins an escape sequence. -/
def escape : Char := '\x1b'

/-- Where a terminal is in a text: between escape sequences, behind the beginning of one, or in one that a bracket has opened. -/
inductive Place where
  | outside | begun | opened
  deriving DecidableEq, Repr

/-- What is shown of a text from a place on. A sequence is the escape character and the one behind it; if that is a bracket, the
sequence lasts until the first character between `@` and `~`. -/
def shownFrom : Place → List Char → List Char
  | _, [] => []
  | .outside, c :: rest => if c = escape then shownFrom .begun rest else c :: shownFrom .outside rest
  | .begun, c :: rest => if c = '[' then shownFrom .opened rest else shownFrom .outside rest
  | .opened, c :: rest => if '@' ≤ c ∧ c ≤ '~' then shownFrom .outside rest else shownFrom .opened rest

/-- A text without its escape sequences. -/
def plain (text : List Char) : List Char := shownFrom .outside text

/-- Of the first text the second one is shown, and no escape sequence goes on behind it. -/
def Shows (text shown : List Char) : Prop := ∀ rest, plain (text ++ rest) = shown ++ plain rest

namespace Shows

variable {s s' t t' : List Char}

/-- What is shown is the text without its escape sequences. -/
theorem plain_eq (h : Shows s t) : plain s = t := by
  have hend := h []
  rwa [List.append_nil, show plain [] = [] from rfl, List.append_nil] at hend

theorem nil : Shows [] [] := fun _ => rfl

/-- Two texts one behind the other show what both show. -/
theorem append (h : Shows s t) (h' : Shows s' t') : Shows (s ++ s') (t ++ t') := by
  intro rest
  rw [List.append_assoc, h, h', List.append_assoc]

theorem flatMap {α : Type} {l : List α} {f g : α → List Char} (h : ∀ a ∈ l, Shows (f a) (g a)) :
    Shows (l.flatMap f) (l.flatMap g) := by
  induction l with
  | nil => exact nil
  | cons a l ih =>
    obtain ⟨ha, hl⟩ := List.forall_mem_cons.1 h
    exact ha.append (ih hl)

/-- A text without escape characters is shown as it is. -/
theorem self (h : escape ∉ s) : Shows s s := by
  intro rest
  induction s with
  | nil => rfl
  | cons c s ih =>
    obtain ⟨hc, hs⟩ := not_or.1 (mt List.mem_cons.2 h)
    rw [List.cons_append, plain, shownFrom, if_neg (Ne.symm hc)]
    exact congrArg (c :: ·) (ih hs)

end Shows

namespace Palette

/-- Nothing is shown of the escape sequences of a palette. -/
structure Silent (p : Palette) : Prop where
  opening (s : Style) : Shows (p.opening s).toList []
  closing : Shows p.closing.toList []

/-- The sequences of ANSI terminals are silent. -/
theorem ansi_silent : ansi.Silent where
  opening := by
    intro s rest
    cases s <;> rfl
  closing := fun _ => rfl

/-- Of a styled text the text itself is shown. -/
theorem Silent.shows_paint {p : Palette} (h : p.Silent) (s : Style) {text : String} (htext : escape ∉ text.toList) :
    Shows (p.paint s text).toList text.toList := by
  rw [paint, String.toList_append, String.toList_append]
  simpa using ((h.opening s).append (Shows.self htext)).append h.closing

example : plain (ansi.paint .bold " > " ++ "|").toList = [' ', '>', ' ', '|'] := by decide

end Palette

end GridRobot.Text

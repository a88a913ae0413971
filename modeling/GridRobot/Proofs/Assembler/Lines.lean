import GridRobot.Proofs.Assembler.Rows
import GridRobot.Proofs.Diagnostic.Wording
import GridRobot.Proofs.Results
import GridRobot.Proofs.Text.Places

/-!
# Lines of assembly

Lines are assembled one after the other. An error comes from the first line that is refused, is at a place in this line and quotes
nothing that goes over its end (`exists_of_assembleLines_error`); an instruction comes from a line that says an operation, and has its number
(`saidBy_of_instructions`).
-/

namespace GridRobot

open Text

namespace Assembler

/-! ## Positions in a line -/

/-- Leaving columns away adds no words. -/
theorem mem_of_mem_dropColumns {ws : List Word} {w : Word} (h : w ∈ dropColumns ws) : w ∈ ws := by
  unfold dropColumns at h
  split at h
  · split at h
    · exact List.mem_cons_of_mem _ (List.mem_cons_of_mem _ h)
    · exact h
  · exact h

/-- An error is about a word: it is where the word begins or ends, and quotes the word if it quotes anything. -/
structure Blames (e : SourceError) (w : Word) : Prop where
  position : e.position = w.start ∨ e.position = w.stop
  quotes : e.problem.quotes = [] ∨ e.problem.quotes = [w.toString]

/-- An operand that cannot be read is blamed itself. -/
theorem blames_of_readOperand {make : Nat → Opcode} {w : Word} {e : SourceError} (h : readOperand make w = .error e) :
    Blames e w := by
  unfold readOperand at h
  split at h
  · obtain rfl := Except.error.inj h
    exact ⟨.inl rfl, .inl rfl⟩
  · split at h
    · split at h
      · obtain rfl := Except.error.inj h
        exact ⟨.inl rfl, .inr rfl⟩
      · nomatch h
    · nomatch h

/-- Of words too many, one is blamed. -/
theorem blames_of_noMore {ws : List Word} {e : SourceError} (h : noMore ws = .error e) : ∃ w ∈ ws, Blames e w := by
  cases ws with
  | nil => nomatch h
  | cons extra ws =>
    obtain rfl := Except.error.inj h
    exact ⟨extra, List.mem_cons_self, .inl rfl, .inl rfl⟩

/-- What is wrong with words is wrong with one of them. -/
theorem blames_of_readWords {ws : List Word} {e : SourceError} (h : readWords ws = .error e) : ∃ w ∈ ws, Blames e w := by
  unfold readWords at h
  split at h
  · nomatch h
  · rename_i name rest
    split at h
    · rename_i hprimitive
      rcases bind_eq_error.1 h with h | ⟨_, -, h⟩
      · obtain ⟨w, hw, hblames⟩ := blames_of_noMore h
        exact ⟨w, List.mem_cons_of_mem _ hw, hblames⟩
      · nomatch h
    · rename_i operand rest hprimitive hmake
      rcases bind_eq_error.1 h with h | ⟨op, -, h⟩
      · exact ⟨operand, by simp, blames_of_readOperand h⟩
      · rcases bind_eq_error.1 h with h | ⟨_, -, h⟩
        · obtain ⟨w, hw, hblames⟩ := blames_of_noMore h
          exact ⟨w, by simp [hw], hblames⟩
        · nomatch h
    · obtain rfl := Except.error.inj h
      exact ⟨name, List.mem_cons_self, .inr rfl, .inl rfl⟩
    · obtain rfl := Except.error.inj h
      exact ⟨name, List.mem_cons_self, .inl rfl, .inr rfl⟩

/-- What is wrong with a line is wrong with a word of it. -/
theorem blames_of_readLine {line : List Char} {start : Nat} {e : SourceError} (h : readLine line start = .error e) :
    ∃ w ∈ words line start, Blames e w := by
  unfold readLine at h
  split at h
  · nomatch h
  · obtain ⟨w, hw, hblames⟩ := blames_of_readWords h
    exact ⟨w, mem_of_mem_dropColumns hw, hblames⟩

/-- What is wrong with a line is wrong at a place in the line, and if nothing of the line is behind the place, a word is in front. -/
theorem position_of_readLine {line : List Char} {start : Nat} {e : SourceError} (h : readLine line start = .error e) :
    ∃ front back, line = front ++ back ∧ e.position = start + byteLength front ∧
      (back ≠ [] ∨ ∃ init c, front = init ++ [c] ∧ c ≠ '\r') := by
  obtain ⟨w, hword, hblames⟩ := blames_of_readLine h
  have hsolid := solid_of_mem_words w hword
  obtain ⟨front, back, rfl, hstart⟩ := standsIn_of_mem_words w hword
  rcases hblames.position with hposition | hposition
  · exact ⟨front, w.text ++ back, rfl, hposition.trans hstart, .inl (List.append_ne_nil_of_left_ne_nil hsolid.some _)⟩
  · obtain ⟨init, c, htext, hc⟩ := hsolid.tight.last
    refine ⟨front ++ w.text, back, (List.append_assoc ..).symm, ?_, .inr ⟨front ++ init, c, ?_, ?_⟩⟩
    · rw [hposition, Word.stop, hstart, byteLength_append, Nat.add_assoc]
    · rw [htext, List.append_assoc]
    · rintro rfl
      nomatch hc

/-- No word goes over the end of a line. -/
theorem oneLine_of_readLine {line : List Char} {start : Nat} {e : SourceError} (h : readLine line start = .error e) :
    e.problem.QuotesOnly OneLine := by
  obtain ⟨w, hword, hblames⟩ := blames_of_readLine h
  rcases hblames.quotes with hnone | hone
  · exact .nothing hnone
  · refine .one hone ?_
    rw [OneLine, Word.toString, String.toList_ofList]
    exact (solid_of_mem_words w hword).not_newline

/-! ## Line after line -/

/-- A line stands behind others, which make one program of another. -/
structure LineAt (p : Program) (number start : Nat) (ls before : List (List Char)) (line : List Char) (q : Program) : Prop where
  split : ∃ after, ls = before ++ line :: after
  made : assembleLines p number start before = .ok q

section

variable {p p' q r : Program} {number start : Nat} {before ls : List (List Char)} {row line : List Char} {e : SourceError}

theorem LineAt.first (p : Program) (number start : Nat) (line : List Char) (ls : List (List Char)) :
    LineAt p number start (line :: ls) [] line p := ⟨⟨ls, rfl⟩, rfl⟩

/-- One more line in front. -/
theorem LineAt.behind
    (hlines : ∀ rest, assembleLines p number start (row :: rest) =
      assembleLines p' (number + 1) (start + byteLength row + 1) rest)
    (h : LineAt p' (number + 1) (start + byteLength row + 1) ls before line q) :
    LineAt p number start (row :: ls) (row :: before) line q := by
  obtain ⟨⟨after, rfl⟩, hmade⟩ := h
  exact ⟨⟨after, rfl⟩, (hlines before).trans hmade⟩

theorem number_behind (number : Nat) (row : List Char) (before : List (List Char)) :
    number + (row :: before).length = number + 1 + before.length := by
  rw [List.length_cons, Nat.add_comm before.length, Nat.add_assoc]

theorem start_behind (start : Nat) (row : List Char) (before : List (List Char)) :
    start + byteLength (joinRows (row :: before)) = start + byteLength row + 1 + byteLength (joinRows before) := by
  rw [joinRows_cons, byteLength_append, byteLength_cons]
  have hnewline : '\n'.utf8Size = 1 := rfl
  omega

/-- A line is refused, or further lines go on behind it. -/
theorem LineStep.refused_or (h : LineStep p number start line) :
    (∃ e, (∀ rest, assembleLines p number start (line :: rest) = .error e) ∧
        (∃ front back, line = front ++ back ∧ e.position = start + byteLength front) ∧ e.problem.QuotesOnly OneLine) ∨
      ∃ p', ∀ rest, assembleLines p number start (line :: rest) =
        assembleLines p' (number + 1) (start + byteLength line + 1) rest := by
  rcases h with ⟨hread, hlines⟩ | ⟨-, hlines⟩ | ⟨-, -, hlines⟩
  · refine .inl ⟨_, hlines, ?_⟩
    rcases hread with hread | rfl
    · obtain ⟨front, back, hline, hposition, -⟩ := position_of_readLine hread
      exact ⟨⟨front, back, hline, hposition⟩, oneLine_of_readLine hread⟩
    · exact ⟨⟨[], line, rfl, rfl⟩, .nothing rfl⟩
  · exact .inr ⟨p, hlines⟩
  · exact .inr ⟨_, hlines⟩

/-- An error comes from the first line that is refused, whatever follows it, is at a place in this line and quotes nothing that goes
over its end. The induction is on the lines; a line that is not refused is one more of those in front. -/
theorem exists_of_assembleLines_error (h : assembleLines p number start ls = .error e) :
    ∃ before line q, LineAt p number start ls before line q ∧
      (∀ rest, assembleLines q (number + before.length) (start + byteLength (joinRows before)) (line :: rest) = .error e) ∧
      (∃ front back, line = front ++ back ∧ e.position = start + byteLength (joinRows before) + byteLength front) ∧
      e.problem.QuotesOnly OneLine := by
  induction ls generalizing p number start with
  | nil => nomatch h
  | cons row ls ih =>
    rcases (lineStep p number start row).refused_or with ⟨e', hlines, hplace, hquotes⟩ | ⟨p', hlines⟩
    · obtain rfl := Except.error.inj ((hlines ls).symm.trans h)
      exact ⟨[], row, p, .first .., hlines, hplace, hquotes⟩
    · rw [hlines] at h
      obtain ⟨before, line, q, hat, hrefused, hplace, hquotes⟩ := ih h
      refine ⟨row :: before, line, q, hat.behind hlines, ?_, ?_, hquotes⟩
      · rwa [number_behind, start_behind]
      · rwa [start_behind]

/-- An instruction comes from a line that says its operation, and has the number of this line. Its address is the number of
instructions in front. -/
def SaidBy (p : Program) (number start : Nat) (ls : List (List Char)) (a : Nat) (i : Instruction) : Prop :=
  ∃ before line q op, LineAt p number start ls before line q ∧ q.size = a ∧
    readLine line (start + byteLength (joinRows before)) = .ok (some op) ∧ i = .of op (number + before.length)

/-- What is said by a line further down is said by it behind a line in front as well. -/
theorem SaidBy.behind {a : Nat} {i : Instruction}
    (hlines : ∀ rest, assembleLines p number start (row :: rest) =
      assembleLines p' (number + 1) (start + byteLength row + 1) rest)
    (h : SaidBy p' (number + 1) (start + byteLength row + 1) ls a i) : SaidBy p number start (row :: ls) a i := by
  obtain ⟨before, line, q, op, hat, hsize, hread, hi⟩ := h
  refine ⟨row :: before, line, q, op, hat.behind hlines, hsize, ?_, ?_⟩
  · rwa [start_behind]
  · rwa [number_behind]

/-- An instruction was there before, or a line says it. -/
theorem saidBy_of_instructions (h : assembleLines p number start ls = .ok r) {a : Nat} {i : Instruction}
    (hi : r.instructions[a]? = some i) : p.instructions[a]? = some i ∨ SaidBy p number start ls a i := by
  induction ls generalizing p number start with
  | nil =>
    obtain rfl := Except.ok.inj h
    exact .inl hi
  | cons row ls ih =>
    rcases lineStep p number start row with ⟨-, hlines⟩ | ⟨-, hlines⟩ | ⟨hread, hpush, hlines⟩
    · nomatch (hlines ls).symm.trans h
    · exact (ih ((hlines ls).symm.trans h)).imp_right (.behind hlines)
    · rcases ih ((hlines ls).symm.trans h) with hnew | hlater
      · obtain ⟨-, -, hinstructions, -⟩ := Program.push_eq_ok hpush
        by_cases ha : a < p.size
        · rw [hinstructions, List.getElem?_append_left (by rwa [p.length_instructions])] at hnew
          exact .inl hnew
        · rw [hinstructions, List.getElem?_append_right (by rw [p.length_instructions]; omega), List.getElem?_singleton,
            p.length_instructions] at hnew
          split at hnew
          · obtain rfl := Option.some.inj hnew
            exact .inr ⟨[], row, p, _, .first .., by omega, hread, rfl⟩
          · nomatch hnew
      · exact .inr (.behind hlines hlater)

end

end Assembler

end GridRobot

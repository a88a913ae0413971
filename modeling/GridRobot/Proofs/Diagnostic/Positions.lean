import GridRobot.Proofs.Assembler.Lines
import GridRobot.Proofs.Language.Positions

/-!
# Positions and lines

A position is where a character of the text begins, or its end. The lexer counts lines as it goes, the assembler numbers the lines it
cuts the text into, and a diagnostic counts the newlines in front of a position; all of them agree (`positions_and_lines_agree`).
-/

namespace GridRobot

open Text

/-- Lines stand in a text as they are cut from it: an offset in one of them is a boundary, and its line is the number of the line. -/
theorem Assembler.LineAt.place {source : String} {p q : Program} {number start : Nat} {before : List (List Char)}
    {front back : List Char} (h : LineAt p number start (pieces source.toList) before (front ++ back) q) :
    OnBoundary source (byteLength (joinRows before) + byteLength front) ∧
      (Location.ofOffset source.toList (byteLength (joinRows before) + byteLength front)).line = before.length + 1 := by
  obtain ⟨after, hsplit⟩ := h.split
  exact place_of_pieces hsplit

/-- What the compiler objects to is on a line. -/
theorem onLine_of_compile {source : String} {asked : Option String} {e : SourceError} (h : compile source asked = .error e) :
    OnLine source e.position := by
  rcases refused_at_point h with ⟨hpoints, -⟩ | ⟨_, -, rfl⟩
  · exact hpoints.onLine
  · exact onLine_zero source

/-- What the compiler objects to is at a boundary. -/
theorem onBoundary_of_compile {source : String} {asked : Option String} {e : SourceError} (h : compile source asked = .error e) :
    OnBoundary source e.position :=
  (onLine_of_compile h).onBoundary

/-- What the assembler objects to is on a line: nothing is wrong with an empty line, and what is wrong behind a line is wrong behind
its last word. -/
theorem onLine_of_assemble {source : String} {e : SourceError} (h : assemble source = .error e) : OnLine source e.position := by
  obtain ⟨before, line, q, hat, hrefused, -, -⟩ := Assembler.exists_of_assembleLines_error h
  obtain ⟨after, hsplit⟩ := hat.split
  rw [Nat.zero_add] at hrefused
  have hline : line ≠ [] := by
    rintro rfl
    nomatch (hrefused []).symm.trans (Assembler.assembleLines_of_none rfl)
  have hplace : ∃ front back, line = front ++ back ∧ e.position = byteLength (joinRows before) + byteLength front ∧
      (back ≠ [] ∨ ∃ init c, front = init ++ [c] ∧ c ≠ '\r') := by
    rcases Assembler.lineStep q (1 + before.length) (byteLength (joinRows before)) line with
      ⟨hread, hlines⟩ | ⟨-, hlines⟩ | ⟨-, -, hlines⟩
    · obtain rfl := Except.error.inj ((hlines []).symm.trans (hrefused []))
      rcases hread with hread | rfl
      · exact Assembler.position_of_readLine hread
      · exact ⟨[], line, rfl, rfl, .inl hline⟩
    · nomatch (hlines []).symm.trans (hrefused [])
    · nomatch (hlines []).symm.trans (hrefused [])
  obtain ⟨front, back, rfl, hposition, hend⟩ := hplace
  rw [hposition]
  exact onLine_of_pieces hsplit hend

/-- What the assembler quotes is on one line. -/
theorem oneLine_of_assemble {source : String} {e : SourceError} (h : assemble source = .error e) : e.problem.QuotesOnly OneLine := by
  obtain ⟨before, line, q, -, -, -, hquotes⟩ := Assembler.exists_of_assembleLines_error h
  exact hquotes

/-- Positions are boundaries of the text, and lines are those of positions. This holds of every token and every error that the lexer
gives, with whatever spellings known before, and behind however many errors; of every error of the compiler; and of every error of
the assembler, whose line is the number of the line that is refused behind those that are not. An instruction that is assembled has
the number of the line that says its operation. -/
theorem positions_and_lines_agree (source : String) :
    (∀ (lexicon : Lexicon) (n : Nat) (lx : Lexer), (Lexer.start source lexicon).after n = lx →
        (∀ t, lx.next.1 = .ok t →
          OnBoundary source t.position ∧ t.line = (Location.ofOffset source.toList t.position).line) ∧
        ∀ e, lx.next.1 = .error e → OnBoundary source e.position) ∧
      (∀ asked e, compile source asked = .error e → OnBoundary source e.position) ∧
      (∀ e, assemble source = .error e → OnBoundary source e.position ∧
        ∃ before line q, Assembler.LineAt .empty 1 0 (pieces source.toList) before line q ∧
          (∀ rest, Assembler.assembleLines q (before.length + 1) (byteLength (joinRows before)) (line :: rest) = .error e) ∧
          (e.diagnostic.location source).line = before.length + 1) ∧
      ∀ p, assemble source = .ok p → ∀ a i, p.instructions[a]? = some i →
        ∃ before line q op, Assembler.LineAt .empty 1 0 (pieces source.toList) before line q ∧ q.size = a ∧
          Assembler.readLine line (byteLength (joinRows before)) = .ok (some op) ∧ i = .of op (before.length + 1) := by
  refine ⟨?_, fun asked e => onBoundary_of_compile, ?_, ?_⟩
  · rintro lexicon n _ rfl
    exact (Lexer.next_reachedIn (Lexer.after_reachedIn source lexicon n)).2
  · intro e h
    obtain ⟨before, _, q, hat, hrefused, ⟨front, back, rfl, hposition⟩, -⟩ := Assembler.exists_of_assembleLines_error h
    rw [Nat.zero_add] at hrefused hposition
    obtain ⟨hboundary, hline⟩ := hat.place
    rw [← hposition] at hboundary hline
    exact ⟨hboundary, before, _, q, hat, Nat.add_comm 1 _ ▸ hrefused, hline⟩
  · intro p h a i hi
    rcases Assembler.saidBy_of_instructions h hi with hnone | ⟨before, line, q, op, hat, hsize, hread, hnumber⟩
    · nomatch hnone
    · rw [Nat.zero_add] at hread
      exact ⟨before, line, q, op, hat, hsize, hread, hnumber.trans (Nat.add_comm 1 _ ▸ rfl)⟩

end GridRobot

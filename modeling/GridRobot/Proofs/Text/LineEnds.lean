import GridRobot.Proofs.Text.Columns

/-!
# Places on lines

The end of a line is a newline, with the carriage return in front of it if there is one. A place in a text is on its line, or at the
end of it, unless it lies between these two characters (`OnLine`). So many characters of the line are in front of the place as the
column says, and from there on the line goes on as the text does (`OnLine.line_at`).
-/

namespace GridRobot.Text

/-- A byte offset at which a character of a text begins or the text ends, and not between a carriage return and a newline. -/
def OnLine (source : String) (offset : Nat) : Prop :=
  ∃ before after, source.toList = before ++ after ∧ offset = byteLength before ∧
    ¬ (before.getLast? = some '\r' ∧ after.head? = some '\n')

/-- What is on a line is between two characters. -/
theorem OnLine.onBoundary {source : String} {offset : Nat} (h : OnLine source offset) : OnBoundary source offset := by
  obtain ⟨before, after, hsource, hoffset, -⟩ := h
  exact onBoundary_iff.2 ⟨before, after, hsource, hoffset⟩

/-- The beginning of a text is on its first line. -/
theorem onLine_zero (source : String) : OnLine source 0 := by
  refine ⟨[], source.toList, rfl, rfl, ?_⟩
  rintro ⟨hreturn, -⟩
  nomatch hreturn

/-- A place in a piece of a text is on a line if more of the piece is behind it, or no carriage return is in front of it. -/
theorem onLine_of_pieces {source : String} {before after : List (List Char)} {front back : List Char}
    (h : pieces source.toList = before ++ (front ++ back) :: after)
    (hend : back ≠ [] ∨ ∃ init c, front = init ++ [c] ∧ c ≠ '\r') :
    OnLine source (byteLength (joinRows before) + byteLength front) := by
  obtain ⟨⟨rest, hsource⟩, hline, -⟩ := pieces_eq_append h
  refine ⟨joinRows before ++ front, back ++ rest, ?_, (byteLength_append ..).symm, ?_⟩
  · rw [hsource]
    simp only [List.append_assoc]
  · rintro ⟨hreturn, hnewline⟩
    rcases hend with hback | ⟨init, c, rfl, hc⟩
    · obtain ⟨c, back, rfl⟩ := List.exists_cons_of_ne_nil hback
      obtain rfl : c = '\n' := Option.some.inj hnewline
      exact hline (List.mem_append_right _ List.mem_cons_self)
    · rw [← List.append_assoc, List.getLast?_concat] at hreturn
      exact hc (Option.some.inj hreturn)

/-! ## The line of a place -/

theorem linesOfPieces_cons (line : List Char) {others : List (List Char)} (h : others ≠ []) :
    linesOfPieces (line :: others) = dropReturn line :: linesOfPieces others := by
  obtain ⟨next, others, rfl⟩ := List.exists_cons_of_ne_nil h
  rfl

/-- The line that is made of a piece; only the last piece keeps a carriage return at its end. -/
theorem getD_linesOfPieces (rows : List (List Char)) (line : List Char) (others : List (List Char)) :
    ((linesOfPieces (rows ++ line :: others))[rows.length]?).getD [] = if others = [] then line else dropReturn line := by
  induction rows with
  | nil =>
    rw [List.nil_append, List.length_nil]
    by_cases hothers : others = []
    · rw [if_pos hothers, hothers, linesOfPieces]
      split
      · rename_i hline
        rw [hline]
        rfl
      · rfl
    · rw [if_neg hothers, linesOfPieces_cons line hothers]
      rfl
  | cons row rows ih =>
    have hne : rows ++ line :: others ≠ [] := List.append_ne_nil_of_right_ne_nil _ (List.cons_ne_nil _ _)
    rw [List.cons_append, linesOfPieces_cons row hne, List.length_cons, List.getElem?_cons_succ, ih]

/-- A carriage return at the end of a line is at the end of what is behind a place, unless it is in front of the place. -/
theorem dropReturn_append {front back : List Char} (h : back = [] → front.getLast? ≠ some '\r') :
    dropReturn (front ++ back) = front ++ dropReturn back := by
  unfold dropReturn
  cases back with
  | nil => rw [List.append_nil, if_neg (h rfl), if_neg (by exact nofun), List.append_nil]
  | cons c back =>
    have hlast : (front ++ c :: back).getLast? = (c :: back).getLast? := by
      rw [List.getLast?_append, List.getLast?_cons, Option.some_or]
    rw [hlast]
    split
    · exact List.dropLast_append_of_ne_nil (List.cons_ne_nil _ _)
    · rfl

/-- Leaving a carriage return away leaves what is in front of it. -/
theorem dropReturn_begins (line : List Char) : dropReturn line <+: line := by
  unfold dropReturn
  split
  · exact List.dropLast_prefix line
  · exact List.prefix_rfl

/-- On the line of a place there is as much in front of it as the column says, which is in front of it in the text, and from there on
the line goes on as the text does. -/
theorem OnLine.line_at {source : String} {offset : Nat} (h : OnLine source offset) :
    ∃ before after front back, source.toList = before ++ after ∧ offset = byteLength before ∧
      front <:+ before ∧ back <+: after ∧ '\n' ∉ front ++ back ∧
      (Location.ofOffset source.toList offset).column = front.length + 1 ∧
      ((lines source.toList)[(Location.ofOffset source.toList offset).line - 1]?).getD [] = front ++ back := by
  obtain ⟨before, after, hsource, rfl, hplace⟩ := h
  obtain ⟨rows, front, rfl, hrows, hfront⟩ := exists_rows before
  obtain ⟨first, others, hafter, hline⟩ := pieces_append_of_not_mem hfront after
  obtain ⟨hfirst, htext⟩ := pieces_eq_cons hafter
  have hpieces : pieces source.toList = rows ++ (front ++ first) :: others := by
    rw [hsource, List.append_assoc, pieces_joinRows_append hrows, hline]
  have hlocation : Location.ofOffset source.toList (byteLength (joinRows rows ++ front)) =
      ⟨rows.length + 1, front.length + 1⟩ := by
    rw [hsource]
    exact Location.ofOffset_rows hrows hfront after
  have hshown : ((lines source.toList)[rows.length]?).getD [] =
      if others = [] then front ++ first else dropReturn (front ++ first) := by
    rw [lines, hpieces, getD_linesOfPieces]
  have hbegins : first <+: after := by
    rcases htext with ⟨rfl, -⟩ | ⟨rest, rfl, -⟩
    · exact List.prefix_rfl
    · exact List.prefix_append _ _
  rw [hlocation]
  by_cases hothers : others = []
  · rw [if_pos hothers] at hshown
    refine ⟨_, after, front, first, hsource, rfl, List.suffix_append _ _, hbegins, ?_, rfl, hshown⟩
    rw [List.mem_append]
    exact not_or.2 ⟨hfront, hfirst⟩
  · -- a newline follows the piece, so the place is not behind a carriage return at its end
    have hback : first = [] → front.getLast? ≠ some '\r' := by
      rintro rfl hreturn
      obtain ⟨rest, rfl⟩ : ∃ rest, after = '\n' :: rest := by
        rcases htext with ⟨-, hnil⟩ | ⟨rest, hrest, -⟩
        · exact absurd hnil hothers
        · exact ⟨rest, hrest⟩
      refine hplace ⟨?_, rfl⟩
      rw [List.getLast?_append, hreturn, Option.some_or]
    rw [if_neg hothers, dropReturn_append hback] at hshown
    refine ⟨_, after, front, dropReturn first, hsource, rfl, List.suffix_append _ _,
      (dropReturn_begins first).trans hbegins, ?_, rfl, hshown⟩
    rw [List.mem_append]
    exact not_or.2 ⟨hfront, fun hmem => hfirst ((dropReturn_begins first).subset hmem)⟩

end GridRobot.Text

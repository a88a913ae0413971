import GridRobot.Proofs.Diagnostic.Positions
import GridRobot.Session

/-!
# What is said about a refused text

A text that is refused is answered with the message on a line of its own and, below it, the line with the character underlined that
is objected to (`explain_underlines`). The objections of the compiler and of the assembler are on lines of the text, never between a
carriage return and the newline that end a line, so the mark is never lost: it is under a character of the line, or under a space
behind it. What they quote of the text is on one line, and so is the message.
-/

namespace GridRobot

open Text

namespace Session

/-- A line is underlined where it goes on behind a part of it, and at its end under a space. -/
theorem underlined_append (p : Palette) (front back : List Char) :
    underlined p (front ++ back) (front.length + 1) =
      String.ofList front ++ p.paint .underline (back.head?.getD ' ').toString ++ String.ofList back.tail := by
  unfold underlined
  rw [Nat.add_sub_cancel, List.drop_left, List.take_left]
  cases back with
  | nil =>
    rw [List.append_nil, if_pos rfl]
    exact (String.append_empty ..).symm
  | cons c back => rfl

/-- An explanation is the message, and below it the number of the line with the line. -/
theorem explainWith_eq (p : Palette) {source : String} {e : SourceError} {l : Location} {line : List Char}
    (hl : e.diagnostic.location source = l) (hline : ((lines source.toList)[l.line - 1]?).getD [] = line) :
    explainWith p source e =
      p.paint .bold e.diagnostic.message ++ "\n" ++ padded 4 l.line ++ " " ++ underlined p line l.column := by
  subst hl hline
  rfl

/-- A line number is on one line. -/
theorem newline_not_mem_padded (width n : Nat) : '\n' ∉ (padded width n).toList := by
  rw [padded, String.toList_append, String.toList_ofList, List.mem_append, List.mem_replicate]
  rintro (⟨-, h⟩ | h)
  · nomatch h
  · exact oneLine_toString n h

/-- The message is on one line, unless a command is asked for by a name that is not. -/
theorem message_oneLine_or {source : String} {e : SourceError}
    (h : (∃ asked, compile source asked = .error e) ∨ assemble source = .error e) :
    OneLine e.diagnostic.message ∨
      ∃ name, compile source (some name) = .error e ∧ e = ⟨.undefinedCommand name, 0⟩ ∧ '\n' ∈ name.toList := by
  rcases h with ⟨asked, h⟩ | h
  · rcases refused_at_point h with ⟨-, hquotes⟩ | ⟨name, rfl, rfl⟩
    · exact .inl (SourceError.message_oneLine hquotes)
    · by_cases hname : OneLine name
      · exact .inl (SourceError.message_oneLine (.one rfl hname))
      · exact .inr ⟨name, h, rfl, Classical.not_not.1 hname⟩
  · exact .inl (SourceError.message_oneLine (oneLine_of_assemble h))

theorem paint_oneLine (s : Style) {text : String} (h : OneLine text) : OneLine (Palette.ansi.paint s text) := by
  have hopening : OneLine (Palette.ansi.opening s) := by cases s <;> decide
  exact (hopening.append h).append (by decide)

/-- A text that is refused is answered with the message, and below it with a line of its own: the number of the line that the error is
on, set to the right in four columns, a space, and the line. The column of the error is on this line or just behind it. What is in
front of it on the line is in front of the error in the text, and from there on the line goes on as the text does. All of the line is
shown as it is, and the character at the column is underlined, or a space if the line ends there. The message takes one line, so that
what is below it is the second one, unless a command is asked for whose name has a line break and is missing. -/
theorem explain_underlines {source : String} {e : SourceError} {l : Location} {chars : List Char}
    (h : (∃ asked, compile source asked = .error e) ∨ assemble source = .error e) (hl : e.diagnostic.location source = l)
    (hline : ((lines source.toList)[l.line - 1]?).getD [] = chars) :
    l.column - 1 ≤ chars.length ∧
      (∃ before after, source.toList = before ++ after ∧ e.position = byteLength before ∧
        chars.take (l.column - 1) <:+ before ∧ chars.drop (l.column - 1) <+: after) ∧
      ('\n' ∉ (Palette.ansi.paint .bold e.diagnostic.message).toList ∨
        ∃ name, compile source (some name) = .error e ∧ e = ⟨.undefinedCommand name, 0⟩ ∧ '\n' ∈ name.toList) ∧
      ∃ below, explain source e = Palette.ansi.paint .bold e.diagnostic.message ++ "\n" ++ below ∧ '\n' ∉ below.toList ∧
        below = padded 4 l.line ++ " " ++ String.ofList (chars.take (l.column - 1)) ++ "\x1b[4m" ++
          ((chars[l.column - 1]?).getD ' ').toString ++ "\x1b[0m" ++ String.ofList (chars.drop l.column) := by
  have honLine : OnLine source e.position := by
    rcases h with ⟨asked, h⟩ | h
    · exact onLine_of_compile h
    · exact onLine_of_assemble h
  obtain ⟨before, after, front, back, hsource, hposition, hfront, hback, hnewline, hcolumn, hshown⟩ := honLine.line_at
  change Location.ofOffset source.toList e.position = l at hl
  rw [hl] at hcolumn hshown
  obtain rfl : chars = front ++ back := hline.symm.trans hshown
  have htake : (front ++ back).take (l.column - 1) = front := by rw [hcolumn, Nat.add_sub_cancel, List.take_left]
  have hdrop : (front ++ back).drop (l.column - 1) = back := by rw [hcolumn, Nat.add_sub_cancel, List.drop_left]
  have hmarked : (front ++ back)[l.column - 1]? = back.head? := by
    rw [hcolumn, Nat.add_sub_cancel, List.getElem?_append_right (Nat.le_refl _), Nat.sub_self, List.head?_eq_getElem?]
  have hbehind : (front ++ back).drop l.column = back.tail := by rw [hcolumn, ← List.drop_drop, List.drop_left, List.drop_one]
  rw [htake, hdrop, hmarked, hbehind]
  have hmessage := (message_oneLine_or h).imp_left (paint_oneLine .bold)
  refine ⟨?_, ⟨before, after, hsource, hposition, hfront, hback⟩, hmessage, _, ?_, ?_, rfl⟩
  · rw [hcolumn, Nat.add_sub_cancel, List.length_append]
    exact Nat.le_add_right _ _
  · have hunderlined : underlined .ansi (front ++ back) l.column = _ := hcolumn ▸ underlined_append .ansi front back
    rw [explain, explainWith_eq .ansi hl hline, hunderlined]
    simp only [Palette.paint, Palette.ansi, String.append_assoc]
  · obtain ⟨hinFront, hinBack⟩ := not_or.1 (mt List.mem_append.2 hnewline)
    have hmark : '\n' ∉ (back.head?.getD ' ').toString.toList := by
      cases back with
      | nil => decide
      | cons c back =>
        rw [List.head?_cons, Option.getD_some, Char.toString, String.toList_singleton, List.mem_singleton]
        rintro rfl
        exact hinBack List.mem_cons_self
    have htail : '\n' ∉ back.tail := fun hmem => hinBack (List.mem_of_mem_tail hmem)
    simp only [String.toList_append, String.toList_ofList, List.mem_append, not_or]
    exact ⟨⟨⟨⟨⟨⟨newline_not_mem_padded 4 l.line, by decide⟩, hinFront⟩, by decide⟩, hmark⟩, by decide⟩, htail⟩

/-- The operand is missed behind the last word, in front of the carriage return, so a space behind the line is underlined. -/
theorem explain_underlines_of_return :
    assemble "MOVE\r\nPUSH\r\n" = .error ⟨.expectedAddress, 10⟩ ∧
      ∃ below, explain "MOVE\r\nPUSH\r\n" ⟨.expectedAddress, 10⟩ =
          "\x1b[1mSYNTAX ERROR AT 10; expected address\x1b[0m" ++ "\n" ++ below ∧
        '\n' ∉ below.toList ∧ below = "   2 PUSH\x1b[4m \x1b[0m" := by
  have hrefused : assemble "MOVE\r\nPUSH\r\n" = .error ⟨.expectedAddress, 10⟩ := by decide +kernel
  have hl : (SourceError.diagnostic ⟨.expectedAddress, 10⟩).location "MOVE\r\nPUSH\r\n" = ⟨2, 5⟩ := by decide +kernel
  have hline : ((lines "MOVE\r\nPUSH\r\n".toList)[2 - 1]?).getD [] = ['P', 'U', 'S', 'H'] := by decide +kernel
  obtain ⟨-, -, -, below, hexplain, hnewline, hbelow⟩ := explain_underlines (.inr hrefused) hl hline
  exact ⟨hrefused, below, hexplain, hnewline, hbelow.trans (by decide +kernel)⟩

end Session

end GridRobot

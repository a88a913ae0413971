import GridRobot.Proofs.Language.Tokens

/-!
# Reading back what was written

Tokens that are written one behind the other, with spacing between each two of them, are read back as they were written, whatever the
spacing is (`lex_printed`). Spacing is gone over as a whole (`skip_spacing`), and it ends a word or a numeral in front of it, so each
token is whole where it stands.
-/

namespace GridRobot

open Text

/-! ## Spellings -/

/-- A text that can be written for a token of a kind. -/
inductive Token.Spelling : Kind → List Char → Prop where
  | number {first : Char} {digits : List Char} : first.isDigit = true → (∀ c ∈ digits, c.isDigit = true) →
      Spelling .number (first :: digits)
  | keyword {spelling : String} {kind : Kind} : (spelling, kind) ∈ Kind.keywords → Spelling kind spelling.toList
  | identifier {first : Char} {letters : List Char} : Lexer.isWordStart first = true →
      (∀ c ∈ letters, Lexer.isWordPart c = true) → (∀ k, (String.ofList (first :: letters), k) ∉ Kind.keywords) →
      Spelling .identifier (first :: letters)
  | sign {spelling : String} {kind : Kind} : (spelling, kind) ∈ Kind.signs → Spelling kind spelling.toList

/-- A character that goes on neither with a word nor with a numeral. -/
def Lexer.IsBreak (c : Char) : Prop := Lexer.isWordPart c = false ∧ c.isDigit = false

/-- What is spelled as a token is a whole one in front of a break. -/
theorem Token.Spelling.whole {kind : Kind} {text rest : List Char} (h : Spelling kind text)
    (hrest : ∀ c ∈ rest.head?, Lexer.IsBreak c) : Whole kind text rest := by
  cases h with
  | number hfirst hdigits => exact .number hfirst hdigits fun c hc => (hrest c hc).2
  | @keyword spelling _ hmem =>
    have hwords : ∀ entry ∈ Kind.keywords, ∃ first letters, entry.1.toList = first :: letters ∧
        Lexer.isWordStart first = true ∧ letters.all Lexer.isWordPart = true := by
      simp only [Kind.keywords, List.forall_mem_cons]
      exact ⟨⟨'e', ['l', 's', 'e'], rfl, rfl, rfl⟩, ⟨'i', ['f'], rfl, rfl, rfl⟩, ⟨'r', ['e', 'p', 'e', 'a', 't'], rfl, rfl, rfl⟩,
        ⟨'v', ['o', 'i', 'd'], rfl, rfl, rfl⟩, ⟨'w', ['h', 'i', 'l', 'e'], rfl, rfl, rfl⟩, nofun⟩
    have hreserved : ∀ entry ∈ Kind.keywords, Kind.ofWord entry.1 = entry.2 := by decide
    obtain ⟨first, letters, htext, hfirst, hletters⟩ := hwords _ hmem
    have hkind : Kind.ofWord (String.ofList (first :: letters)) = kind := by
      rw [← htext, String.ofList_toList]
      exact hreserved _ hmem
    rw [htext, ← hkind]
    exact .word hfirst (List.all_eq_true.1 hletters) fun c hc => (hrest c hc).1
  | identifier hfirst hletters hnew =>
    rw [← Kind.ofWord_eq_identifier hnew]
    exact .word hfirst hletters fun c hc => (hrest c hc).1
  | sign hmem => exact .sign hmem

namespace Lexer

variable {c : Char}

/-- White space and the slash of a comment end words and numerals. -/
theorem isBreak_of_spacing (h : isSpace c = true ∨ c = '/') : IsBreak c := by
  rcases h with h | rfl
  · have hmem := isSpace_iff.1 h
    simp only [List.mem_cons, List.not_mem_nil, or_false] at hmem
    rcases hmem with rfl | rfl | rfl | rfl | rfl | rfl <;>
    · exact ⟨by decide, by decide⟩
  · exact ⟨by decide, by decide⟩

end Lexer

namespace Spacing

/-- Spacing begins with white space or with the slash of a comment. -/
theorem head {gap : List Char} (h : Spacing gap) : ∀ c ∈ gap.head?, Lexer.isSpace c = true ∨ c = '/' := by
  cases h with
  | nil => exact nofun
  | space hc =>
    rintro _ ⟨⟩
    exact .inl hc
  | lineComment | starComment =>
    rintro _ ⟨⟩
    exact .inr rfl

theorem AtEnd.head {last : List Char} (h : AtEnd last) : ∀ c ∈ last.head?, Lexer.isSpace c = true ∨ c = '/' := by
  rcases h with h | ⟨before, body, rfl, h, -⟩
  · exact h.head
  · cases before with
    | nil =>
      rintro _ ⟨⟩
      exact .inr rfl
    | cons => exact h.head

end Spacing

/-! ## Going over spacing -/

namespace Cursor

variable {rest : List Char} {offset line : Nat}

theorem lineAfter_add_count (c : Char) (text : List Char) :
    lineAfter c line + text.count '\n' = line + (c :: text).count '\n' := by
  unfold lineAfter
  by_cases h : c = '\n'
  · rw [if_pos h, h, List.count_cons_self, Nat.add_right_comm, Nat.add_assoc]
  · rw [if_neg h, List.count_cons_of_ne h]

/-- A comment that ends with its line is gone over up to the newline. -/
theorem skip_lineComment {body : List Char} (h : '\n' ∉ body) :
    skip .space ('/' :: '/' :: body ++ rest) offset line =
      skip .lineComment rest (offset + byteLength ('/' :: '/' :: body)) line := by
  have hbody : ∀ offset, skip .lineComment (body ++ rest) offset line =
      skip .lineComment rest (offset + byteLength body) line := by
    induction body with
    | nil => exact fun _ => rfl
    | cons c body ih =>
      intro offset
      rw [List.mem_cons, not_or] at h
      have hc : c ≠ '\n' := fun he => h.1 he.symm
      rw [List.cons_append, skip, if_neg hc, lineAfter, if_neg hc, ih h.2, byteLength_cons, Nat.add_assoc]
  have hopen : skip .space ('/' :: '/' :: body ++ rest) offset line = skip .lineComment (body ++ rest) (offset + 2) line := rfl
  have hbytes : byteLength ('/' :: '/' :: body) = 2 + byteLength body := (Nat.add_assoc 1 1 _).symm
  rw [hopen, hbody, hbytes, Nat.add_assoc]

/-- The body of a comment in stars is gone over with the star and the slash that end it. The induction is on the body; where a
star was the last character, the body does not begin with the slash that would end the comment. -/
theorem skip_starBody {start : Nat} {afterStar : Bool} {body : List Char} (h : ¬ ['*', '/'] <:+: body)
    (hfirst : afterStar = true → body.head? ≠ some '/') :
    skip (.starComment start afterStar) (body ++ '*' :: '/' :: rest) offset line =
      skip .space rest (offset + byteLength body + 2) (line + body.count '\n') := by
  induction body generalizing afterStar offset line with
  | nil => cases afterStar <;> rfl
  | cons c body ih =>
    have hopen : ¬ (afterStar && c == '/') = true := by
      rw [Bool.and_eq_true, beq_iff_eq]
      rintro ⟨hstar, rfl⟩
      exact hfirst hstar rfl
    have hbody : ¬ ['*', '/'] <:+: body := fun hin => h (hin.trans (List.suffix_cons c body).isInfix)
    have hnext : (c == '*') = true → body.head? ≠ some '/' := by
      rw [beq_iff_eq]
      rintro rfl hslash
      obtain ⟨more, rfl⟩ := List.head?_eq_some_iff.1 hslash
      exact h ⟨[], more, rfl⟩
    rw [List.cons_append, skip, if_neg hopen, ih hbody hnext, byteLength_cons, ← Nat.add_assoc offset, lineAfter_add_count]

/-- A comment in stars is gone over as a whole. -/
theorem skip_starComment {body : List Char} (h : ¬ ['*', '/'] <:+: body) :
    skip .space ('/' :: '*' :: body ++ '*' :: '/' :: rest) offset line =
      skip .space rest (offset + (byteLength ('/' :: '*' :: body) + 2)) (line + body.count '\n') := by
  have hopen : skip .space ('/' :: '*' :: body ++ '*' :: '/' :: rest) offset line =
      skip (.starComment offset false) (body ++ '*' :: '/' :: rest) (offset + 2) line := rfl
  have hbytes : byteLength ('/' :: '*' :: body) = 2 + byteLength body := (Nat.add_assoc 1 1 _).symm
  rw [hopen, skip_starBody h Bool.noConfusion, hbytes]
  simp only [Nat.add_assoc]

theorem skip_isSpace {c : Char} (hc : Lexer.isSpace c = true) :
    skip .space (c :: rest) offset line = skip .space rest (offset + c.utf8Size) (lineAfter c line) := by
  rw [skip.eq_def]
  exact if_pos hc

/-- Nothing is gone over where a token begins. -/
theorem skip_token {c : Char} (hc : Lexer.isSpace c = false) (hslash : c ≠ '/') :
    skip .space (c :: rest) offset line = (.ok (), ⟨c :: rest, offset, line⟩) := by
  rw [skip.eq_def]
  dsimp only
  rw [if_neg (Bool.eq_false_iff.1 hc), if_neg hslash]

/-- Spacing is gone over as a whole. -/
theorem skip_spacing {gap : List Char} (h : Spacing gap) :
    skip .space (gap ++ rest) offset line = skip .space rest (offset + byteLength gap) (line + gap.count '\n') := by
  induction h generalizing offset line with
  | nil => rfl
  | space hc _ ih => rw [List.cons_append, skip_isSpace hc, ih, lineAfter_add_count, byteLength_cons, Nat.add_assoc]
  | @lineComment body gap hbody _ ih =>
    have hclose : ∀ offset, skip .lineComment ('\n' :: gap ++ rest) offset line =
        skip .space (gap ++ rest) (offset + 1) (line + 1) := fun _ => rfl
    have hbytes : byteLength ('/' :: '/' :: body ++ '\n' :: gap) = byteLength ('/' :: '/' :: body) + (1 + byteLength gap) :=
      byteLength_append _ _
    have hlines : ('/' :: '/' :: body ++ '\n' :: gap).count '\n' = 1 + gap.count '\n' := by
      simp [List.count_eq_zero.2 hbody, Nat.add_comm]
    rw [hbytes, hlines, List.append_assoc, skip_lineComment hbody, hclose, ih]
    simp only [Nat.add_assoc]
  | @starComment body gap hbody _ ih =>
    have hclose : '*' :: '/' :: gap ++ rest = '*' :: '/' :: (gap ++ rest) := rfl
    have hbytes : byteLength ('/' :: '*' :: body ++ '*' :: '/' :: gap) =
        byteLength ('/' :: '*' :: body) + (2 + byteLength gap) := by
      rw [byteLength_append, Nat.add_assoc 1 1]
      rfl
    have hlines : ('/' :: '*' :: body ++ '*' :: '/' :: gap).count '\n' = body.count '\n' + gap.count '\n' := by
      simp
    rw [hbytes, hlines, List.append_assoc, hclose, skip_starComment hbody, ih]
    simp only [Nat.add_assoc]

variable {cur cur' : Cursor} {gap : List Char}

/-- A place in front of spacing is as good as the one behind it. -/
theorem skipGap_of_spacing (h : Spacing gap) (hspans : cur.Spans gap cur') : cur.skipGap = cur'.skipGap := by
  rw [skipGap, skipGap, hspans.rest, skip_spacing h, hspans.offset, hspans.line]

theorem skipGap_of_atToken (h : cur.AtToken) : cur.skipGap = (.ok (), cur) := by
  obtain ⟨rest, offset, line⟩ := cur
  cases rest with
  | nil => rfl
  | cons c rest =>
    obtain ⟨hc, hslash⟩ := h c rest rfl
    exact skip_token hc hslash

/-- The spacing at the end of a text is gone over to the end. -/
theorem skipGap_of_atEnd (h : Spacing.AtEnd gap) (hspans : cur.Spans gap cur') (hrest : cur'.rest = []) :
    cur.skipGap = (.ok (), cur') := by
  rcases h with h | ⟨before, body, rfl, h, hbody⟩
  · have htoken : cur'.AtToken := by
      rw [AtToken, hrest]
      exact nofun
    rw [skipGap_of_spacing h hspans, skipGap_of_atToken htoken]
  · obtain ⟨rest', offset', line'⟩ := cur'
    obtain rfl : rest' = [] := hrest
    have hend : ∀ offset line, skip .lineComment [] offset line = (.ok (), ⟨[], offset, line⟩) := fun _ _ => rfl
    have hbytes := byteLength_append before ('/' :: '/' :: body)
    have hlines : (before ++ '/' :: '/' :: body).count '\n' = before.count '\n' := by
      simp [List.count_eq_zero.2 hbody]
    have hoffset := hspans.offset
    have hline := hspans.line
    rw [hbytes] at hoffset
    rw [hlines] at hline
    rw [skipGap, hspans.rest, List.append_assoc, skip_spacing h, skip_lineComment hbody, hend, Nat.add_assoc, ← hoffset, ← hline]

end Cursor

/-! ## Reading one token -/

namespace Lexer

/-- Every sign is read as one. Neither white space, a comment, a word nor a numeral begins as it does. -/
theorem sign_of_mem {spelling : String} {kind : Kind} (h : (spelling, kind) ∈ Kind.signs) :
    ∃ c tail, spelling.toList = c :: tail ∧ (c.isDigit = false ∧ isWordStart c = false) ∧ (isSpace c = false ∧ c ≠ '/') ∧
      ∀ rest, sign c (tail ++ rest) = .ok (kind, spelling.toList.length) := by
  have hsigns : ∀ entry ∈ Kind.signs, ∃ c tail, entry.1.toList = c :: tail ∧
      (c.isDigit = false ∧ isWordStart c = false) ∧ (isSpace c = false ∧ c ≠ '/') ∧
      ∀ rest, sign c (tail ++ rest) = .ok (entry.2, entry.1.toList.length) := by
    simp only [Kind.signs, List.forall_mem_cons]
    exact ⟨⟨'!', [], rfl, by decide, by decide, fun _ => rfl⟩, ⟨'&', ['&'], rfl, by decide, by decide, fun _ => rfl⟩,
      ⟨'(', [], rfl, by decide, by decide, fun _ => rfl⟩, ⟨')', [], rfl, by decide, by decide, fun _ => rfl⟩,
      ⟨';', [], rfl, by decide, by decide, fun _ => rfl⟩, ⟨'\x7b', [], rfl, by decide, by decide, fun _ => rfl⟩,
      ⟨'|', ['|'], rfl, by decide, by decide, fun _ => rfl⟩, ⟨'\x7d', [], rfl, by decide, by decide, fun _ => rfl⟩, nofun⟩
  exact hsigns _ h

end Lexer

/-- Where a token is written, a token begins. -/
theorem Token.Whole.atToken {kind : Kind} {text : List Char} {cur cur' : Cursor} (h : Whole kind text cur'.rest)
    (hspans : cur.Spans text cur') : cur.AtToken := by
  have hpart : ∀ {c : Char}, c.isDigit = true ∨ Lexer.isWordStart c = true → Lexer.isSpace c = false ∧ c ≠ '/' := by
    intro c hc
    have hbreak : ¬ Lexer.IsBreak c := by
      rintro ⟨hword, hdigit⟩
      rcases hc with hc | hc
      · exact absurd hc (Bool.eq_false_iff.1 hdigit)
      · exact absurd (Lexer.isWordPart_of_isWordStart hc) (Bool.eq_false_iff.1 hword)
    exact ⟨Bool.eq_false_iff.2 fun h => hbreak (Lexer.isBreak_of_spacing (.inl h)),
      fun h => hbreak (Lexer.isBreak_of_spacing (.inr h))⟩
  rw [Cursor.AtToken, hspans.rest]
  cases h with
  | number hfirst =>
    rintro _ _ ⟨⟩
    exact hpart (.inl hfirst)
  | word hfirst =>
    rintro _ _ ⟨⟩
    exact hpart (.inr hfirst)
  | sign hmem =>
    obtain ⟨c, tail, htext, -, hc, -⟩ := Lexer.sign_of_mem hmem
    rw [htext]
    rintro _ _ ⟨⟩
    exact hc

/-- From a place a text leads to one place. -/
theorem Cursor.Spans.unique {cur cur' cur'' : Cursor} {text : List Char} (h : cur.Spans text cur')
    (h' : cur.Spans text cur'') : cur' = cur'' := by
  obtain ⟨rest', offset', line'⟩ := cur'
  obtain ⟨rest'', offset'', line''⟩ := cur''
  have hrest : rest' = rest'' := List.append_cancel_left (h.rest.symm.trans h'.rest)
  have hoffset : offset' = offset'' := h.offset.trans h'.offset.symm
  have hline : line' = line'' := h.line.trans h'.line.symm
  rw [hrest, hoffset, hline]

/-- From a place any text ahead leads to a place. -/
theorem Cursor.exists_spans {cur : Cursor} {text rest : List Char} (h : cur.rest = text ++ rest) :
    ∃ cur', cur.Spans text cur' ∧ cur'.rest = rest :=
  ⟨⟨rest, _, _⟩, ⟨h, rfl, rfl⟩, rfl⟩

namespace Lexer

variable {l : Lexicon} {cur cur' : Cursor} {kind : Kind} {text : List Char}

/-- The characters that pass a test are taken up to one that does not. -/
theorem takeWhile_append {p : Char → Bool} {piece rest : List Char} (hpiece : ∀ c ∈ piece, p c = true)
    (hnext : ∀ c ∈ rest.head?, p c = false) : (piece ++ rest).takeWhile p = piece := by
  rw [List.takeWhile_append_of_pos hpiece]
  cases rest with
  | nil => exact List.append_nil piece
  | cons c rest => rw [List.takeWhile_cons_of_neg (Bool.eq_false_iff.1 (hnext c rfl)), List.append_nil]

/-- A token that is written at a place is read there as what it is. -/
theorem scan_of_whole (hl : l.Regular) (hspans : cur.Spans text cur') (h : Token.Whole kind text cur'.rest) :
    ∃ t lx, scan l cur = (.ok t, lx) ∧ t.kind = kind ∧ t.text = String.ofList text := by
  unfold scan
  rw [hspans.rest]
  cases h with
  | @number first digits _ hfirst hdigits hnext =>
    have htake : (cur.takeWhile Char.isDigit).1 = first :: digits := by
      rw [Cursor.takeWhile, hspans.rest]
      exact takeWhile_append (List.forall_mem_cons.2 ⟨hfirst, hdigits⟩) hnext
    rw [List.cons_append]
    dsimp only
    rw [if_pos hfirst, htake]
    exact ⟨_, _, rfl, rfl, rfl⟩
  | @word first letters _ hfirst hletters hnext =>
    have hdigit : ¬ first.isDigit = true := by
      intro h
      rw [isWordStart_of_isDigit h] at hfirst
      nomatch hfirst
    have htake : (cur.takeWhile isWordPart).1 = first :: letters := by
      rw [Cursor.takeWhile, hspans.rest]
      exact takeWhile_append (List.forall_mem_cons.2 ⟨isWordPart_of_isWordStart hfirst, hletters⟩) hnext
    have hbegins : Lexicon.beginsWord (String.ofList (first :: letters)) = true := by simp [Lexicon.beginsWord, hfirst]
    rw [List.cons_append]
    dsimp only
    rw [if_neg hdigit, if_pos hfirst, htake]
    cases hword : l.word (String.ofList (first :: letters)) with
    | mk entry l' =>
    obtain ⟨symbol, k⟩ := entry
    obtain ⟨-, -, -, rfl⟩ := hl.word hword hbegins
    exact ⟨_, _, rfl, rfl, rfl⟩
  | @sign spelling _ _ hmem =>
    obtain ⟨c, tail, htext, ⟨hdigit, hword⟩, -, hsign⟩ := sign_of_mem hmem
    have htake : (c :: (tail ++ cur'.rest)).take spelling.toList.length = spelling.toList := by
      rw [← List.cons_append, ← htext, List.take_left]
    rw [htext, List.cons_append]
    dsimp only
    rw [if_neg (Bool.eq_false_iff.1 hdigit), if_neg (Bool.eq_false_iff.1 hword), hsign]
    exact ⟨_, _, rfl, rfl, by rw [htake, htext]⟩

/-- A token that is written behind a gap is the next one. -/
theorem next_of_whole {lx : Lexer} {before behind : Cursor} {gap : List Char} (hl : lx.lexicon.Regular)
    (hgap : lx.cursor.Spans gap before) (hspacing : Spacing gap) (hspans : before.Spans text behind)
    (h : Token.Whole kind text behind.rest) :
    ∃ t lx', lx.next = (.ok t, lx') ∧ lx'.lexicon.Regular ∧ lx.lexicon.entries <+: lx'.lexicon.entries ∧
      lx'.cursor = behind ∧ t.Stands lx'.lexicon before behind ∧ t.kind = kind ∧ t.text = String.ofList text := by
  obtain ⟨t, lx', hscan, hkind, htext⟩ := scan_of_whole hl hspans h
  have hnext : lx.next = (.ok t, lx') := by
    rw [next, Cursor.skipGap_of_spacing hspacing hgap, Cursor.skipGap_of_atToken (h.atToken hspans)]
    exact hscan
  obtain ⟨hl', hgrow, ⟨hrest, -⟩ | hstands⟩ := scan_eq_ok hl hscan
  · rw [hspans.rest] at hrest
    exact absurd (List.append_eq_nil_iff.1 hrest).1 h.ne_nil
  · have hplace : lx'.cursor = behind := by
      have := hstands.spans
      rw [htext, String.toList_ofList] at this
      exact this.unique hspans
    rw [hplace] at hstands
    exact ⟨t, lx', hnext, hl', hgrow, hplace, hstands, hkind, htext⟩

/-- Behind the spacing at its end, the text ends. -/
theorem next_of_atEnd {lx : Lexer} {last : List Char} (hlast : Spacing.AtEnd last) (hspans : lx.cursor.Spans last cur)
    (hrest : cur.rest = []) : lx.next = (.ok (Token.endOf cur), ⟨cur, lx.lexicon⟩) := by
  rw [next, Cursor.skipGap_of_atEnd hlast hspans hrest]
  dsimp only
  rw [scan, hrest]

end Lexer

/-! ## Reading all tokens -/

/-- A token to be written, with the gap in front of it. -/
structure Written where
  gap : List Char
  kind : Kind
  text : List Char

namespace Written

/-- The text of tokens with the gaps in front of them. -/
def print (pieces : List Written) : List Char := pieces.flatMap fun piece => piece.gap ++ piece.text

/-- Tokens are written so that each is whole in front of what follows, and nothing but spacing is between them. -/
inductive Legible (last : List Char) : List Written → Prop where
  | nil : Spacing.AtEnd last → Legible last []
  | cons {piece : Written} {pieces : List Written} : Spacing piece.gap →
      Token.Whole piece.kind piece.text (print pieces ++ last) → Legible last pieces → Legible last (piece :: pieces)

end Written

namespace Scan

/-- Legible tokens are read as they are written. The induction is on the tokens. -/
theorem read_of_legible {last : List Char} {pieces : List Written} (h : Written.Legible last pieces) {lx : Lexer}
    {fuel : Nat} (hl : lx.lexicon.Regular) (hrest : lx.cursor.rest = Written.print pieces ++ last)
    (hfuel : pieces.length < fuel) :
    ∃ l laid mid cur, read fuel lx = ⟨laid.map (·.2), .endOfInput (Token.endOf cur), l⟩ ∧
      lx.lexicon.entries <+: l.entries ∧ Laid l lx.cursor laid mid ∧ mid.Spans last cur ∧ cur.rest = [] ∧
      laid.map (fun piece => (⟨piece.1, piece.2.kind, piece.2.text.toList⟩ : Written)) = pieces := by
  induction h generalizing lx fuel with
  | nil hlast =>
    obtain ⟨fuel, rfl⟩ := Nat.exists_eq_add_of_lt hfuel
    obtain ⟨cur, hspans, hend⟩ := Cursor.exists_spans (hrest.trans (List.append_nil last).symm)
    exact ⟨lx.lexicon, [], lx.cursor, cur, read_of_end (Lexer.next_of_atEnd hlast hspans hend) rfl _, List.prefix_rfl,
      .nil _, hspans, hend, rfl⟩
  | @cons piece pieces hgap hwhole _ ih =>
    obtain ⟨fuel, rfl⟩ : ∃ n, fuel = n + 1 := Nat.exists_eq_succ_of_ne_zero (Nat.ne_zero_of_lt hfuel)
    have hprint : Written.print (piece :: pieces) ++ last = piece.gap ++ (piece.text ++ (Written.print pieces ++ last)) := by
      simp only [Written.print, List.flatMap_cons, List.append_assoc]
    obtain ⟨before, hbefore, hpiece⟩ := Cursor.exists_spans (hrest.trans hprint)
    obtain ⟨behind, hbehind, hmore⟩ := Cursor.exists_spans hpiece
    obtain ⟨t, lx', hnext, hl', hgrow, rfl, hstands, hkind, htext⟩ :=
      Lexer.next_of_whole hl hbefore hgap hbehind (hmore ▸ hwhole)
    obtain ⟨l, laid, mid, cur, hread, hgrow', hlaid, hlast, hend, hpieces⟩ := ih hl' hmore (Nat.lt_of_succ_lt_succ hfuel)
    have hwritten : (⟨piece.gap, t.kind, t.text.toList⟩ : Written) = piece := by rw [hkind, htext, String.toList_ofList]
    refine ⟨l, (piece.gap, t) :: laid, mid, cur, ?_, hgrow.trans hgrow', ?_, hlast, hend, ?_⟩
    · rw [read_of_token hnext hstands.whole.kind_ne, hread]
      rfl
    · exact .cons hbefore hgap (hstands.grow hgrow') hlaid
    · rw [List.map_cons, hwritten, hpieces]

end Scan

namespace Written

/-- A gap that is not empty breaks off the token in front of it, so tokens with a gap between each two of them are legible. The
induction is on the tokens. -/
theorem legible_of_spelling {pieces : List Written} {last : List Char}
    (hspelled : ∀ piece ∈ pieces, Token.Spelling piece.kind piece.text) (hgaps : ∀ piece ∈ pieces, Spacing piece.gap)
    (hbetween : ∀ piece ∈ pieces.tail, piece.gap ≠ []) (hlast : Spacing.AtEnd last) : Legible last pieces := by
  induction pieces with
  | nil => exact .nil hlast
  | cons piece pieces ih =>
    rw [List.forall_mem_cons] at hspelled hgaps
    have htail : ∀ piece ∈ pieces.tail, piece.gap ≠ [] := fun p hp => hbetween p (List.mem_of_mem_tail hp)
    have hnext : ∀ c ∈ (print pieces ++ last).head?, Lexer.isSpace c = true ∨ c = '/' := by
      cases pieces with
      | nil => exact hlast.head
      | cons next pieces =>
        obtain ⟨c, gap, hgap⟩ := List.exists_cons_of_ne_nil (hbetween next List.mem_cons_self)
        have hhead := (hgaps.2 next List.mem_cons_self).head
        rw [hgap] at hhead
        rw [print, List.flatMap_cons, hgap]
        exact hhead
    exact .cons hgaps.1 (hspelled.1.whole fun c hc => Lexer.isBreak_of_spacing (hnext c hc)) (ih hspelled.2 hgaps.2 htail)

/-- Each token takes a character. -/
theorem Legible.length_le {pieces : List Written} {last : List Char} (h : Legible last pieces) :
    pieces.length ≤ (print pieces).length := by
  induction h with
  | nil => exact Nat.le_refl 0
  | cons _ hwhole _ ih =>
    have htext := List.length_pos_iff.2 hwhole.ne_nil
    rw [print, List.flatMap_cons, List.length_append, List.length_append, ← print, List.length_cons]
    omega

/-- The text of tokens that have been read is that of the tokens that were written. -/
theorem print_map (laid : List (List Char × Token)) :
    print (laid.map fun piece => ⟨piece.1, piece.2.kind, piece.2.text.toList⟩) = spelled laid := by
  rw [print, spelled, List.flatMap_map]

end Written

/-- A text in which tokens are legible lexes as these tokens. -/
theorem lex_of_legible {pieces : List Written} {last : List Char} (h : Written.Legible last pieces) :
    ∃ l laid mid cur, lex (String.ofList (Written.print pieces ++ last)) = .ok (laid.map (·.2) ++ [Token.endOf cur], l) ∧
      Laid l (Cursor.start (Written.print pieces ++ last)) laid mid ∧ mid.Spans last cur ∧
      laid.map (fun piece => (⟨piece.1, piece.2.kind, piece.2.text.toList⟩ : Written)) = pieces := by
  have hfuel : pieces.length < (Written.print pieces ++ last).length + 1 := by
    have := h.length_le
    rw [List.length_append]
    omega
  have hregular : (Lexer.mk (Cursor.start (Written.print pieces ++ last)) Lexicon.standard).lexicon.Regular :=
    Lexicon.regular_standard
  obtain ⟨l, laid, mid, cur, hread, -, hlaid, hlast, -, hpieces⟩ := Scan.read_of_legible h hregular rfl hfuel
  refine ⟨l, laid, mid, cur, ?_, hlaid, hlast, hpieces⟩
  rw [lex, Scan.of, Lexer.start, String.toList_ofList]
  dsimp only
  rw [show (Cursor.start (Written.print pieces ++ last)).rest = Written.print pieces ++ last from rfl, hread]

/-- Tokens are read back as they were written, whatever is between them. -/
theorem lex_printed {pieces : List Written} {last : List Char}
    (hspelled : ∀ piece ∈ pieces, Token.Spelling piece.kind piece.text) (hgaps : ∀ piece ∈ pieces, Spacing piece.gap)
    (hbetween : ∀ piece ∈ pieces.tail, piece.gap ≠ []) (hlast : Spacing.AtEnd last) :
    ∃ tokens lexicon,
      lex (String.ofList (Written.print pieces ++ last)) = .ok (tokens ++ [⟨.endOfInput, none, "",
        byteLength (Written.print pieces ++ last), 1 + (Written.print pieces ++ last).count '\n'⟩], lexicon) ∧
      tokens.length = pieces.length ∧
      ∀ before piece after, pieces = before ++ piece :: after →
        ∃ symbol, lexicon.get? symbol = some (String.ofList piece.text) ∧
          tokens[before.length]? = some ⟨piece.kind, some symbol, String.ofList piece.text,
            byteLength (Written.print before ++ piece.gap), 1 + (Written.print before ++ piece.gap).count '\n'⟩ := by
  obtain ⟨l, laid, mid, cur, hlex, hlaid, hlast, hpieces⟩ :=
    lex_of_legible (Written.legible_of_spelling hspelled hgaps hbetween hlast)
  refine ⟨laid.map (·.2), l, ?_, ?_, ?_⟩
  · have hall := hlaid.spans.trans hlast
    have heof : Token.endOf cur = ⟨.endOfInput, none, "", byteLength (Written.print pieces ++ last),
        1 + (Written.print pieces ++ last).count '\n'⟩ := by
      rw [Token.endOf, hall.offset, hall.line, ← Written.print_map, hpieces]
      exact congrArg (Token.mk _ _ _ · _) (Nat.zero_add _)
    rw [hlex, heof]
  · rw [← hpieces, List.length_map, List.length_map]
  · rintro before piece after rfl
    obtain ⟨laidBefore, laidRest, rfl, rfl, hrest⟩ := List.map_eq_append_iff.1 hpieces
    obtain ⟨⟨gap, t⟩, laidAfter, rfl, rfl, -⟩ := List.map_eq_cons_iff.1 hrest
    obtain ⟨at', behind, hspans, -, hstands, -⟩ := hlaid.split
    obtain ⟨symbol, hsymbol, hget⟩ := Option.bind_eq_some_iff.1 hstands.known
    have hposition : t.position = byteLength (spelled laidBefore ++ gap) := by
      rw [hstands.position, hspans.offset]
      exact Nat.zero_add _
    have hline : t.line = 1 + (spelled laidBefore ++ gap).count '\n' := by
      rw [hstands.line, hspans.line]
      rfl
    have hplace : ((laidBefore ++ (gap, t) :: laidAfter).map (·.2))[laidBefore.length]? = some t := by simp
    rw [String.ofList_toList, Written.print_map, List.length_map]
    refine ⟨symbol, hget, ?_⟩
    rw [hplace, ← hposition, ← hline, ← hsymbol]

/-- A reserved word, an identifier, a sign and a numeral, with nothing, a comment of stars alone, a comment up to its newline and a
blank in front of them: what follows the newline is on line 2, behind the two bytes of the accented letter. -/
theorem lex_printed_of_comments :
    ∃ tokens lexicon, lex "if/***/x7//é\n&& 007" = .ok (tokens ++ [⟨.endOfInput, none, "", 20, 2⟩], lexicon) ∧
      tokens.length = 4 ∧
      (∃ symbol, lexicon.get? symbol = some "x7" ∧ tokens[1]? = some ⟨.identifier, some symbol, "x7", 7, 1⟩) ∧
      ∃ symbol, lexicon.get? symbol = some "007" ∧ tokens[3]? = some ⟨.number, some symbol, "007", 17, 2⟩ := by
  obtain ⟨pieces, hpieces⟩ : ∃ pieces : List Written, pieces = [⟨[], .ifWord, ['i', 'f']⟩,
      ⟨['/', '*', '*', '*', '/'], .identifier, ['x', '7']⟩, ⟨['/', '/', 'é', '\n'], .doubleAmpersand, ['&', '&']⟩,
      ⟨[' '], .number, ['0', '0', '7']⟩] := ⟨_, rfl⟩
  have hspelled : ∀ piece ∈ pieces, Token.Spelling piece.kind piece.text := by
    simp only [hpieces, List.forall_mem_cons]
    have hword : ∀ k, ("x7", k) ∉ Kind.keywords := fun k hk =>
      (show "x7" ∉ Kind.keywords.map (·.1) by decide) (List.mem_map_of_mem hk)
    exact ⟨.keyword (show ("if", .ifWord) ∈ Kind.keywords by decide), .identifier rfl (List.all_eq_true.1 rfl) hword,
      .sign (show ("&&", .doubleAmpersand) ∈ Kind.signs by decide), .number rfl (List.all_eq_true.1 rfl), nofun⟩
  have hstars : Spacing ['/', '*', '*', '*', '/'] := .starComment (show ¬ ['*', '/'] <:+: ['*'] by decide) .nil
  have hline : Spacing ['/', '/', 'é', '\n'] := .lineComment (show '\n' ∉ ['é'] by decide) .nil
  have hgaps : ∀ piece ∈ pieces, Spacing piece.gap := by
    simp only [hpieces, List.forall_mem_cons]
    exact ⟨.nil, hstars, hline, .space rfl .nil, nofun⟩
  subst hpieces
  obtain ⟨tokens, lexicon, hlex, hlength, htokens⟩ := lex_printed hspelled hgaps (by decide) (.inl .nil)
  exact ⟨tokens, lexicon, hlex, hlength, htokens [_] _ [_, _] rfl, htokens [_, _, _] _ [] rfl⟩

end GridRobot

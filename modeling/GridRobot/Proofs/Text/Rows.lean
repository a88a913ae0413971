import GridRobot.Text.Lines
import GridRobot.Text.Location
import GridRobot.Text.Words

/-!
# Texts made of rows

A text whose rows end in newlines is cut into these rows, and an offset in a row is on the line of that row. A blank parts the words
in front of it from those behind it (`words_append_blank`), so a row of words with single blanks between them is split into these
words.
-/

namespace GridRobot.Text

/-! ## Words -/

/-- A run of characters that are not blank. -/
structure Solid (w : List Char) : Prop where
  some : w ≠ []
  solid : ∀ c ∈ w, isBlank c = false

namespace Solid

/-- Whether a text is solid can be computed. -/
theorem of_all {w : List Char} (h : (!w.isEmpty && w.all (fun c => !isBlank c)) = true) : Solid w := by
  obtain ⟨hne, hall⟩ := Bool.and_eq_true_iff.1 h
  refine ⟨?_, ?_⟩
  · rintro rfl
    nomatch hne
  · intro c hc
    simpa using List.all_eq_true.1 hall c hc

/-- There is no newline in a word. -/
theorem not_newline {w : List Char} (h : Solid w) : '\n' ∉ w := by
  intro hmem
  nomatch h.solid _ hmem

theorem cons {c : Char} {w : List Char} (h : Solid (c :: w)) : isBlank c = false ∧ (w = [] ∨ Solid w) := by
  refine ⟨h.solid c List.mem_cons_self, ?_⟩
  by_cases hw : w = []
  · exact .inl hw
  · exact .inr ⟨hw, fun d hd => h.solid d (List.mem_cons_of_mem _ hd)⟩

end Solid

theorem le_start_of_mem_consWord {c : Char} {start : Nat} {ws : List Word} (h : ∀ w ∈ ws, start ≤ w.start) :
    ∀ w ∈ consWord c start ws, start ≤ w.start := by
  unfold consWord
  split
  · intro w hw
    obtain rfl := List.mem_singleton.1 hw
    exact Nat.le_refl _
  · rename_i v vs
    split
    · intro w hw
      rcases List.mem_cons.1 hw with rfl | hw
      · exact Nat.le_refl _
      · exact h w (List.mem_cons_of_mem _ hw)
    · intro w hw
      rcases List.mem_cons.1 hw with rfl | hw
      · exact Nat.le_refl _
      · exact h w hw

/-- The words of a text begin in it. -/
theorem le_start_of_mem_words {text : List Char} {start : Nat} : ∀ w ∈ words text start, start ≤ w.start := by
  induction text generalizing start with
  | nil => exact nofun
  | cons c rest ih =>
    have hrest : ∀ w ∈ words rest (start + c.utf8Size), start ≤ w.start :=
      fun w hw => Nat.le_trans (Nat.le_add_right _ _) (ih w hw)
    rw [words]
    split
    · exact hrest
    · exact le_start_of_mem_consWord hrest

/-- A character that words do not follow at once is a word of its own. -/
theorem consWord_of_lt {c : Char} {start : Nat} {ws : List Word} (h : ∀ w ∈ ws, start + c.utf8Size < w.start) :
    consWord c start ws = ⟨start, [c]⟩ :: ws := by
  cases ws with
  | nil => rfl
  | cons w ws => rw [consWord, if_neg (Nat.ne_of_gt (h w List.mem_cons_self))]

/-- A solid text is one word. -/
theorem words_solid {w : List Char} (h : Solid w) (start : Nat) : words w start = [⟨start, w⟩] := by
  induction w generalizing start with
  | nil => exact absurd rfl h.some
  | cons c rest ih =>
    obtain ⟨hc, hrest⟩ := h.cons
    rw [words, hc, if_neg Bool.false_ne_true]
    rcases hrest with rfl | hrest
    · rfl
    · rw [ih hrest, consWord, if_pos rfl]

/-- Words further on stay as they are if a character is put in front of all. -/
theorem consWord_append {c : Char} {start : Nat} {vs : List Word} (ws : List Word)
    (h : ∀ w ∈ vs, start + c.utf8Size < w.start) : consWord c start (ws ++ vs) = consWord c start ws ++ vs := by
  cases ws with
  | nil => exact consWord_of_lt h
  | cons w ws =>
    simp only [List.cons_append, consWord]
    split <;> rfl

/-- A blank parts the words in front of it from those behind it. -/
theorem words_append_blank {c : Char} (hc : isBlank c = true) (s t : List Char) (start : Nat) :
    words (s ++ c :: t) start = words s start ++ words t (start + byteLength s + c.utf8Size) := by
  induction s generalizing start with
  | nil =>
    have hblank : words (c :: t) start = words t (start + c.utf8Size) := if_pos hc
    exact hblank
  | cons d s ih =>
    rw [List.cons_append, words, words, ih, byteLength_cons, Nat.add_assoc start]
    split
    · rfl
    · refine consWord_append _ fun w hw => ?_
      have hw := le_start_of_mem_words w hw
      have hpos := c.utf8Size_pos
      omega

/-- A solid text in front of a blank is the first word. -/
theorem words_solid_append {w : List Char} (h : Solid w) (rest : List Char) (start : Nat) :
    words (w ++ ' ' :: rest) start = ⟨start, w⟩ :: words rest (start + byteLength w + 1) := by
  rw [words_append_blank rfl, words_solid h]
  rfl

/-- What holds of the empty text and of solid texts, and of two texts with a blank between them if it holds of both, holds of every
text. -/
theorem induction_on_blanks {motive : List Char → Prop} (empty : motive []) (solid : ∀ w, Solid w → motive w)
    (parted : ∀ s c t, isBlank c = true → motive s → motive t → motive (s ++ c :: t)) (text : List Char) :
    motive text := by
  have hunbroken : ∀ s, (∀ c ∈ s, isBlank c = false) → motive s := by
    intro s hs
    by_cases hne : s = []
    · exact hne ▸ empty
    · exact solid s ⟨hne, hs⟩
  -- the induction is on what is behind a part of the text without blanks
  have hbehind : ∀ s, (∀ c ∈ s, isBlank c = false) → motive (s ++ text) := by
    induction text with
    | nil =>
      intro s hs
      rw [List.append_nil]
      exact hunbroken s hs
    | cons c text ih =>
      intro s hs
      by_cases hc : isBlank c = true
      · exact parted s c text hc (hunbroken s hs) (ih [] (List.forall_mem_nil _))
      · rw [List.append_cons]
        refine ih (s ++ [c]) (List.forall_mem_append.2 ⟨hs, ?_⟩)
        exact List.forall_mem_singleton.2 (eq_false_of_ne_true hc)
  exact hbehind [] (List.forall_mem_nil _)

/-- Solid texts with single blanks between them are the words of the whole. -/
theorem map_text_words_intercalate {ws : List (List Char)} (h : ∀ w ∈ ws, Solid w) (start : Nat) :
    (words ([' '].intercalate ws) start).map Word.text = ws := by
  induction ws generalizing start with
  | nil => rfl
  | cons w ws ih =>
    obtain ⟨hw, hws⟩ := List.forall_mem_cons.1 h
    cases ws with
    | nil => rw [List.intercalate_singleton, words_solid hw, List.map_singleton]
    | cons v ws =>
      rw [List.intercalate_cons_cons, List.append_assoc, List.singleton_append, words_solid_append hw, List.map_cons,
        ih hws]

/-! ## Trimmed texts -/

/-- A text that neither begins nor ends with a blank. -/
structure Tight (text : List Char) : Prop where
  first : ∃ c rest, text = c :: rest ∧ isBlank c = false
  last : ∃ front c, text = front ++ [c] ∧ isBlank c = false

/-- A word is not trimmed. -/
theorem Solid.tight {w : List Char} (h : Solid w) : Tight w where
  first := by
    obtain ⟨c, rest, rfl⟩ := List.exists_cons_of_ne_nil h.some
    exact ⟨c, rest, rfl, h.solid c List.mem_cons_self⟩
  last := ⟨w.dropLast, w.getLast h.some, (List.dropLast_concat_getLast h.some).symm, h.solid _ (List.getLast_mem h.some)⟩

namespace Tight

variable {s t : List Char}

/-- Two tight texts with a blank between them are tight. -/
theorem append (hs : Tight s) (ht : Tight t) : Tight (s ++ ' ' :: t) where
  first := by
    obtain ⟨c, rest, rfl, hc⟩ := hs.first
    exact ⟨c, rest ++ ' ' :: t, rfl, hc⟩
  last := by
    obtain ⟨front, c, rfl, hc⟩ := ht.last
    exact ⟨s ++ ' ' :: front, c, by simp, hc⟩

/-- Solid texts with single blanks between them make a tight one. -/
theorem intercalate {w : List Char} {ws : List (List Char)} (h : ∀ v ∈ w :: ws, Solid v) :
    Tight ([' '].intercalate (w :: ws)) := by
  induction ws generalizing w with
  | nil =>
    rw [List.intercalate_singleton]
    exact (h w List.mem_cons_self).tight
  | cons v ws ih =>
    obtain ⟨hw, hws⟩ := List.forall_mem_cons.1 h
    rw [List.intercalate_cons_cons, List.append_assoc, List.singleton_append]
    exact hw.tight.append (ih hws)

/-- A tight text is not trimmed. -/
theorem trim_eq (h : Tight s) : trim s = s := by
  have hstart : trimStart s = s := by
    obtain ⟨c, rest, rfl, hc⟩ := h.first
    exact List.dropWhile_cons_of_neg (by rw [hc]; exact Bool.false_ne_true)
  obtain ⟨front, c, rfl, hc⟩ := h.last
  rw [trim, hstart, trimEnd, List.reverse_append, List.reverse_singleton, List.singleton_append,
    List.dropWhile_cons_of_neg (by rw [hc]; exact Bool.false_ne_true), List.reverse_cons, List.reverse_reverse]

/-- No carriage return is taken from its end. -/
theorem dropReturn_eq (h : Tight s) : dropReturn s = s := by
  obtain ⟨front, c, rfl, hc⟩ := h.last
  unfold dropReturn
  rw [if_neg]
  rw [List.getLast?_concat]
  intro heq
  obtain rfl := Option.some.inj heq
  nomatch hc

end Tight

/-! ## Rows -/

/-- Rows with a newline behind each. -/
def joinRows (rows : List (List Char)) : List Char := rows.flatMap (· ++ ['\n'])

theorem toList_join_rows (rows : List String) :
    (String.join (rows.map (· ++ "\n"))).toList = joinRows (rows.map String.toList) := by
  rw [String.toList_join, joinRows, List.flatMap_map, List.flatMap_map]
  congr 1
  funext row
  exact String.toList_append

theorem joinRows_append (rows others : List (List Char)) : joinRows (rows ++ others) = joinRows rows ++ joinRows others :=
  List.flatMap_append

theorem joinRows_cons (row : List Char) (rows : List (List Char)) :
    joinRows (row :: rows) = row ++ '\n' :: joinRows rows := by
  simp [joinRows]

/-- A newline between two texts parts their pieces. -/
theorem pieces_append (s t : List Char) : pieces (s ++ '\n' :: t) = pieces s ++ pieces t := by
  induction s with
  | nil => simp [pieces]
  | cons c s ih =>
    rw [List.cons_append, pieces, ih]
    obtain ⟨first, others, hs⟩ := List.exists_cons_of_ne_nil (pieces_ne_nil s)
    by_cases hc : c = '\n'
    · rw [if_pos hc, pieces, if_pos hc, List.cons_append]
    · rw [if_neg hc, pieces, if_neg hc, hs]
      rfl

/-- A text without newlines goes on with the first piece of what is behind it. -/
theorem pieces_append_of_not_mem {front : List Char} (h : '\n' ∉ front) (back : List Char) :
    ∃ first others, pieces back = first :: others ∧ pieces (front ++ back) = (front ++ first) :: others := by
  induction front with
  | nil =>
    obtain ⟨first, others, hback⟩ := List.exists_cons_of_ne_nil (pieces_ne_nil back)
    exact ⟨first, others, hback, hback⟩
  | cons c front ih =>
    obtain ⟨hc, hfront⟩ := not_or.1 (mt List.mem_cons.2 h)
    obtain ⟨first, others, hback, hpieces⟩ := ih hfront
    refine ⟨first, others, hback, ?_⟩
    rw [List.cons_append, pieces, if_neg (Ne.symm hc), hpieces]
    rfl

/-- A row with a newline behind it is the first piece. -/
theorem pieces_append_newline {row : List Char} (h : '\n' ∉ row) (rest : List Char) :
    pieces (row ++ '\n' :: rest) = row :: pieces rest := by
  obtain ⟨first, others, hnil, hrow⟩ := pieces_append_of_not_mem h []
  obtain ⟨rfl, rfl⟩ := List.cons.inj hnil
  rw [List.append_nil] at hrow
  rw [pieces_append, hrow]
  rfl

/-- Rows are the first pieces of a text that begins with them. -/
theorem pieces_joinRows_append {rows : List (List Char)} (h : ∀ row ∈ rows, '\n' ∉ row) (text : List Char) :
    pieces (joinRows rows ++ text) = rows ++ pieces text := by
  induction rows with
  | nil => rfl
  | cons row rows ih =>
    obtain ⟨hrow, hrows⟩ := List.forall_mem_cons.1 h
    rw [joinRows_cons, List.append_assoc, List.cons_append, pieces_append_newline hrow, ih hrows, List.cons_append]

/-- A text of rows has these rows as its pieces, and an empty one behind them. -/
theorem pieces_joinRows {rows : List (List Char)} (h : ∀ row ∈ rows, '\n' ∉ row) :
    pieces (joinRows rows) = rows ++ [[]] := by
  have htext := pieces_joinRows_append h []
  rwa [List.append_nil] at htext

/-- The rows of the pieces of a text are the text with a newline behind it. -/
theorem joinRows_pieces (text : List Char) : joinRows (pieces text) = text ++ ['\n'] := by
  induction text with
  | nil => rfl
  | cons c text ih =>
    rw [pieces]
    obtain ⟨first, others, htext⟩ := List.exists_cons_of_ne_nil (pieces_ne_nil text)
    by_cases hc : c = '\n'
    · rw [if_pos hc, joinRows_cons, ih, hc]
      rfl
    · rw [htext, joinRows_cons] at ih
      rw [if_neg hc, htext, joinRows_cons, List.cons_append, ih]
      rfl

/-- A text has one more piece than newlines. -/
theorem length_pieces (text : List Char) : (pieces text).length = text.count '\n' + 1 := by
  induction text with
  | nil => rfl
  | cons c text ih =>
    rw [pieces]
    by_cases hc : c = '\n'
    · rw [if_pos hc, hc, List.count_cons_self, List.length_cons, ih]
    · obtain ⟨first, others, htext⟩ := List.exists_cons_of_ne_nil (pieces_ne_nil text)
      rw [htext, List.length_cons] at ih
      rw [if_neg hc, htext, List.length_cons, List.count_cons_of_ne hc, ih]

/-- Rows have as many newlines as there are rows. -/
theorem count_newline_joinRows {rows : List (List Char)} (h : ∀ row ∈ rows, '\n' ∉ row) :
    (joinRows rows).count '\n' = rows.length := by
  induction rows with
  | nil => rfl
  | cons row rows ih =>
    obtain ⟨hrow, hrows⟩ := List.forall_mem_cons.1 h
    rw [joinRows_cons, List.count_append, List.count_cons_self, List.count_eq_zero_of_not_mem hrow, ih hrows,
      List.length_cons, Nat.zero_add]

theorem not_newline_intercalate {ws : List (List Char)} (h : ∀ w ∈ ws, Solid w) : '\n' ∉ [' '].intercalate ws := by
  induction ws with
  | nil => exact List.not_mem_nil
  | cons w ws ih =>
    obtain ⟨hw, hws⟩ := List.forall_mem_cons.1 h
    cases ws with
    | nil =>
      rw [List.intercalate_singleton]
      exact hw.not_newline
    | cons v ws =>
      rw [List.intercalate_cons_cons]
      simp [hw.not_newline, ih hws]

/-- A text of tight rows has these rows as its lines. -/
theorem lines_joinRows {rows : List (List Char)} (h : ∀ row ∈ rows, Tight row ∧ '\n' ∉ row) :
    lines (joinRows rows) = rows := by
  rw [lines, pieces_joinRows (fun row hrow => (h row hrow).2)]
  induction rows with
  | nil => rfl
  | cons row rows ih =>
    obtain ⟨hrow, hrows⟩ := List.forall_mem_cons.1 h
    cases rows with
    | nil => rw [List.singleton_append, linesOfPieces, hrow.1.dropReturn_eq]; rfl
    | cons next rows =>
      rw [List.cons_append, List.cons_append, linesOfPieces, hrow.1.dropReturn_eq]
      exact congrArg (row :: ·) (ih hrows)

/-! ## Lines of offsets -/

namespace Location

/-- The line is counted up by the newlines that are passed. -/
theorem line_afterAll (l : Location) (text : List Char) : (l.afterAll text).line = l.line + text.count '\n' := by
  induction text generalizing l with
  | nil => rfl
  | cons c rest ih =>
    rw [afterAll, List.foldl_cons]
    refine (ih (l.after c)).trans ?_
    unfold after
    split
    · rename_i hc
      rw [hc, List.count_cons_self]
      change l.line + 1 + rest.count '\n' = _
      omega
    · rename_i hc
      rw [List.count_cons_of_ne hc]

/-- Going on by the bytes of a text is going on behind all of its characters. -/
theorem advance?_append (l : Location) (before rest : List Char) :
    advance? l (before ++ rest) (byteLength before) = some (l.afterAll before) := by
  induction before generalizing l with
  | nil => cases rest <;> rfl
  | cons c before ih =>
    obtain ⟨n, hn⟩ : ∃ n, c.utf8Size = n + 1 := ⟨c.utf8Size - 1, by have := c.utf8Size_pos; omega⟩
    have hbytes : byteLength (c :: before) = n + byteLength before + 1 := by
      rw [byteLength_cons, hn]
      omega
    rw [hbytes, List.cons_append, advance?, if_pos (by omega)]
    have hrest : n + byteLength before + 1 - c.utf8Size = byteLength before := by omega
    rw [hrest]
    exact ih (l.after c)

/-- The line of an offset is the number of newlines in front of it, counted from one. -/
theorem line_ofOffset (before rest : List Char) :
    (ofOffset (before ++ rest) (byteLength before)).line = before.count '\n' + 1 := by
  rw [ofOffset, advance?_append, Option.getD_some, line_afterAll]
  exact Nat.add_comm _ _

end Location

end GridRobot.Text

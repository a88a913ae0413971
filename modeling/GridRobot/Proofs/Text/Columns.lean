import GridRobot.Proofs.Text.Places

/-!
# Lines and columns

The line and the column of a byte offset lead back to it: from the beginning of the line over so many of its characters. So they are
different for different offsets at which characters begin, and in the same order (`location_determines_offset`).
-/

namespace GridRobot.Text

/-! ## What is in front of an offset -/

/-- A text is rows and, behind them, the beginning of a row. -/
theorem exists_rows (text : List Char) :
    ∃ rows front, text = joinRows rows ++ front ∧ (∀ row ∈ rows, '\n' ∉ row) ∧ '\n' ∉ front := by
  induction text with
  | nil => exact ⟨[], [], rfl, nofun, List.not_mem_nil⟩
  | cons c text ih =>
    obtain ⟨rows, front, rfl, hrows, hfront⟩ := ih
    by_cases hc : c = '\n'
    · subst hc
      exact ⟨[] :: rows, front, by rw [joinRows_cons]; rfl, List.forall_mem_cons.2 ⟨List.not_mem_nil, hrows⟩, hfront⟩
    · have hcons : ∀ {row : List Char}, '\n' ∉ row → '\n' ∉ c :: row := by
        intro row hrow hmem
        rcases List.mem_cons.1 hmem with heq | hmem
        · exact hc heq.symm
        · exact hrow hmem
      cases rows with
      | nil => exact ⟨[], c :: front, rfl, nofun, hcons hfront⟩
      | cons row rows =>
        obtain ⟨hrow, hrows⟩ := List.forall_mem_cons.1 hrows
        refine ⟨(c :: row) :: rows, front, ?_, List.forall_mem_cons.2 ⟨hcons hrow, hrows⟩, hfront⟩
        rw [joinRows_cons, joinRows_cons]
        rfl

namespace Location

/-! ## Order -/

/-- Locations are in the order of their lines, and on one line in that of their columns. -/
instance : LT Location := ⟨fun l l' => l.line < l'.line ∨ l.line = l'.line ∧ l.column < l'.column⟩

theorem lt_iff {l l' : Location} : l < l' ↔ l.line < l'.line ∨ l.line = l'.line ∧ l.column < l'.column := Iff.rfl

/-- A place in front of another is another. -/
theorem ne_of_lt {l l' : Location} (h : l < l') : l ≠ l' := by
  rintro rfl
  rcases lt_iff.1 h with hline | ⟨-, hcolumn⟩
  · exact Nat.lt_irrefl _ hline
  · exact Nat.lt_irrefl _ hcolumn

/-- Every character leads further on. -/
theorem lt_after (l : Location) (c : Char) : l < l.after c := by
  rw [lt_iff, after]
  split
  · exact .inl (Nat.lt_succ_self _)
  · exact .inr ⟨rfl, Nat.lt_succ_self _⟩

/-- Every character leads further on. -/
theorem lt_afterAll {l l' : Location} {text : List Char} (h : l' < l ∨ l' = l ∧ text ≠ []) : l' < l.afterAll text := by
  induction text generalizing l with
  | nil => exact h.resolve_right fun ⟨_, hne⟩ => hne rfl
  | cons c text ih =>
    refine ih (l := l.after c) (.inl ?_)
    have hstep := lt_iff.1 (l.lt_after c)
    rcases h with h | ⟨rfl, -⟩
    · have hlt := lt_iff.1 h
      rw [lt_iff]
      omega
    · exact hstep

/-! ## The location of an offset -/

theorem afterAll_append (l : Location) (s t : List Char) : l.afterAll (s ++ t) = (l.afterAll s).afterAll t :=
  List.foldl_append

/-- The location of an offset is the one that what is in front of it leads to. -/
theorem ofOffset_append (before after : List Char) :
    ofOffset (before ++ after) (byteLength before) = start.afterAll before := by
  rw [ofOffset, advance?_append, Option.getD_some]

/-- Characters of one line lead from column to column. -/
theorem afterAll_of_not_mem (l : Location) {front : List Char} (h : '\n' ∉ front) :
    l.afterAll front = ⟨l.line, l.column + front.length⟩ := by
  induction front generalizing l with
  | nil => rfl
  | cons c front ih =>
    obtain ⟨hc, hfront⟩ := not_or.1 (mt List.mem_cons.2 h)
    have hafter : l.after c = ⟨l.line, l.column + 1⟩ := if_neg (Ne.symm hc)
    calc l.afterAll (c :: front) = (l.after c).afterAll front := rfl
      _ = ⟨l.line, l.column + 1 + front.length⟩ := by rw [hafter, ih _ hfront]
      _ = ⟨l.line, l.column + (c :: front).length⟩ := by rw [List.length_cons, Nat.add_assoc, Nat.add_comm 1]

/-- Rows lead to the beginning of the line behind them. -/
theorem afterAll_joinRows {rows : List (List Char)} (h : ∀ row ∈ rows, '\n' ∉ row) (line : Nat) :
    afterAll ⟨line, 1⟩ (joinRows rows) = ⟨line + rows.length, 1⟩ := by
  induction rows generalizing line with
  | nil => rfl
  | cons row rows ih =>
    obtain ⟨hrow, hrows⟩ := List.forall_mem_cons.1 h
    calc afterAll ⟨line, 1⟩ (joinRows (row :: rows))
        = ((afterAll ⟨line, 1⟩ row).after '\n').afterAll (joinRows rows) := by rw [joinRows_cons, afterAll_append]; rfl
      _ = afterAll ⟨line + 1, 1⟩ (joinRows rows) := by rw [afterAll_of_not_mem _ hrow]; rfl
      _ = ⟨line + (row :: rows).length, 1⟩ := by rw [ih hrows, List.length_cons, Nat.add_assoc, Nat.add_comm 1]

/-- Behind rows and a part of the next one, line and column count the rows and the characters. -/
theorem ofOffset_rows {rows : List (List Char)} {front : List Char} (hrows : ∀ row ∈ rows, '\n' ∉ row)
    (hfront : '\n' ∉ front) (after : List Char) :
    ofOffset (joinRows rows ++ front ++ after) (byteLength (joinRows rows ++ front)) =
      ⟨rows.length + 1, front.length + 1⟩ := by
  rw [ofOffset_append, afterAll_append, start, afterAll_joinRows hrows, afterAll_of_not_mem _ hfront]
  simp only [Nat.add_comm]

/-- An offset behind the end of a text is at its end. -/
theorem getD_advance?_of_ge (l : Location) {text : List Char} {offset : Nat} (h : byteLength text ≤ offset) :
    (advance? l text offset).getD (l.afterAll text) = l.afterAll text := by
  induction text generalizing l offset with
  | nil => cases offset <;> rfl
  | cons c rest ih =>
    rw [byteLength_cons] at h
    have hpos := c.utf8Size_pos
    obtain ⟨bytes, rfl⟩ : ∃ bytes, offset = bytes + 1 := ⟨offset - 1, by omega⟩
    rw [advance?, if_pos (by omega)]
    exact ih (l.after c) (by omega)

/-- An offset behind the end of a text is taken for the end. -/
theorem ofOffset_of_ge {text : List Char} {offset : Nat} (h : byteLength text ≤ offset) :
    ofOffset text offset = start.afterAll text :=
  getD_advance?_of_ge start h

/-! ## Back from the location -/

/-- An offset is reached by going to the beginning of the line of a location and on over as many characters of this line as there are
columns in front of that of the location. -/
structure Reaches (l : Location) (text : List Char) (offset : Nat) : Prop where
  line_pos : 0 < l.line
  column_pos : 0 < l.column
  reached : ∃ line, (pieces text)[l.line - 1]? = some line ∧ l.column - 1 ≤ line.length ∧
    '\n' ∉ line.take (l.column - 1) ∧
    offset = byteLength (joinRows ((pieces text).take (l.line - 1))) + byteLength (line.take (l.column - 1))

/-- The location of an offset leads back to it, whatever follows there. -/
theorem reaches_ofOffset (before after : List Char) :
    (ofOffset (before ++ after) (byteLength before)).Reaches (before ++ after) (byteLength before) := by
  obtain ⟨rows, front, rfl, hrows, hfront⟩ := exists_rows before
  obtain ⟨first, others, -, hpieces⟩ := pieces_append_of_not_mem hfront after
  have hall : pieces (joinRows rows ++ front ++ after) = rows ++ (front ++ first) :: others := by
    rw [List.append_assoc, pieces_joinRows_append hrows, hpieces]
  rw [ofOffset_rows hrows hfront]
  refine ⟨Nat.succ_pos _, Nat.succ_pos _, front ++ first, ?_, ?_, ?_, ?_⟩
  · rw [hall, Nat.add_sub_cancel, List.getElem?_append_right (Nat.le_refl _), Nat.sub_self]
    rfl
  · rw [Nat.add_sub_cancel, List.length_append]
    exact Nat.le_add_right _ _
  · rwa [Nat.add_sub_cancel, List.take_left]
  · rw [hall, Nat.add_sub_cancel, Nat.add_sub_cancel, List.take_left, List.take_left, byteLength_append]

end Location

/-! ## Boundaries -/

/-- Of two boundaries of a text the further one has more of the text in front of it. -/
theorem exists_between {source : String} {p q : Nat} (hp : OnBoundary source p) (hq : OnBoundary source q) (hlt : p < q) :
    ∃ before between after, source.toList = before ++ between ++ after ∧ between ≠ [] ∧ p = byteLength before ∧
      q = byteLength (before ++ between) := by
  obtain ⟨before, rest, hsource, rfl⟩ := onBoundary_iff.1 hp
  obtain ⟨before', after, hsource', rfl⟩ := onBoundary_iff.1 hq
  have hprefix : before <+: before' ∨ before' <+: before :=
    List.prefix_or_prefix_of_prefix ⟨rest, hsource.symm⟩ ⟨after, hsource'.symm⟩
  rcases hprefix with ⟨between, rfl⟩ | ⟨between, rfl⟩
  · refine ⟨before, between, after, hsource', ?_, rfl, rfl⟩
    rintro rfl
    rw [List.append_nil] at hlt
    exact Nat.lt_irrefl _ hlt
  · rw [byteLength_append] at hlt
    omega

/-- Of two boundaries the further one has the further location. -/
theorem ofOffset_lt_ofOffset {source : String} {p q : Nat} (hp : OnBoundary source p) (hq : OnBoundary source q)
    (hlt : p < q) : Location.ofOffset source.toList p < Location.ofOffset source.toList q := by
  obtain ⟨before, between, after, hsource, hne, rfl, rfl⟩ := exists_between hp hq hlt
  rw [hsource, Location.ofOffset_append, List.append_assoc, Location.ofOffset_append, Location.afterAll_append]
  exact Location.lt_afterAll (.inr ⟨rfl, hne⟩)

/-- Line and column determine the position. At a boundary of the text the line is the number of newlines in front, counted from one,
and the position is reached from the beginning of this line over as many of its characters as the column says, none of which is a
newline. Of two boundaries the further one has the further location, so different boundaries have different ones. A position behind
the end of the text has the location of the end. -/
theorem location_determines_offset (source : String) :
    (∀ p, OnBoundary source p →
        (Location.ofOffset source.toList p).Reaches source.toList p ∧
          ∃ before after, source.toList = before ++ after ∧ p = byteLength before ∧
            (Location.ofOffset source.toList p).line - 1 = before.count '\n') ∧
      (∀ p q, OnBoundary source p → OnBoundary source q → p < q →
        Location.ofOffset source.toList p < Location.ofOffset source.toList q) ∧
      (∀ p q, OnBoundary source p → OnBoundary source q →
        Location.ofOffset source.toList p = Location.ofOffset source.toList q → p = q) ∧
      ∀ p, source.utf8ByteSize ≤ p →
        Location.ofOffset source.toList p = Location.ofOffset source.toList source.utf8ByteSize := by
  refine ⟨?_, fun p q => ofOffset_lt_ofOffset, ?_, ?_⟩
  · intro p hp
    obtain ⟨before, after, hsource, rfl⟩ := onBoundary_iff.1 hp
    rw [hsource]
    refine ⟨Location.reaches_ofOffset before after, before, after, rfl, rfl, ?_⟩
    rw [Location.line_ofOffset, Nat.add_sub_cancel]
  · intro p q hp hq heq
    rcases Nat.lt_trichotomy p q with hlt | rfl | hgt
    · exact absurd heq (Location.ne_of_lt (ofOffset_lt_ofOffset hp hq hlt))
    · rfl
    · exact absurd heq.symm (Location.ne_of_lt (ofOffset_lt_ofOffset hq hp hgt))
  · intro p hp
    have hend : byteLength source.toList ≤ source.utf8ByteSize := Nat.le_of_eq (utf8ByteSize_eq source).symm
    rw [Location.ofOffset_of_ge (Nat.le_trans hend hp), Location.ofOffset_of_ge hend]

/-- In front of a newline the line ends, behind it the next one begins. The first character has two bytes. -/
example : Location.ofOffset ['é', '\n', 'a'] 2 = ⟨1, 2⟩ ∧ Location.ofOffset ['é', '\n', 'a'] 3 = ⟨2, 1⟩ := by decide

end GridRobot.Text

import Mathlib.Data.String.Basic
import GridRobot.Proofs.Text.Rows

/-!
# Places in a text

A byte offset at which a character begins or the text ends, and what of a text lies in front of it: the rows before, and the part of
its own row. Words are parts of the text they are split from.
-/

namespace GridRobot.Text

/-- The size of a string in bytes is that of its characters. -/
theorem utf8ByteSize_eq (s : String) : s.utf8ByteSize = byteLength s.toList := by
  have hlist : ∀ text : List Char, String.utf8Len text = byteLength text := by
    intro text
    induction text with
    | nil => rfl
    | cons c rest ih => rw [String.utf8Len_cons, ih, byteLength_cons, Nat.add_comm]
  rw [← hlist, ← String.utf8ByteSize_ofList, String.ofList_toList]

theorem byteLength_pos {text : List Char} (h : text ≠ []) : 0 < byteLength text := by
  obtain ⟨c, rest, rfl⟩ := List.exists_cons_of_ne_nil h
  exact Nat.add_pos_left c.utf8Size_pos _

/-! ## Boundaries -/

/-- A byte offset in a text, where one of its characters begins or the text ends. -/
structure OnBoundary (source : String) (offset : Nat) : Prop where
  le : offset ≤ source.utf8ByteSize
  valid : String.Pos.Raw.IsValid source ⟨offset⟩

/-- The boundaries are the ends of what a text can begin with. -/
theorem onBoundary_iff {source : String} {offset : Nat} :
    OnBoundary source offset ↔ ∃ before after, source.toList = before ++ after ∧ offset = byteLength before := by
  constructor
  · rintro ⟨-, hvalid⟩
    obtain ⟨s, t, rfl, hoffset⟩ := String.Pos.Raw.isValid_iff_exists_append.1 hvalid
    refine ⟨s.toList, t.toList, String.toList_append, ?_⟩
    rw [← utf8ByteSize_eq]
    exact congrArg String.Pos.Raw.byteIdx hoffset
  · rintro ⟨before, after, hsource, rfl⟩
    have hbytes : byteLength before = (String.ofList before).utf8ByteSize := by rw [utf8ByteSize_eq, String.toList_ofList]
    have hsplit : source = String.ofList before ++ String.ofList after := by
      rw [← String.ofList_append, ← hsource, String.ofList_toList]
    refine ⟨?_, String.Pos.Raw.isValid_iff_exists_append.2 ⟨_, _, hsplit, ?_⟩⟩
    · rw [utf8ByteSize_eq, hsource, byteLength_append]
      exact Nat.le_add_right _ _
    · rw [hbytes]
      rfl

/-! ## Rows -/

/-- The first piece of a text is the text up to a newline, or all of it. -/
theorem pieces_eq_cons {text line : List Char} {after : List (List Char)} (h : pieces text = line :: after) :
    '\n' ∉ line ∧ (text = line ∧ after = [] ∨ ∃ rest, text = line ++ '\n' :: rest ∧ pieces rest = after) := by
  induction text generalizing line after with
  | nil =>
    obtain ⟨rfl, rfl⟩ := List.cons.inj h
    exact ⟨List.not_mem_nil, .inl ⟨rfl, rfl⟩⟩
  | cons c text ih =>
    rw [pieces] at h
    split at h
    · rename_i hc
      obtain ⟨rfl, rfl⟩ := List.cons.inj h
      exact ⟨List.not_mem_nil, .inr ⟨text, by rw [hc]; rfl, rfl⟩⟩
    · rename_i hc
      split at h
      · rename_i hnil
        exact absurd hnil (pieces_ne_nil text)
      · rename_i first others hpieces
        obtain ⟨rfl, rfl⟩ := List.cons.inj h
        obtain ⟨hfirst, hrest⟩ := ih hpieces
        refine ⟨?_, ?_⟩
        · simp [hfirst, Ne.symm hc]
        · rcases hrest with ⟨rfl, rfl⟩ | ⟨rest, rfl, hrest⟩
          · exact .inl ⟨rfl, rfl⟩
          · exact .inr ⟨rest, rfl, hrest⟩

/-- A piece of a text lies behind the rows of those in front of it, none of which has a newline in it. -/
theorem pieces_eq_append {text : List Char} {before : List (List Char)} {line : List Char} {after : List (List Char)}
    (h : pieces text = before ++ line :: after) :
    (∃ rest, text = joinRows before ++ (line ++ rest)) ∧ '\n' ∉ line ∧ ∀ row ∈ before, '\n' ∉ row := by
  induction before generalizing text with
  | nil =>
    obtain ⟨hline, ⟨rfl, -⟩ | ⟨rest, rfl, -⟩⟩ := pieces_eq_cons h
    · exact ⟨⟨[], (List.append_nil _).symm⟩, hline, nofun⟩
    · exact ⟨⟨_, rfl⟩, hline, nofun⟩
  | cons row before ih =>
    obtain ⟨hrow, ⟨-, hnil⟩ | ⟨rest, rfl, hrest⟩⟩ := pieces_eq_cons h
    · nomatch List.append_eq_nil_iff.1 hnil
    · obtain ⟨⟨more, rfl⟩, hline, hbefore⟩ := ih hrest
      refine ⟨⟨more, ?_⟩, hline, List.forall_mem_cons.2 ⟨hrow, hbefore⟩⟩
      rw [joinRows_cons, List.append_assoc, List.cons_append]

/-- An offset in a piece of a text is a boundary, on the line with the number of the piece. -/
theorem place_of_pieces {source : String} {before : List (List Char)} {front back : List Char} {after : List (List Char)}
    (h : pieces source.toList = before ++ (front ++ back) :: after) :
    OnBoundary source (byteLength (joinRows before) + byteLength front) ∧
      (Location.ofOffset source.toList (byteLength (joinRows before) + byteLength front)).line = before.length + 1 := by
  obtain ⟨⟨rest, hsource⟩, hline, hbefore⟩ := pieces_eq_append h
  have hsplit : source.toList = (joinRows before ++ front) ++ (back ++ rest) := by
    rw [hsource]
    simp only [List.append_assoc]
  have hfront : '\n' ∉ front := fun hmem => hline (List.mem_append_left back hmem)
  rw [← byteLength_append]
  refine ⟨onBoundary_iff.2 ⟨_, _, hsplit, rfl⟩, ?_⟩
  rw [hsplit, Location.line_ofOffset, List.count_append, count_newline_joinRows hbefore, List.count_eq_zero.2 hfront]

/-! ## Words -/

/-- A piece of a text stands at an offset, if the text begins at another. -/
def StandsIn (text : List Char) (start : Nat) (piece : List Char) (offset : Nat) : Prop :=
  ∃ front back, text = front ++ (piece ++ back) ∧ offset = start + byteLength front

namespace StandsIn

variable {s t piece : List Char} {start offset : Nat}

/-- A piece stands where it stands when a text is added behind. -/
theorem append_right (h : StandsIn s start piece offset) (t : List Char) : StandsIn (s ++ t) start piece offset := by
  obtain ⟨front, back, rfl, rfl⟩ := h
  exact ⟨front, back ++ t, by simp only [List.append_assoc], rfl⟩

/-- A piece stands further on when a text is added in front. -/
theorem append_left (h : StandsIn t (start + byteLength s) piece offset) : StandsIn (s ++ t) start piece offset := by
  obtain ⟨front, back, rfl, rfl⟩ := h
  exact ⟨s ++ front, back, (List.append_assoc ..).symm, by rw [byteLength_append, Nat.add_assoc]⟩

end StandsIn

/-- A word stands where it says. -/
theorem standsIn_of_mem_words {text : List Char} {start : Nat} : ∀ w ∈ words text start, StandsIn text start w.text w.start := by
  induction text using induction_on_blanks generalizing start with
  | empty => exact nofun
  | solid s hs =>
    rw [words_solid hs]
    exact List.forall_mem_singleton.2 ⟨[], [], (List.append_nil _).symm, rfl⟩
  | parted s c t hc hs ht =>
    rw [words_append_blank hc, List.append_cons]
    refine List.forall_mem_append.2 ⟨fun w hw => ((hs w hw).append_right [c]).append_right t, fun w hw => .append_left ?_⟩
    rw [byteLength_append, ← Nat.add_assoc]
    exact ht w hw

/-- No character of a word is blank. -/
theorem solid_of_mem_words {text : List Char} {start : Nat} : ∀ w ∈ words text start, Solid w.text := by
  induction text using induction_on_blanks generalizing start with
  | empty => exact nofun
  | solid s hs =>
    rw [words_solid hs]
    exact List.forall_mem_singleton.2 hs
  | parted s c t hc hs ht =>
    rw [words_append_blank hc]
    exact List.forall_mem_append.2 ⟨hs, ht⟩

end GridRobot.Text

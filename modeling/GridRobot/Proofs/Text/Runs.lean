import Mathlib.Data.List.Pairwise
import GridRobot.Proofs.Text.Places

/-!
# Words as runs

The words of a text are its maximal runs of characters that are not blank, in order and each where it stands, and what is in none of
them is blank (`words_are_maximal_runs`). No run goes over a blank (`Run.of_append_cons`), so every run lies within a word, and a word
within no run but itself.
-/

namespace GridRobot.Text

/-! ## Blank characters -/

/-- The code points with the Unicode property White_Space. -/
def whiteSpace : List Nat :=
  [0x0009, 0x000a, 0x000b, 0x000c, 0x000d, 0x0020, 0x0085, 0x00a0, 0x1680, 0x2000, 0x2001, 0x2002, 0x2003, 0x2004, 0x2005,
    0x2006, 0x2007, 0x2008, 0x2009, 0x200a, 0x2028, 0x2029, 0x202f, 0x205f, 0x3000]

/-- A character is blank exactly if it is one of those with the property White_Space. -/
theorem isBlank_iff {c : Char} : isBlank c = true ↔ c.toNat ∈ whiteSpace := by
  simp only [isBlank, Bool.or_eq_true, Bool.and_eq_true, decide_eq_true_eq, beq_iff_eq, whiteSpace, List.mem_cons,
    List.not_mem_nil, or_false]
  omega

/-! ## Pieces of a text -/

/-- A text is split in one way only at a number of bytes. -/
theorem append_inj_of_byteLength {s s' t t' : List Char} (h : s ++ t = s' ++ t') (hbytes : byteLength s = byteLength s') :
    s = s' ∧ t = t' := by
  have hnil : ∀ more, byteLength more = 0 → more = [] := by
    intro more hmore
    by_contra hne
    exact absurd (byteLength_pos hne) (by omega)
  rcases List.append_eq_append_iff.1 h with ⟨more, rfl, rfl⟩ | ⟨more, rfl, rfl⟩
  · obtain rfl := hnil more (by rw [byteLength_append] at hbytes; omega)
    simp
  · obtain rfl := hnil more (by rw [byteLength_append] at hbytes; omega)
    simp

namespace StandsIn

variable {s t text piece piece' : List Char} {c : Char} {start offset : Nat}

/-- A piece lies in its text. -/
theorem bounds (h : StandsIn text start piece offset) :
    start ≤ offset ∧ offset + byteLength piece ≤ start + byteLength text := by
  obtain ⟨front, back, rfl, rfl⟩ := h
  simp only [byteLength_append]
  omega

/-- Where a piece stands, no other piece of the same length does. -/
theorem unique (h : StandsIn text start piece offset) (h' : StandsIn text start piece' offset)
    (hbytes : byteLength piece = byteLength piece') : piece = piece' := by
  obtain ⟨front, back, rfl, rfl⟩ := h
  obtain ⟨front', back', htext, hfront⟩ := h'
  obtain ⟨-, hrest⟩ := append_inj_of_byteLength htext (Nat.add_left_cancel hfront)
  exact (append_inj_of_byteLength hrest hbytes).1

/-- The bytes of a piece are those of its text from its offset on. -/
theorem bytes_eq (h : StandsIn text start piece offset) :
    (String.ofList text).toUTF8.extract (offset - start) (offset + byteLength piece - start) =
      (String.ofList piece).toUTF8 := by
  obtain ⟨front, back, rfl, rfl⟩ := h
  have hsize : ∀ part : List Char, (String.ofList part).toByteArray.size = byteLength part := by
    intro part
    rw [String.size_toByteArray, utf8ByteSize_eq, String.toList_ofList]
  have hstart : start + byteLength front - start = (String.ofList front).toByteArray.size + 0 := by
    rw [hsize, Nat.add_sub_cancel_left, Nat.add_zero]
  have hstop : start + byteLength front + byteLength piece - start =
      (String.ofList front).toByteArray.size + byteLength piece := by
    rw [hsize, Nat.add_assoc, Nat.add_sub_cancel_left]
  simp only [String.toUTF8, String.ofList_append, String.toByteArray_append]
  rw [hstart, hstop, ByteArray.extract_append_size_add, ByteArray.extract_append_eq_left (hsize piece).symm]

/-- A piece without some character does not go over it: it stands in front of the character or behind it. -/
theorem of_append_cons (hne : piece ≠ []) (hc : c ∉ piece) (h : StandsIn (s ++ c :: t) start piece offset) :
    StandsIn s start piece offset ∨ StandsIn t (start + byteLength s + c.utf8Size) piece offset := by
  obtain ⟨front, back, htext, rfl⟩ := h
  rcases List.append_eq_append_iff.1 htext with ⟨between, rfl, hrest⟩ | ⟨between, rfl, hrest⟩
  · -- the piece begins at the character or behind it
    cases between with
    | nil =>
      obtain ⟨d, piece, rfl⟩ := List.exists_cons_of_ne_nil hne
      obtain ⟨rfl, -⟩ := List.cons.inj hrest
      exact absurd List.mem_cons_self hc
    | cons d between =>
      obtain ⟨rfl, rfl⟩ := List.cons.inj hrest
      refine .inr ⟨between, back, rfl, ?_⟩
      rw [byteLength_append, byteLength_cons]
      omega
  · -- the piece begins in front of the character, so it ends there
    rcases List.append_eq_append_iff.1 hrest with ⟨more, rfl, -⟩ | ⟨more, rfl, hmore⟩
    · exact .inl ⟨front, more, rfl, rfl⟩
    · cases more with
      | nil => exact .inl ⟨front, [], by simp, rfl⟩
      | cons d more =>
        obtain ⟨rfl, -⟩ := List.cons.inj hmore
        exact absurd (List.mem_append_right _ List.mem_cons_self) hc

end StandsIn

/-! ## Runs -/

/-- A word covers no byte that another one does not cover. -/
def Word.Within (v w : Word) : Prop := w.start ≤ v.start ∧ v.stop ≤ w.stop

theorem Word.Within.trans {u v w : Word} (huv : u.Within v) (hvw : v.Within w) : u.Within w :=
  ⟨Nat.le_trans hvw.1 huv.1, Nat.le_trans huv.2 hvw.2⟩

/-- Characters that are not blank and stand next to each other in a text that begins at `start`. -/
structure Run (text : List Char) (start : Nat) (w : Word) : Prop where
  solid : Solid w.text
  stands : StandsIn text start w.text w.start

/-- A run that is no part of a longer one. -/
structure MaximalRun (text : List Char) (start : Nat) (w : Word) : Prop where
  run : Run text start w
  longest : ∀ v, Run text start v → w.Within v → v = w

section

variable {s t text : List Char} {c : Char} {start : Nat} {v w : Word}

/-- A run is not empty. -/
theorem Run.start_lt_stop (h : Run text start w) : w.start < w.stop :=
  Nat.lt_add_of_pos_right (byteLength_pos h.solid.some)

theorem Run.bounds (h : Run text start w) : start ≤ w.start ∧ w.stop ≤ start + byteLength text := h.stands.bounds

/-- No run goes over a blank. -/
theorem Run.of_append_cons (hc : isBlank c = true) (h : Run (s ++ c :: t) start w) :
    Run s start w ∨ Run t (start + byteLength s + c.utf8Size) w := by
  have hmem : c ∉ w.text := by
    intro hmem
    nomatch hc.symm.trans (h.solid.solid c hmem)
  exact (h.stands.of_append_cons h.solid.some hmem).imp (⟨h.solid, ·⟩) (⟨h.solid, ·⟩)

/-- A run is known by where it begins and ends. -/
theorem Run.eq_of_within (hv : Run text start v) (hw : Run text start w) (hvw : v.Within w) (hwv : w.Within v) : v = w := by
  obtain ⟨vstart, vtext⟩ := v
  obtain ⟨wstart, wtext⟩ := w
  obtain rfl : vstart = wstart := Nat.le_antisymm hwv.1 hvw.1
  have hbytes : byteLength vtext = byteLength wtext := Nat.add_left_cancel (Nat.le_antisymm hvw.2 hwv.2)
  obtain rfl := hv.stands.unique hw.stands hbytes
  rfl

/-- Every word is a run of characters without white space. -/
theorem run_of_mem_words (h : w ∈ words text start) : Run text start w :=
  ⟨solid_of_mem_words w h, standsIn_of_mem_words w h⟩

/-- Between two words there is something else. -/
theorem pairwise_words (text : List Char) (start : Nat) :
    (words text start).Pairwise (fun v w => v.stop < w.start) := by
  induction text using induction_on_blanks generalizing start with
  | empty => exact List.Pairwise.nil
  | solid s hs =>
    rw [words_solid hs]
    exact List.pairwise_singleton ..
  | parted s c t hc hs ht =>
    rw [words_append_blank hc]
    refine List.pairwise_append.2 ⟨hs start, ht _, ?_⟩
    intro v hv w hw
    have hfront := (run_of_mem_words hv).bounds
    have hbehind := (run_of_mem_words hw).bounds
    have hpos := c.utf8Size_pos
    omega

/-- Words that touch each other are the same. -/
theorem eq_of_mem_words (hv : v ∈ words text start) (hw : w ∈ words text start) (hvw : v.start ≤ w.stop)
    (hwv : w.start ≤ v.stop) : v = w := by
  by_contra hne
  have hsymm : Std.Symm (fun v w : Word => v.stop < w.start ∨ w.stop < v.start) := ⟨fun _ _ => Or.symm⟩
  have hapart : (words text start).Pairwise (fun v w => v.stop < w.start ∨ w.stop < v.start) :=
    (pairwise_words text start).imp Or.inl
  rcases hapart.forall hv hw hne with hlt | hlt
  · exact absurd hwv (Nat.not_le_of_lt hlt)
  · exact absurd hvw (Nat.not_le_of_lt hlt)

/-- Every run lies within a word. -/
theorem Run.exists_word (h : Run text start v) : ∃ w ∈ words text start, v.Within w := by
  induction text using induction_on_blanks generalizing start with
  | empty =>
    obtain ⟨hstart, hstop⟩ := h.bounds
    have hlt := h.start_lt_stop
    rw [byteLength_nil] at hstop
    omega
  | solid s hs =>
    rw [words_solid hs]
    exact ⟨_, List.mem_singleton_self _, h.bounds⟩
  | parted s c t hc hs ht =>
    rw [words_append_blank hc]
    rcases h.of_append_cons hc with h | h
    · obtain ⟨w, hw, hwithin⟩ := hs h
      exact ⟨w, List.mem_append_left _ hw, hwithin⟩
    · obtain ⟨w, hw, hwithin⟩ := ht h
      exact ⟨w, List.mem_append_right _ hw, hwithin⟩

/-- The words of a text are exactly its maximal runs. -/
theorem mem_words_iff : w ∈ words text start ↔ MaximalRun text start w := by
  constructor
  · intro hw
    refine ⟨run_of_mem_words hw, fun v hv hwithin => ?_⟩
    -- the word that the other run lies in has all of the first word in it, so it is that word
    obtain ⟨u, hu, hvu⟩ := hv.exists_word
    have hwu := hwithin.trans hvu
    have hle := Nat.le_of_lt (run_of_mem_words hw).start_lt_stop
    obtain rfl : w = u := eq_of_mem_words hw hu (Nat.le_trans hle hwu.2) (Nat.le_trans hwu.1 hle)
    exact hv.eq_of_within (run_of_mem_words hw) hvu hwithin
  · intro hw
    obtain ⟨u, hu, hwithin⟩ := hw.run.exists_word
    obtain rfl := hw.longest u (run_of_mem_words hu) hwithin
    exact hu

/-- A character lies within a word unless it is blank. -/
theorem exists_word_iff (before : List Char) (c : Char) (after : List Char) (start : Nat) :
    (∃ w ∈ words (before ++ c :: after) start, Word.Within ⟨start + byteLength before, [c]⟩ w) ↔ isBlank c = false := by
  constructor
  · rintro ⟨w, hw, hstart, hstop⟩
    by_contra hc
    have hstart : w.start ≤ start + byteLength before := hstart
    have hstop : start + byteLength before + c.utf8Size ≤ w.stop := hstop
    have hpos := c.utf8Size_pos
    have hlt := (run_of_mem_words hw).start_lt_stop
    rcases (run_of_mem_words hw).of_append_cons (eq_true_of_ne_false hc) with h | h
    · obtain ⟨-, hfront⟩ := h.bounds
      omega
    · obtain ⟨hbehind, -⟩ := h.bounds
      omega
  · intro hc
    have hrun : Run (before ++ c :: after) start ⟨start + byteLength before, [c]⟩ :=
      ⟨⟨List.cons_ne_nil _ _, List.forall_mem_singleton.2 hc⟩, before, after, rfl, rfl⟩
    exact hrun.exists_word

end

/-- The words of a text are exactly its maximal runs of characters that are not blank, in order, with something else between any two.
No word is empty or has a blank in it, and its bytes are those of the text where it says it stands. A character of the text lies
within a word exactly if it is not blank, and the blank characters are those that Unicode calls white space. -/
theorem words_are_maximal_runs (text : List Char) (start : Nat) :
    (∀ w, w ∈ words text start ↔ MaximalRun text start w) ∧
      (words text start).Pairwise (fun v w => v.stop < w.start) ∧
      (∀ w ∈ words text start, w.text ≠ [] ∧ (∀ c ∈ w.text, isBlank c = false) ∧ StandsIn text start w.text w.start ∧
        (String.ofList text).toUTF8.extract (w.start - start) (w.stop - start) = w.toString.toUTF8) ∧
      (∀ before c after, text = before ++ c :: after →
        ((∃ w ∈ words text start, Word.Within ⟨start + byteLength before, [c]⟩ w) ↔ isBlank c = false)) ∧
      ∀ c, isBlank c = true ↔ c.toNat ∈ whiteSpace := by
  refine ⟨fun w => mem_words_iff, pairwise_words text start, ?_, ?_, fun c => isBlank_iff⟩
  · intro w hw
    obtain ⟨hsolid, hstands⟩ := run_of_mem_words hw
    exact ⟨hsolid.some, hsolid.solid, hstands, hstands.bytes_eq⟩
  · rintro before c after rfl
    exact exists_word_iff before c after start

/-- Blanks and letters of several bytes, from an offset on; the last word ends with the text. -/
example : words ['\u3000', 'é', 'x', '\u00a0', '7'] 10 = [⟨13, ['é', 'x']⟩, ⟨18, ['7']⟩] := by decide

end GridRobot.Text

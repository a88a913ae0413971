import GridRobot.Proofs.Language.Positions
import GridRobot.Proofs.Language.Spellings

/-!
# Reading to the end

Calls of the lexer get to the end of every text (`lexer_reaches_end`). In front of the end each of them takes a character at least,
whether it gives a token or an error, and at the end nothing changes any more. A token is told from the end of the text by its kind,
so the spellings that are known before must not have been entered as such ends (`Lexicon.Proper`).
-/

namespace GridRobot

open Text

/-! ## Spellings that are known -/

namespace Lexicon

/-- No spelling has been entered as the end of a text. -/
def Proper (l : Lexicon) : Prop := ∀ entry ∈ l.entries, entry.2 ≠ .endOfInput

variable {l : Lexicon} {spelling : String} {kind : Kind}

/-- No spelling of the language is the end of a text. -/
theorem proper_standard : standard.Proper := by
  unfold Proper
  decide

theorem Proper.enter (hl : l.Proper) (hkind : kind ≠ .endOfInput) : (l.enter spelling kind).2.Proper := by
  unfold Proper
  rw [entries_enter]
  split
  · exact hl
  · intro entry hentry
    rcases List.mem_append.1 hentry with hold | hadded
    · exact hl entry hold
    · obtain rfl := List.mem_singleton.1 hadded
      exact hkind

theorem Proper.addAll (hl : l.Proper) (items : List Item) : (l.addAll items).Proper := by
  have hkind : ∀ item : Item, item.kind ≠ .endOfInput := by
    rintro (_ | _) <;> exact nofun
  induction items generalizing l with
  | nil => exact hl
  | cons item items ih =>
    rw [addAll_cons, add_eq]
    exact ih (hl.enter (hkind item))

/-- A word that is entered is not answered as the end of a text. -/
theorem Proper.kind_word_ne (hl : l.Proper) (spelling : String) : (l.word spelling).1.2 ≠ .endOfInput := by
  rw [kind_word]
  cases hk : l.kind? spelling with
  | none => exact nofun
  | some k =>
    obtain ⟨before, after, hentries, -⟩ := List.lookup_eq_some_iff.1 hk
    exact hl (spelling, k) (hentries ▸ List.mem_append_right _ List.mem_cons_self)

end Lexicon

namespace Lexer

/-! ## One call -/

/-- A call of the lexer gives the end of the text. -/
def AtEnd (result : Except SourceError Token) : Prop := ∃ t, result = .ok t ∧ t.kind = .endOfInput

/-- What reading a token does to the lexicon. -/
theorem lexicon_scan (l : Lexicon) (cur : Cursor) :
    (scan l cur).2.lexicon = l ∨
      ∃ spelling kind, kind ≠ .endOfInput ∧ (scan l cur).2.lexicon = (l.enter spelling kind).2 := by
  unfold scan
  split
  · exact .inl rfl
  · split
    · exact .inr ⟨_, .number, nofun, rfl⟩
    · split
      · exact .inr ⟨_, .identifier, nofun, rfl⟩
      · split <;> exact .inl rfl

/-- What a call of the lexer does to the lexicon. -/
theorem lexicon_next (lx : Lexer) :
    lx.next.2.lexicon = lx.lexicon ∨
      ∃ spelling kind, kind ≠ .endOfInput ∧ lx.next.2.lexicon = (lx.lexicon.enter spelling kind).2 := by
  unfold next
  split
  · exact .inl rfl
  · exact lexicon_scan ..

/-- A call of the lexer leaves the spellings in front as they are. -/
theorem prefix_next (lx : Lexer) : lx.lexicon.entries <+: lx.next.2.lexicon.entries := by
  rcases lx.lexicon_next with hsame | ⟨spelling, kind, -, henter⟩
  · simp only [hsame, List.prefix_rfl]
  · rw [henter]
    exact Lexicon.prefix_enter ..

/-- No call of the lexer enters a spelling as the end of a text. -/
theorem proper_next {lx : Lexer} (h : lx.lexicon.Proper) : lx.next.2.lexicon.Proper := by
  rcases lx.lexicon_next with hsame | ⟨spelling, kind, hkind, henter⟩
  · rwa [hsame]
  · rw [henter]
    exact h.enter hkind

/-- A token that is read in front of the end of the text is not the end. -/
theorem rest_of_scan {l : Lexicon} {cur : Cursor} (hl : l.Proper) (h : AtEnd (scan l cur).1) :
    cur.rest = [] ∧ scan l cur = (.ok (Token.endOf cur), ⟨cur, l⟩) := by
  obtain ⟨t, ht, hkind⟩ := h
  unfold scan at ht ⊢
  split at ht
  · rename_i hrest
    exact ⟨hrest, rfl⟩
  · split at ht
    · obtain rfl := Except.ok.inj ht
      nomatch hkind
    · split at ht
      · obtain rfl := Except.ok.inj ht
        exact absurd hkind (hl.kind_word_ne _)
      · split at ht
        · rename_i hsign
          obtain rfl := Except.ok.inj ht
          obtain ⟨_, hmem, -⟩ := sign_eq_ok hsign
          exact absurd hkind (show Token.Whole _ _ [] from .sign hmem).kind_ne
        · nomatch ht

/-- A call that gives the end of the text has come there, and leaves the lexicon as it is. -/
theorem rest_of_next {lx : Lexer} (hl : lx.lexicon.Proper) (h : AtEnd lx.next.1) :
    lx.next.2.cursor.rest = [] ∧ lx.next = (.ok (Token.endOf lx.next.2.cursor), ⟨lx.next.2.cursor, lx.lexicon⟩) := by
  unfold next at h ⊢
  cases hskip : lx.cursor.skipGap with
  | mk result cur =>
    rw [hskip] at h
    cases result with
    | error e =>
      obtain ⟨_, ht, -⟩ := h
      nomatch ht
    | ok =>
      obtain ⟨hrest, hscan⟩ := rest_of_scan hl h
      dsimp only
      rw [hscan]
      exact ⟨hrest, rfl⟩

/-! ## Many calls -/

section

variable {source : String} {lx : Lexer} {n m : Nat}

/-- Calls of the lexer leave the spellings in front as they are. -/
theorem prefix_after (lx : Lexer) (h : n ≤ m) : (lx.after n).lexicon.entries <+: (lx.after m).lexicon.entries := by
  induction m, h using Nat.le_induction with
  | base => exact List.prefix_rfl
  | succ m _ ih => exact ih.trans (prefix_next _)

theorem proper_after (hl : lx.lexicon.Proper) (n : Nat) : (lx.after n).lexicon.Proper := by
  induction n with
  | zero => exact hl
  | succ n ih => exact proper_next ih

/-- A call that does not give the end of the text takes a character at least. -/
theorem spans_of_not_atEnd (h : ¬ AtEnd lx.next.1) : ∃ passed, passed ≠ [] ∧ lx.cursor.Spans passed lx.next.2.cursor := by
  refine next_spans fun hrest => h ?_
  rw [next_of_end hrest]
  exact ⟨_, rfl, rfl⟩

/-- As long as the end of the text is not given, there is a character less with every call. -/
theorem length_after (h : ∀ k < n, ¬ AtEnd (lx.after k).next.1) :
    (lx.after n).cursor.rest.length + n ≤ lx.cursor.rest.length := by
  induction n with
  | zero => exact Nat.le_refl _
  | succ n ih =>
    obtain ⟨passed, hne, hspans⟩ := spans_of_not_atEnd (h n (Nat.lt_succ_self n))
    have hshorter := hspans.length_lt hne
    have hbefore := ih fun k hk => h k (Nat.lt_succ_of_lt hk)
    rw [after]
    omega

/-- So the end of the text is given. -/
theorem exists_atEnd (lx : Lexer) : ∃ n ≤ lx.cursor.rest.length, AtEnd (lx.after n).next.1 := by
  by_contra hno
  have hnever : ∀ k < lx.cursor.rest.length + 1, ¬ AtEnd (lx.after k).next.1 := fun k hk hend =>
    hno ⟨k, Nat.le_of_lt_succ hk, hend⟩
  have := length_after hnever
  omega

/-- Behind a call that gave the end of the text nothing is ahead. -/
theorem rest_after (hl : lx.lexicon.Proper) (hend : AtEnd (lx.after n).next.1) (h : n < m) :
    (lx.after m).cursor.rest = [] := by
  induction m, h using Nat.le_induction with
  | base => exact (rest_of_next (proper_after hl n) hend).1
  | succ m _ ih =>
    rw [after, next_of_end ih]
    exact ih

/-- The end of a text is at its last byte and on its last line. -/
theorem endOf_eq {cur : Cursor} (h : cur.ReachedIn source) (hrest : cur.rest = []) :
    Token.endOf cur = ⟨.endOfInput, none, "", source.utf8ByteSize, 1 + source.toList.count '\n'⟩ := by
  obtain ⟨passed, hspans⟩ := h
  obtain rfl : source.toList = passed := by
    have hall := hspans.rest
    rwa [hrest, List.append_nil] at hall
  rw [Token.endOf, hspans.offset, hspans.line, utf8ByteSize_eq]
  simp only [Cursor.start, Nat.zero_add]

end

/-- The lexer of a text behind so many calls. Items have been entered before. -/
def called (source : String) (items : List Lexicon.Item) (n : Nat) : Lexer :=
  (start source (Lexicon.standard.addAll items)).after n

/-- The lexer gets to the end of every text, whatever has been entered before. A call that does not give the end takes a character
at least, also if it gives an error, so the end is given by a call whose number is not above that of the characters, counted from
zero. From then on every call gives the end, at the last byte and on the last line, and leaves the lexicon as it is. No call takes a
spelling from the lexicon or gives it another place there. -/
theorem lexer_reaches_end (source : String) (items : List Lexicon.Item) :
    (∀ n, ¬ AtEnd (called source items n).next.1 →
        ∃ passed, passed ≠ [] ∧ (called source items n).cursor.Spans passed (called source items (n + 1)).cursor) ∧
      (∃ n ≤ source.toList.length, AtEnd (called source items n).next.1) ∧
      (∀ n m, AtEnd (called source items n).next.1 → n ≤ m →
        (called source items m).next.1 = .ok ⟨.endOfInput, none, "", source.utf8ByteSize, 1 + source.toList.count '\n'⟩ ∧
          (called source items (m + 1)).lexicon = (called source items m).lexicon) ∧
      ∀ n m, n ≤ m → (called source items n).lexicon.entries <+: (called source items m).lexicon.entries := by
  have hproper : (start source (Lexicon.standard.addAll items)).lexicon.Proper := Lexicon.proper_standard.addAll items
  refine ⟨fun n => spans_of_not_atEnd, exists_atEnd (start source _), ?_, fun n m => prefix_after _⟩
  intro n m hend hle
  -- every call from the first end on gives the end
  have hagain : AtEnd (called source items m).next.1 := by
    rcases Nat.eq_or_lt_of_le hle with rfl | hlt
    · exact hend
    · have hstay : (called source items m).cursor.rest = [] := rest_after hproper hend hlt
      rw [next_of_end hstay]
      exact ⟨_, rfl, rfl⟩
  obtain ⟨hrest, hnext⟩ := rest_of_next (proper_after hproper m) hagain
  have hreached := after_reachedIn source (Lexicon.standard.addAll items) (m + 1)
  rw [← endOf_eq hreached hrest]
  exact ⟨congrArg Prod.fst hnext, congrArg (fun r => r.2.lexicon) hnext⟩

end Lexer

end GridRobot

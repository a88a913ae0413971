import GridRobot.Language.Lexer

/-!
# What belongs to no token

`Spacing` says of a text that it is made of white space, six characters that `Lexer.isSpace_iff` names, and of complete comments.
How a text is gone over does not enter into it. Going over a gap takes text of this kind, up to a character that begins a token or to
the end of the text (`skip_eq_ok`). The invariant is `Gap.Opened`: what has been gone over is spacing, up to a comment that is not
complete yet.
-/

namespace GridRobot

open Text

/-- White space is a blank, a tab, a newline, a vertical tab, a form feed or a carriage return, and nothing else. -/
theorem Lexer.isSpace_iff {c : Char} : isSpace c = true ↔ c ∈ [' ', '\t', '\n', '\x0b', '\x0c', '\r'] := by
  simp only [isSpace, Bool.or_eq_true, beq_iff_eq, List.mem_cons, List.not_mem_nil, or_false, or_assoc]

/-- Text that belongs to no token: white space, comments up to the end of their line, and comments up to the first star and slash
in them. -/
inductive Spacing : List Char → Prop where
  | nil : Spacing []
  | space {c : Char} {rest : List Char} : Lexer.isSpace c = true → Spacing rest → Spacing (c :: rest)
  | lineComment {body rest : List Char} : '\n' ∉ body → Spacing rest → Spacing ('/' :: '/' :: body ++ '\n' :: rest)
  | starComment {body rest : List Char} : ¬ ['*', '/'] <:+: body → Spacing rest →
      Spacing ('/' :: '*' :: body ++ '*' :: '/' :: rest)

namespace Spacing

theorem append {text more : List Char} (h : Spacing text) (h' : Spacing more) : Spacing (text ++ more) := by
  induction h with
  | nil => exact h'
  | space hc _ ih => exact .space hc ih
  | lineComment hbody _ ih =>
    have := Spacing.lineComment hbody ih
    simpa using this
  | starComment hbody _ ih =>
    have := Spacing.starComment hbody ih
    simpa using this

/-- Spacing at the end of a text, where the line of a comment may end as well. -/
def AtEnd (text : List Char) : Prop :=
  Spacing text ∨ ∃ before body, text = before ++ '/' :: '/' :: body ∧ Spacing before ∧ '\n' ∉ body

end Spacing

namespace Cursor

/-- From a place to another there is a text. -/
structure Spans (cur : Cursor) (text : List Char) (cur' : Cursor) : Prop where
  rest : cur.rest = text ++ cur'.rest
  offset : cur'.offset = cur.offset + byteLength text
  line : cur'.line = cur.line + text.count '\n'

namespace Spans

theorem refl (cur : Cursor) : cur.Spans [] cur := ⟨rfl, rfl, rfl⟩

theorem trans {cur cur' cur'' : Cursor} {text more : List Char} (h : cur.Spans text cur') (h' : cur'.Spans more cur'') :
    cur.Spans (text ++ more) cur'' where
  rest := by rw [h.rest, h'.rest, List.append_assoc]
  offset := by rw [h'.offset, h.offset, byteLength_append, Nat.add_assoc]
  line := by rw [h'.line, h.line, List.count_append, Nat.add_assoc]

/-- One more character. -/
theorem cons (c : Char) (rest : List Char) (offset line : Nat) :
    Spans ⟨c :: rest, offset, line⟩ [c] ⟨rest, offset + c.utf8Size, lineAfter c line⟩ where
  rest := rfl
  offset := rfl
  line := by
    unfold lineAfter
    by_cases h : c = '\n'
    · rw [if_pos h, h]
      rfl
    · rw [if_neg h, List.count_singleton, if_neg (by simpa using h)]
      rfl

/-- Behind a text that is not empty there is less to read. -/
theorem length_lt {cur cur' : Cursor} {text : List Char} (h : cur.Spans text cur') (hne : text ≠ []) :
    cur'.rest.length < cur.rest.length := by
  have hpos := List.length_pos_iff.2 hne
  rw [h.rest, List.length_append]
  omega

end Spans

/-! ## Gaps -/

namespace Gap

/-- What has been gone over on the way to a place in a gap: spacing, and the comment that the place is in, as far as it goes. -/
def Opened : Gap → List Char → Prop
  | space, text => Spacing text
  | lineComment, text => ∃ before body, text = before ++ '/' :: '/' :: body ∧ Spacing before ∧ '\n' ∉ body
  | starComment _ afterStar, text => ∃ before body, text = before ++ '/' :: '*' :: body ∧ Spacing before ∧
      ¬ ['*', '/'] <:+: body ∧ (afterStar = true ↔ body.getLast? = some '*')

variable {text : List Char}

theorem Opened.space {c : Char} (h : Opened .space text) (hc : Lexer.isSpace c = true) : Opened .space (text ++ [c]) :=
  Spacing.append h (.space hc .nil)

/-- Two slashes open a comment that ends with its line. -/
theorem Opened.slashes (h : Opened .space text) : Opened .lineComment (text ++ ['/', '/']) :=
  ⟨text, [], rfl, h, List.not_mem_nil⟩

/-- A slash and a star open a comment whose own star closes nothing. -/
theorem Opened.slashStar (h : Opened .space text) (start : Nat) : Opened (.starComment start false) (text ++ ['/', '*']) :=
  ⟨text, [], rfl, h, by decide, by simp⟩

/-- One more character of a comment that ends with its line. -/
theorem Opened.lineComment (h : Opened .lineComment text) (c : Char) :
    Opened (if c = '\n' then .space else .lineComment) (text ++ [c]) := by
  obtain ⟨before, body, rfl, hbefore, hbody⟩ := h
  split
  · rename_i hc
    have hcomment : Spacing ('/' :: '/' :: body ++ ['\n']) := .lineComment hbody .nil
    rw [hc, List.append_assoc]
    exact hbefore.append hcomment
  · rename_i hc
    refine ⟨before, body ++ [c], by simp, hbefore, ?_⟩
    rw [List.mem_append, List.mem_singleton]
    rintro (h | h)
    · exact hbody h
    · exact hc h.symm

/-- A star and a slash are in a text with one more character if they were in it before, or if they are its last two. -/
theorem starSlash_infix_concat {body : List Char} {c : Char} :
    ['*', '/'] <:+: body ++ [c] ↔ ['*', '/'] <:+: body ∨ body.getLast? = some '*' ∧ c = '/' := by
  have hsuffix : ['*', '/'] <:+ body ++ [c] ↔ body.getLast? = some '*' ∧ c = '/' := by
    rw [List.suffix_concat_iff, ← List.singleton_suffix_iff_getLast?_eq_some]
    constructor
    · rintro (h | ⟨t, ht, hbody⟩)
      · nomatch h
      · obtain ⟨rfl, hc⟩ := List.append_inj' (show ['*'] ++ ['/'] = t ++ [c] from ht) rfl
        exact ⟨hbody, (List.singleton_inj.1 hc).symm⟩
    · rintro ⟨hbody, rfl⟩
      exact .inr ⟨['*'], rfl, hbody⟩
  rw [List.infix_concat_iff, hsuffix, or_comm]

/-- One more character of a comment in stars. -/
theorem Opened.starComment {start : Nat} {afterStar : Bool} (h : Opened (.starComment start afterStar) text) (c : Char) :
    Opened (if (afterStar && c == '/') = true then .space else .starComment start (c == '*')) (text ++ [c]) := by
  obtain ⟨before, body, rfl, hbefore, hbody, hstar⟩ := h
  split
  · rename_i hc
    rw [Bool.and_eq_true, beq_iff_eq] at hc
    obtain ⟨inner, rfl⟩ := List.getLast?_eq_some_iff.1 (hstar.1 hc.1)
    have hinner : ¬ ['*', '/'] <:+: inner := fun h => hbody (starSlash_infix_concat.2 (.inl h))
    have hcomment : Spacing ('/' :: '*' :: inner ++ ['*', '/']) := .starComment hinner .nil
    have hclosed := hbefore.append hcomment
    change Spacing _
    simpa [hc.2] using hclosed
  · rename_i hc
    rw [Bool.and_eq_true, beq_iff_eq, hstar] at hc
    refine ⟨before, body ++ [c], by simp, hbefore, ?_, by simp⟩
    rw [starSlash_infix_concat]
    rintro (h | h)
    · exact hbody h
    · exact hc h

end Gap

/-- A place where a gap ends: the end of the text, or a character that neither white space nor a comment begins with. -/
def AtToken (cur : Cursor) : Prop := ∀ c rest, cur.rest = c :: rest → Lexer.isSpace c = false ∧ c ≠ '/'

/-- From a place behind a text, spacing goes on to where a token begins or the text ends. -/
def Crosses (cur : Cursor) (text : List Char) (cur' : Cursor) : Prop :=
  ∃ more, cur.Spans more cur' ∧ Spacing.AtEnd (text ++ more) ∧ (cur'.rest ≠ [] → Spacing (text ++ more)) ∧ cur'.AtToken

/-- What has been gone over in front counts. -/
theorem Crosses.behind {cur cur' cur'' : Cursor} {text passed : List Char} (hp : cur.Spans passed cur')
    (h : cur'.Crosses (text ++ passed) cur'') : cur.Crosses text cur'' := by
  obtain ⟨more, hspans, hend, hspacing, htoken⟩ := h
  rw [List.append_assoc] at hend hspacing
  exact ⟨passed ++ more, hp.trans hspans, hend, hspacing, htoken⟩

/-- A gap that is gone over without an error is spacing, and behind it a token begins or the text ends. The induction is on the
text from a place in the gap, and each character that is gone over is added to what has been gone over before. -/
theorem skip_eq_ok {g : Gap} {cs text : List Char} {offset line : Nat} {cur : Cursor} (ho : g.Opened text)
    (h : skip g cs offset line = (.ok (), cur)) : Crosses ⟨cs, offset, line⟩ text cur := by
  fun_induction skip g cs offset line generalizing text with
  | case1 offset line =>
    obtain rfl := (Prod.mk.inj h).2
    exact ⟨[], .refl _, .inl (by rwa [List.append_nil]), fun hne => absurd rfl hne, nofun⟩
  | case2 c rest offset line hc ih => exact .behind (.cons c rest offset line) (ih (ho.space hc) h)
  | case3 offset line rest _ ih => exact .behind ⟨rfl, rfl, rfl⟩ (ih ho.slashes h)
  | case4 offset line rest _ ih => exact .behind ⟨rfl, rfl, rfl⟩ (ih (ho.slashStar offset) h)
  | case5 => nomatch (Prod.mk.inj h).1
  | case6 c rest offset line hc hslash =>
    obtain rfl := (Prod.mk.inj h).2
    refine ⟨[], .refl _, .inl (by rwa [List.append_nil]), fun _ => by rwa [List.append_nil], ?_⟩
    rintro _ _ ⟨⟩
    exact ⟨Bool.not_eq_true _ ▸ hc, hslash⟩
  | case7 offset line =>
    obtain rfl := (Prod.mk.inj h).2
    exact ⟨[], .refl _, .inr (by rwa [List.append_nil]), fun hne => absurd rfl hne, nofun⟩
  | case8 c rest offset line ih => exact .behind (.cons c rest offset line) (ih (ho.lineComment c) h)
  | case9 => nomatch (Prod.mk.inj h).1
  | case10 start afterStar c rest offset line ih => exact .behind (.cons c rest offset line) (ih (ho.starComment c) h)

/-- In a gap only a slash on its own and a comment without an end are refused. -/
theorem skip_eq_error {g : Gap} {cs : List Char} {offset line : Nat} {e : SourceError}
    (h : (skip g cs offset line).1 = .error e) : e.problem = .loneSlash ∨ e.problem = .unclosedComment := by
  fun_induction skip g cs offset line with
  | case1 | case6 | case7 => nomatch h
  | case2 _ _ _ _ _ ih | case3 _ _ _ _ ih | case4 _ _ _ _ ih | case8 _ _ _ _ ih | case10 _ _ _ _ _ _ ih => exact ih h
  | case5 =>
    obtain rfl := Except.error.inj h
    exact .inl rfl
  | case9 =>
    obtain rfl := Except.error.inj h
    exact .inr rfl

/-- What lies between a place and the next token is spacing. -/
theorem skipGap_eq_ok {cur cur' : Cursor} (h : cur.skipGap = (.ok (), cur')) : cur.Crosses [] cur' :=
  skip_eq_ok (show Gap.Opened .space [] from Spacing.nil) h

end Cursor

end GridRobot

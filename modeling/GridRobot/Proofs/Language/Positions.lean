import GridRobot.Proofs.Language.Respacing
import GridRobot.Proofs.Language.Tokens
import GridRobot.Proofs.Text.LineEnds

/-!
# Positions of tokens and errors

The lexer goes from one place in a text to the next, also behind an error, so its tokens and errors are at places in the text, with
the lines of these places (`Lexer.next_reachedIn`). No token goes over the end of a line, and no lexical error quotes one
(`Lexer.next_oneLine`). The compiler takes its positions, and what it quotes, from the tokens: a text that is read twice is read
alike, so what is true of all tokens is true of refusals (`refused_at_point`).
-/

namespace GridRobot

open Text

/-! ## The lexer -/

/-- A place in a text that is read from its beginning. -/
def Cursor.ReachedIn (source : String) (cur : Cursor) : Prop := ∃ passed, (Cursor.start source.toList).Spans passed cur

namespace Cursor

variable {source : String} {cur cur' : Cursor}

theorem ReachedIn.start (source : String) : (Cursor.start source.toList).ReachedIn source := ⟨[], .refl _⟩

theorem ReachedIn.behind (h : cur.ReachedIn source) {passed : List Char} (hp : cur.Spans passed cur') : cur'.ReachedIn source := by
  obtain ⟨front, hfront⟩ := h
  exact ⟨front ++ passed, hfront.trans hp⟩

/-- A place in a text has its byte offset and its line. -/
theorem ReachedIn.place (h : cur.ReachedIn source) :
    OnBoundary source cur.offset ∧ cur.line = (Location.ofOffset source.toList cur.offset).line := by
  obtain ⟨passed, hrest, hoffset, hline⟩ := h
  have hsource : source.toList = passed ++ cur.rest := hrest
  have hbytes : cur.offset = byteLength passed := hoffset.trans (Nat.zero_add _)
  refine ⟨onBoundary_iff.2 ⟨passed, cur.rest, hsource, hbytes⟩, ?_⟩
  rw [hsource, hbytes, Location.line_ofOffset, hline]
  exact Nat.add_comm _ _

/-- A place in a text is on a line if no newline begins there. -/
theorem ReachedIn.onLine (h : cur.ReachedIn source) (hnewline : cur.rest.head? ≠ some '\n') : OnLine source cur.offset := by
  obtain ⟨passed, hrest, hoffset, -⟩ := h
  exact ⟨passed, cur.rest, hrest, hoffset.trans (Nat.zero_add _), fun hend => hnewline hend.2⟩

/-- A place where a token begins is on a line. -/
theorem ReachedIn.onLine_of_atToken (h : cur.ReachedIn source) (htoken : cur.AtToken) : OnLine source cur.offset := by
  refine h.onLine ?_
  intro hnewline
  obtain ⟨rest, hrest⟩ := List.head?_eq_some_iff.1 hnewline
  nomatch (htoken '\n' rest hrest).1

/-- A gap is gone over from one place to another, also if an error is met in it; an error is not met where the gap begins. -/
theorem skip_spans (g : Gap) (cs : List Char) (offset line : Nat) :
    ∃ passed, Spans ⟨cs, offset, line⟩ passed (skip g cs offset line).2 ∧
      (g = .space → ∀ e, (skip g cs offset line).1 = .error e → passed ≠ []) := by
  fun_induction skip g cs offset line with
  | case1 | case6 | case7 => exact ⟨[], .refl _, by simp⟩
  | case2 c rest offset line hc ih =>
    obtain ⟨passed, hspans, -⟩ := ih
    exact ⟨c :: passed, (Spans.cons c rest offset line).trans hspans, fun _ _ _ => List.cons_ne_nil _ _⟩
  | case3 offset line rest _ ih =>
    obtain ⟨passed, hspans, -⟩ := ih
    have hopening : Spans ⟨'/' :: '/' :: rest, offset, line⟩ ['/', '/'] ⟨rest, offset + 2, line⟩ := ⟨rfl, rfl, rfl⟩
    exact ⟨'/' :: '/' :: passed, hopening.trans hspans, fun _ _ _ => List.cons_ne_nil _ _⟩
  | case4 offset line rest _ ih =>
    obtain ⟨passed, hspans, -⟩ := ih
    have hopening : Spans ⟨'/' :: '*' :: rest, offset, line⟩ ['/', '*'] ⟨rest, offset + 2, line⟩ := ⟨rfl, rfl, rfl⟩
    exact ⟨'/' :: '*' :: passed, hopening.trans hspans, fun _ _ _ => List.cons_ne_nil _ _⟩
  | case5 offset line rest => exact ⟨['/'], .cons '/' rest offset line, fun _ _ _ => List.cons_ne_nil _ _⟩
  | case8 c rest offset line ih | case10 start afterStar c rest offset line ih =>
    obtain ⟨passed, hspans, -⟩ := ih
    exact ⟨c :: passed, (Spans.cons c rest offset line).trans hspans, by simp⟩
  | case9 => exact ⟨[], .refl _, by simp⟩

/-- The comment that a gap is in began on a line. -/
def Gap.BeganIn (source : String) : Gap → Prop
  | .starComment start _ => OnLine source start
  | .space | .lineComment => True

/-- An error that is met in a gap is on a line: it is at a slash, or where the comment began that the gap is in. -/
theorem skip_onLine {g : Gap} {cs : List Char} {offset line : Nat} (h : ReachedIn source ⟨cs, offset, line⟩)
    (hg : g.BeganIn source) {e : SourceError} (he : (skip g cs offset line).1 = .error e) : OnLine source e.position := by
  have hslash : ∀ {rest : List Char} {offset line : Nat}, ReachedIn source ⟨'/' :: rest, offset, line⟩ →
      OnLine source offset := fun h => h.onLine (by simp)
  fun_induction skip g cs offset line with
  | case1 | case6 | case7 => cases he
  | case2 c rest offset line hc ih => exact ih (h.behind (.cons c rest offset line)) trivial he
  | case3 offset line rest _ ih => exact ih (h.behind (show Spans _ ['/', '/'] _ from ⟨rfl, rfl, rfl⟩)) trivial he
  | case4 offset line rest _ ih => exact ih (h.behind (show Spans _ ['/', '*'] _ from ⟨rfl, rfl, rfl⟩)) (hslash h) he
  | case5 offset line rest =>
    obtain rfl := Except.error.inj he
    exact hslash h
  | case8 c rest offset line ih =>
    refine ih (h.behind (.cons c rest offset line)) ?_ he
    split <;> trivial
  | case9 start afterStar offset line =>
    obtain rfl := Except.error.inj he
    exact hg
  | case10 start afterStar c rest offset line ih =>
    refine ih (h.behind (.cons c rest offset line)) ?_ he
    split
    · trivial
    · exact hg

end Cursor

namespace Lexer

variable {source : String}

/-- A token that is read at a place begins there, and an error that is met there is there; either way a place further on is
reached, and if the text does not end there, it is another one. -/
theorem scan_spans (l : Lexicon) (cur : Cursor) :
    (∃ passed, cur.Spans passed (scan l cur).2.cursor ∧ (cur.rest ≠ [] → passed ≠ [])) ∧
      (∀ t, (scan l cur).1 = .ok t → t.position = cur.offset ∧ t.line = cur.line) ∧
      ∀ e, (scan l cur).1 = .error e → e.position = cur.offset := by
  unfold scan
  split
  · rename_i hrest
    refine ⟨⟨[], .refl cur, fun hne => absurd hrest hne⟩, ?_, nofun⟩
    rintro t ⟨⟩
    exact ⟨rfl, rfl⟩
  · rename_i c rest hrest
    have htake : ∀ {p : Char → Bool}, p c = true → (cur.takeWhile p).1 ≠ [] := by
      intro p hc hnil
      obtain ⟨tail, htail⟩ := Cursor.takeWhile_first (p := p) rfl hrest hc
      exact List.cons_ne_nil _ _ (htail.symm.trans hnil)
    split
    · rename_i hc
      refine ⟨⟨_, (Cursor.takeWhile_eq rfl rfl).1, fun _ => htake hc⟩, ?_, nofun⟩
      rintro t ⟨⟩
      exact ⟨rfl, rfl⟩
    · split
      · rename_i hc
        refine ⟨⟨_, (Cursor.takeWhile_eq rfl rfl).1, fun _ => htake (isWordPart_of_isWordStart hc)⟩, ?_, nofun⟩
        rintro t ⟨⟩
        exact ⟨rfl, rfl⟩
      · split
        · rename_i hsign
          refine ⟨⟨_, spans_sign hrest hsign, fun _ => ?_⟩, ?_, nofun⟩
          · obtain ⟨spelling, hmem, htext, -, -⟩ := sign_eq_ok hsign
            rw [hrest, htext]
            exact (show Token.Whole _ _ [] from .sign hmem).ne_nil
          · rintro t ⟨⟩
            exact ⟨rfl, rfl⟩
        · refine ⟨⟨[c], ?_, fun _ => List.cons_ne_nil _ _⟩, nofun, ?_⟩
          · have hstep := Cursor.Spans.cons c rest cur.offset cur.line
            rwa [← hrest] at hstep
          · rintro e ⟨⟩
            rfl

/-- A token is spelled on one line. An error where a token should begin quotes one character at most, and not a newline. -/
theorem scan_oneLine (l : Lexicon) {cur : Cursor} (hat : cur.AtToken) :
    (∀ t, (scan l cur).1 = .ok t → OneLine t.text) ∧ ∀ e, (scan l cur).1 = .error e → e.problem.QuotesOnly OneLine := by
  have htake : ∀ p : Char → Bool, p '\n' = false → OneLine (String.ofList (cur.takeWhile p).1) := by
    intro p hp hmem
    rw [String.toList_ofList] at hmem
    rw [(Cursor.takeWhile_eq rfl hp).2.1 _ hmem] at hp
    nomatch hp
  unfold scan
  split
  · refine ⟨?_, nofun⟩
    rintro t ⟨⟩
    exact (by decide : OneLine "")
  · rename_i c rest hrest
    split
    · refine ⟨?_, nofun⟩
      rintro t ⟨⟩
      exact htake _ rfl
    · split
      · refine ⟨?_, nofun⟩
        rintro t ⟨⟩
        exact htake _ rfl
      · split
        · rename_i hsign
          obtain ⟨spelling, -, htext, -, hnewline⟩ := sign_eq_ok hsign
          refine ⟨?_, nofun⟩
          rintro t ⟨⟩
          rwa [OneLine, String.toList_ofList, hrest, htext]
        · rename_i problem hsign
          refine ⟨nofun, ?_⟩
          rintro e ⟨⟩
          rcases sign_eq_error hsign with rfl | rfl | rfl
          · exact .nothing rfl
          · exact .nothing rfl
          · refine .one rfl ?_
            rw [OneLine, Char.toString, String.toList_singleton, List.mem_singleton]
            rintro rfl
            nomatch (hat '\n' rest hrest).1

/-- At the end of a text the lexer stays where it is. -/
theorem next_of_end {lx : Lexer} (h : lx.cursor.rest = []) : lx.next = (.ok (Token.endOf lx.cursor), lx) := by
  obtain ⟨⟨rest, offset, line⟩, l⟩ := lx
  obtain rfl : rest = [] := h
  rfl

/-- In front of the end every call of the lexer takes a character at least, also one that gives an error. -/
theorem next_spans {lx : Lexer} (h : lx.cursor.rest ≠ []) : ∃ passed, passed ≠ [] ∧ lx.cursor.Spans passed lx.next.2.cursor := by
  obtain ⟨gap, hgap, hne⟩ := Cursor.skip_spans .space lx.cursor.rest lx.cursor.offset lx.cursor.line
  unfold next
  cases hskip : lx.cursor.skipGap with
  | mk result cur =>
    rw [show Cursor.skip .space _ _ _ = (result, cur) from hskip] at hgap hne
    cases result with
    | error e => exact ⟨gap, hne rfl e rfl, hgap⟩
    | ok =>
      obtain ⟨⟨passed, hpassed, htaken⟩, -⟩ := scan_spans lx.lexicon cur
      refine ⟨gap ++ passed, ?_, Cursor.Spans.trans hgap hpassed⟩
      intro hnil
      obtain ⟨rfl, hstay⟩ := List.append_eq_nil_iff.1 hnil
      have hsame : lx.cursor.rest = cur.rest := hgap.rest
      exact htaken (hsame ▸ h) hstay

/-- The lexer behind so many tokens and errors. -/
def after (lx : Lexer) : Nat → Lexer
  | 0 => lx
  | n + 1 => (lx.after n).next.2

/-- A token or an error that is read in a text is on a line, a token on the line of its position, and a place further on is
reached. -/
theorem next_onLine {lx : Lexer} (h : lx.cursor.ReachedIn source) :
    lx.next.2.cursor.ReachedIn source ∧
      (∀ t, lx.next.1 = .ok t → OnLine source t.position ∧ t.line = (Location.ofOffset source.toList t.position).line) ∧
      ∀ e, lx.next.1 = .error e → OnLine source e.position := by
  obtain ⟨gap, hgap, -⟩ := Cursor.skip_spans .space lx.cursor.rest lx.cursor.offset lx.cursor.line
  have herror := @Cursor.skip_onLine source .space lx.cursor.rest lx.cursor.offset lx.cursor.line h trivial
  have hreached := h.behind hgap
  unfold next
  cases hskip : lx.cursor.skipGap with
  | mk result cur =>
    rw [show Cursor.skip .space _ _ _ = (result, cur) from hskip] at hreached herror
    cases result with
    | error e => exact ⟨hreached, nofun, fun e' he => herror (congrArg Except.error (Except.error.inj he))⟩
    | ok =>
      obtain ⟨_, -, -, -, hat⟩ := Cursor.skipGap_eq_ok hskip
      obtain ⟨⟨passed, hpassed, -⟩, htoken, hfault⟩ := scan_spans lx.lexicon cur
      have honLine := hreached.onLine_of_atToken hat
      refine ⟨hreached.behind hpassed, ?_, ?_⟩
      · intro t ht
        obtain ⟨hposition, htline⟩ := htoken t ht
        rw [hposition, htline]
        exact ⟨honLine, hreached.place.2⟩
      · intro e he
        rwa [hfault e he]

/-- A token is spelled on one line, and what a lexical error quotes is on one line. -/
theorem next_oneLine (lx : Lexer) :
    (∀ t, lx.next.1 = .ok t → OneLine t.text) ∧ ∀ e, lx.next.1 = .error e → e.problem.QuotesOnly OneLine := by
  unfold next
  cases hskip : lx.cursor.skipGap with
  | mk result cur =>
    cases result with
    | error e =>
      refine ⟨nofun, ?_⟩
      rintro e' ⟨⟩
      have hskipped : (Cursor.skip .space lx.cursor.rest lx.cursor.offset lx.cursor.line).1 = .error e := congrArg Prod.fst hskip
      rcases Cursor.skip_eq_error hskipped with hproblem | hproblem
      · exact .nothing (by rw [hproblem]; rfl)
      · exact .nothing (by rw [hproblem]; rfl)
    | ok =>
      obtain ⟨_, -, -, -, hat⟩ := Cursor.skipGap_eq_ok hskip
      exact scan_oneLine lx.lexicon hat

/-- A token or an error that is read in a text is at a boundary, a token on the line of its position, and a place further on is
reached. -/
theorem next_reachedIn {lx : Lexer} (h : lx.cursor.ReachedIn source) :
    lx.next.2.cursor.ReachedIn source ∧
      (∀ t, lx.next.1 = .ok t → OnBoundary source t.position ∧ t.line = (Location.ofOffset source.toList t.position).line) ∧
      ∀ e, lx.next.1 = .error e → OnBoundary source e.position := by
  obtain ⟨hreached, htoken, herror⟩ := next_onLine h
  refine ⟨hreached, ?_, fun e he => (herror e he).onBoundary⟩
  intro t ht
  obtain ⟨honLine, hline⟩ := htoken t ht
  exact ⟨honLine.onBoundary, hline⟩

theorem after_reachedIn (source : String) (l : Lexicon) (n : Nat) : ((start source l).after n).cursor.ReachedIn source := by
  induction n with
  | zero => exact .start source
  | succ n ih => exact (next_reachedIn ih).1

end Lexer

/-! ## All tokens -/

/-- What the lexer gives while a text is read: a token, the token for the end, or the error that stops it. -/
inductive Scan.Gives (s : Scan) : Except SourceError Token → Prop
  | token {t : Token} : t ∈ s.tokens → Gives s (.ok t)
  | endOfInput {eof : Token} : s.ending = .endOfInput eof → Gives s (.ok eof)
  | error {e : SourceError} : s.ending = .error e → Gives s (.error e)

/-- It is given at a place in the text, if the text is read to the end. The induction is on the number of tokens that may be read. -/
theorem Scan.Gives.exists_next {source : String} {fuel : Nat} {lx : Lexer} (hlx : lx.cursor.ReachedIn source)
    (hfuel : lx.cursor.rest.length < fuel) {given : Except SourceError Token} (h : (Scan.read fuel lx).Gives given) :
    ∃ lx' : Lexer, lx'.cursor.ReachedIn source ∧ lx'.next.1 = given := by
  induction fuel generalizing lx with
  | zero => nomatch hfuel
  | succ fuel ih =>
    have hreached := (Lexer.next_onLine hlx).1
    cases hnext : lx.next with
    | mk result lx' =>
      have hhere : lx.next.1 = result := congrArg Prod.fst hnext
      rw [hnext] at hreached
      cases result with
      | error e =>
        rw [Scan.read, hnext] at h
        rcases h with ht | hending | hending
        · cases ht
        · cases hending
        · obtain rfl := Ending.error.inj hending
          exact ⟨lx, hlx, hhere⟩
      | ok t =>
        by_cases hk : t.kind = .endOfInput
        · rw [Scan.read_of_end hnext hk] at h
          rcases h with ht | hending | hending
          · cases ht
          · obtain rfl := Ending.endOfInput.inj hending
            exact ⟨lx, hlx, hhere⟩
          · cases hending
        · have hrest : lx.cursor.rest ≠ [] := by
            intro hend
            obtain rfl := Except.ok.inj (congrArg Prod.fst (hnext.symm.trans (Lexer.next_of_end hend)))
            exact hk rfl
          have hshorter : lx'.cursor.rest.length < fuel := by
            obtain ⟨passed, hne, hspans⟩ := Lexer.next_spans hrest
            rw [hnext] at hspans
            exact Nat.lt_of_lt_of_le (hspans.length_lt hne) (Nat.le_of_lt_succ hfuel)
          rw [Scan.read_of_token hnext hk] at h
          rcases h with ht | hending | hending
          · rcases List.mem_cons.1 ht with rfl | ht
            · exact ⟨lx, hlx, hhere⟩
            · exact ih hreached hshorter (.token ht)
          · exact ih hreached hshorter (.endOfInput hending)
          · exact ih hreached hshorter (.error hending)

/-- In reading a text from its beginning nothing else is given. -/
theorem Scan.Gives.exists_next_of_text {source : String} {given : Except SourceError Token} (h : (Scan.of source).Gives given) :
    ∃ lx : Lexer, lx.cursor.ReachedIn source ∧ lx.next.1 = given :=
  h.exists_next (.start source) (Nat.lt_succ_self _)

/-- A position that a text which is read has: that of a token, that of its end, or that of the error that stops it. -/
inductive Scan.Points (s : Scan) : Nat → Prop
  | token {t : Token} : s.Gives (.ok t) → Points s t.position
  | error {e : SourceError} : s.Gives (.error e) → Points s e.position

/-- They are on lines of the text. -/
theorem Scan.Points.onLine {source : String} {position : Nat} (h : (Scan.of source).Points position) : OnLine source position := by
  cases h with
  | token ht =>
    obtain ⟨lx, hlx, hnext⟩ := ht.exists_next_of_text
    exact ((Lexer.next_onLine hlx).2.1 _ hnext).1
  | error he =>
    obtain ⟨lx, hlx, hnext⟩ := he.exists_next_of_text
    exact (Lexer.next_onLine hlx).2.2 _ hnext

/-! ## The compiler -/

/-- What is so of the tokens of a text: they are where the text says, and each of them is spelled on one line. -/
def Likeness.ofText (source : String) : Likeness := ⟨fun position _ => (Scan.of source).Points position, OneLine⟩

theorem Token.alike_self {source : String} {t : Token} (h : (Scan.of source).Gives (.ok t)) : t.Alike (.ofText source) t := by
  obtain ⟨lx, -, hnext⟩ := h.exists_next_of_text
  exact ⟨rfl, rfl, .token h, lx.next_oneLine.1 t hnext⟩

/-- A text is read like itself. -/
theorem Reading.alike_self (source : String) : (ofText source).Alike (.ofText source) (ofText source) where
  tokens := List.forall₂_same.2 fun _ ht => Token.alike_self (.token ht)
  ending := by
    change Ending.Alike _ (Scan.of source).ending (Scan.of source).ending
    cases h : (Scan.of source).ending with
    | endOfInput eof => exact .endOfInput (Token.alike_self (.endOfInput h))
    | error e =>
      have hgiven : (Scan.of source).Gives (.error e) := .error h
      obtain ⟨lx, -, hnext⟩ := hgiven.exists_next_of_text
      exact .error e.problem (lx.next_oneLine.2 e hnext) (.error hgiven)
  words := rfl

/-- A text is refused at one of its tokens, at its end or for its lexical error, and what is quoted of it is on one line. Only a
command that is asked for and missing is refused at position 0, and quoted as it was asked for. -/
theorem refused_at_point {source : String} {asked : Option String} {e : SourceError} (h : compile source asked = .error e) :
    (Scan.of source).Points e.position ∧ e.problem.QuotesOnly OneLine ∨
      ∃ name, asked = some name ∧ e = ⟨.undefinedCommand name, 0⟩ := by
  rcases compile_alike (Reading.alike_self source) asked with hall | ⟨name, _, hasked, -, -, hrefused, -⟩
  · rw [h] at hall
    cases hall with
    | error problem hquotes hq => exact .inl ⟨hq, hquotes⟩
  · rw [h] at hrefused
    exact .inr ⟨name, hasked, Except.error.inj hrefused⟩

end GridRobot

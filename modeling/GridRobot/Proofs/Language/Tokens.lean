import GridRobot.Proofs.Language.Spacing
import GridRobot.Proofs.Text.Places

/-!
# What the lexer makes of a text

The tokens of a text are its words, numerals and signs, whole and one behind the other, with nothing but spacing between them, so
nothing of the text is lost (`lexing_loses_nothing`). The spellings are read back from the lexicon: it only grows, and it knows the
reserved words from the beginning.
-/

namespace GridRobot

open Text

/-! ## Kinds -/

namespace Kind

/-- The kind of a word: its own if it is reserved, and otherwise that of an identifier. -/
def ofWord (spelling : String) : Kind := (keywords.lookup spelling).getD .identifier

/-- The kind of a word is that of a reserved word if and only if the word is spelled like it. -/
theorem ofWord_eq_iff {spelling : String} {k : Kind} (hk : k.isKeyword = true) :
    ofWord spelling = k ↔ (spelling, k) ∈ keywords := by
  have hreserved : ∀ entry ∈ keywords, ofWord entry.1 = entry.2 := by decide
  constructor
  · intro h
    unfold ofWord at h
    cases hl : keywords.lookup spelling with
    | none =>
      rw [hl] at h
      subst h
      nomatch hk
    | some k' =>
      rw [hl] at h
      obtain rfl : k' = k := h
      obtain ⟨before, after, hkeywords, -⟩ := List.lookup_eq_some_iff.1 hl
      rw [hkeywords]
      exact List.mem_append_right _ List.mem_cons_self
  · exact hreserved (spelling, k)

/-- A word that is not reserved is an identifier. -/
theorem ofWord_eq_identifier {spelling : String} (h : ∀ k, (spelling, k) ∉ keywords) : ofWord spelling = .identifier := by
  unfold ofWord
  cases hl : keywords.lookup spelling with
  | none => rfl
  | some k =>
    obtain ⟨before, after, hkeywords, -⟩ := List.lookup_eq_some_iff.1 hl
    exact absurd (hkeywords ▸ List.mem_append_right _ List.mem_cons_self) (h k)

theorem ofWord_ne_endOfInput (spelling : String) : ofWord spelling ≠ .endOfInput := by
  have hreserved : ∀ entry ∈ keywords, entry.2 ≠ .endOfInput := by decide
  unfold ofWord
  cases hl : keywords.lookup spelling with
  | none => exact nofun
  | some k =>
    obtain ⟨before, after, hkeywords, -⟩ := List.lookup_eq_some_iff.1 hl
    exact hreserved (spelling, k) (hkeywords ▸ List.mem_append_right _ List.mem_cons_self)

end Kind

/-! ## Whole tokens -/

/-- A token of a kind in front of the rest of a text. Words and numerals go on as far as they can. -/
inductive Token.Whole : Kind → List Char → (rest : List Char) → Prop where
  | number {first : Char} {digits rest : List Char} : first.isDigit = true → (∀ c ∈ digits, c.isDigit = true) →
      (∀ c ∈ rest.head?, c.isDigit = false) → Whole .number (first :: digits) rest
  | word {first : Char} {letters rest : List Char} : Lexer.isWordStart first = true →
      (∀ c ∈ letters, Lexer.isWordPart c = true) → (∀ c ∈ rest.head?, Lexer.isWordPart c = false) →
      Whole (Kind.ofWord (String.ofList (first :: letters))) (first :: letters) rest
  | sign {spelling : String} {kind : Kind} {rest : List Char} : (spelling, kind) ∈ Kind.signs →
      Whole kind spelling.toList rest

namespace Token.Whole

variable {kind : Kind} {text rest : List Char}

theorem ne_nil (h : Whole kind text rest) : text ≠ [] := by
  cases h with
  | number | word => exact List.cons_ne_nil _ _
  | sign hmem =>
    have hsigns : ∀ entry ∈ Kind.signs, entry.1.toList ≠ [] := by decide
    exact hsigns _ hmem

/-- No token is the end of a text. -/
theorem kind_ne (h : Whole kind text rest) : kind ≠ .endOfInput := by
  cases h with
  | number => exact nofun
  | word => exact Kind.ofWord_ne_endOfInput _
  | sign hmem =>
    have hsigns : ∀ entry ∈ Kind.signs, entry.2 ≠ .endOfInput := by decide
    exact hsigns _ hmem

/-- A token is a reserved word if and only if it is spelled like it. -/
theorem kind_eq_iff (h : Whole kind text rest) {k : Kind} (hk : k.isKeyword = true) :
    kind = k ↔ (String.ofList text, k) ∈ Kind.keywords := by
  cases h with
  | word => exact Kind.ofWord_eq_iff hk
  | @number first digits _ hfirst _ _ =>
    have hletters : ∀ entry ∈ Kind.keywords, entry.1.toList.head?.any Char.isDigit = false := by decide
    constructor
    · rintro rfl
      nomatch hk
    · intro hmem
      have hno := hletters _ hmem
      simp [hfirst] at hno
  | @sign spelling _ _ hsign =>
    rw [String.ofList_toList]
    constructor
    · rintro rfl
      have hsigns : ∀ entry ∈ Kind.signs, entry.2.isKeyword = false := by decide
      rw [hsigns _ hsign] at hk
      nomatch hk
    · intro hmem
      have hsigns : ∀ entry ∈ Kind.keywords, ∀ sign ∈ Kind.signs, sign.1 ≠ entry.1 := by decide
      exact (hsigns _ hmem _ hsign rfl).elim

end Token.Whole

/-! ## The lexicon -/

namespace Lexicon

/-- Whether a spelling begins as a word does. -/
def beginsWord (spelling : String) : Bool := spelling.toList.head?.any Lexer.isWordStart

/-- A lexicon that has been used for texts only: it goes on from that of the language, and it has every word with its kind. -/
structure Regular (l : Lexicon) : Prop where
  standard : Kind.fixed <+: l.entries
  words : ∀ entry ∈ l.entries, beginsWord entry.1 = true → entry.2 = Kind.ofWord entry.1

theorem regular_standard : standard.Regular where
  standard := List.prefix_rfl
  words := by decide

variable {l l' : Lexicon} {spelling : String} {kind k : Kind} {symbol : Nat}

/-- A symbol keeps its spelling when the lexicon grows. -/
theorem get?_of_prefix (h : l.entries <+: l'.entries) (hs : l.get? symbol = some spelling) :
    l'.get? symbol = some spelling := by
  obtain ⟨entry, hentry, rfl⟩ := Option.map_eq_some_iff.1 hs
  obtain ⟨more, hmore⟩ := h
  have hlt := (List.getElem?_eq_some_iff.1 hentry).1
  exact Option.map_eq_some_iff.2 ⟨entry, by rw [← hmore, List.getElem?_append_left hlt, hentry], rfl⟩

/-- Entering a spelling gives a symbol of it, and the kind that the lexicon has it with then. Only a spelling that was not in the
lexicon is added. -/
theorem enter_eq (h : l.enter spelling kind = ((symbol, k), l')) :
    l.entries <+: l'.entries ∧ l'.get? symbol = some spelling ∧ (spelling, k) ∈ l'.entries ∧
      ∀ entry ∈ l'.entries, entry ∈ l.entries ∨ entry = (spelling, kind) ∧ ∀ k', (spelling, k') ∉ l.entries := by
  unfold enter at h
  split at h
  · rename_i found hfound
    obtain ⟨⟨rfl, rfl⟩, rfl⟩ : (found = symbol ∧ _ = k) ∧ l = l' := by simpa using h
    obtain ⟨hlt, hspelling, -⟩ := List.findIdx?_eq_some_iff_getElem.1 hfound
    rw [beq_iff_eq] at hspelling
    refine ⟨List.prefix_rfl, Option.map_eq_some_iff.2 ⟨_, List.getElem?_eq_getElem hlt, hspelling⟩, ?_,
      fun entry hentry => .inl hentry⟩
    cases hk : l.kind? spelling with
    | some k =>
      obtain ⟨before, after, hentries, -⟩ := List.lookup_eq_some_iff.1 hk
      rw [hentries]
      exact List.mem_append_right _ List.mem_cons_self
    | none =>
      have := List.lookup_eq_none_iff.1 hk _ (List.getElem_mem hlt)
      rw [hspelling] at this
      simp at this
  · rename_i hnone
    obtain ⟨⟨rfl, rfl⟩, rfl⟩ : (l.size = symbol ∧ kind = k) ∧ (⟨l.entries ++ [(spelling, kind)]⟩ : Lexicon) = l' := by
      simpa using h
    have hnew : ∀ k', (spelling, k') ∉ l.entries := by
      intro k' hmem
      have := List.findIdx?_eq_none_iff.1 hnone _ hmem
      simp at this
    refine ⟨List.prefix_append _ _, ?_, List.mem_append_right _ List.mem_cons_self, ?_⟩
    · unfold get? size
      rw [List.getElem?_concat_length]
      rfl
    · intro entry hentry
      rcases List.mem_append.1 hentry with hold | hadded
      · exact .inl hold
      · exact .inr ⟨List.mem_singleton.1 hadded, hnew⟩

/-- Entering a spelling keeps a lexicon regular if the spelling is new as a word of its kind, or as no word. -/
theorem Regular.enter (hl : l.Regular) (h : l.enter spelling kind = ((symbol, k), l'))
    (hkind : beginsWord spelling = true → (∀ k', (spelling, k') ∉ Kind.keywords) → kind = Kind.ofWord spelling) :
    l'.Regular := by
  obtain ⟨hgrow, -, -, honly⟩ := enter_eq h
  refine ⟨hl.standard.trans hgrow, ?_⟩
  intro entry hentry hword
  rcases honly entry hentry with hold | ⟨rfl, hnew⟩
  · exact hl.words entry hold hword
  · refine hkind hword fun k' hk' => hnew k' (hl.standard.subset ?_)
    exact List.mem_append_left _ hk'

/-- Entering a word gives the kind of the word. -/
theorem Regular.word (hl : l.Regular) (h : l.word spelling = ((symbol, k), l')) (hw : beginsWord spelling = true) :
    l'.Regular ∧ l.entries <+: l'.entries ∧ l'.get? symbol = some spelling ∧ k = Kind.ofWord spelling := by
  have hl' : l'.Regular := hl.enter h fun _ hk => (Kind.ofWord_eq_identifier hk).symm
  obtain ⟨hgrow, hget, hmem, -⟩ := enter_eq h
  exact ⟨hl', hgrow, hget, hl'.words _ hmem hw⟩

/-- Entering a numeral gives a symbol of it. -/
theorem Regular.number (hl : l.Regular) (h : l.number spelling = (symbol, l')) (hw : beginsWord spelling = false) :
    l'.Regular ∧ l.entries <+: l'.entries ∧ l'.get? symbol = some spelling := by
  unfold Lexicon.number at h
  cases he : l.enter spelling .number with
  | mk entry _ =>
    rw [he] at h
    obtain ⟨rfl, rfl⟩ := Prod.mk.inj h
    obtain ⟨hgrow, hget, -, -⟩ := enter_eq he
    exact ⟨hl.enter he fun h => absurd h (by rw [hw]; exact Bool.false_ne_true), hgrow, hget⟩

end Lexicon

/-! ## One token -/

/-- Between two places stands a token of which the lexicon has the spelling. -/
structure Token.Stands (l : Lexicon) (cur : Cursor) (t : Token) (cur' : Cursor) : Prop where
  spans : cur.Spans t.text.toList cur'
  whole : Whole t.kind t.text.toList cur'.rest
  position : t.position = cur.offset
  line : t.line = cur.line
  known : t.symbol.bind l.get? = some t.text

/-- A token stands where it stands when the lexicon grows. -/
theorem Token.Stands.grow {l l' : Lexicon} {cur cur' : Cursor} {t : Token} (h : t.Stands l cur cur')
    (hl : l.entries <+: l'.entries) : t.Stands l' cur cur' := by
  refine { h with known := ?_ }
  obtain ⟨symbol, hsymbol, hget⟩ := Option.bind_eq_some_iff.1 h.known
  rw [hsymbol]
  exact Lexicon.get?_of_prefix hl hget

namespace Cursor

/-- A piece with no newline that goes on as long as a test holds: every character of it passes, and the one behind it does not. -/
theorem takeWhile_eq {cur cur' : Cursor} {p : Char → Bool} {piece : List Char} (h : cur.takeWhile p = (piece, cur'))
    (hp : p '\n' = false) :
    cur.Spans piece cur' ∧ (∀ c ∈ piece, p c = true) ∧ ∀ c ∈ cur'.rest.head?, p c = false := by
  obtain ⟨rfl, rfl⟩ := Prod.mk.inj h
  have hall : ∀ c ∈ cur.rest.takeWhile p, p c = true := List.all_eq_true.1 List.all_takeWhile
  refine ⟨⟨List.takeWhile_append_dropWhile.symm, rfl, ?_⟩, hall, ?_⟩
  · have hnewline : '\n' ∉ cur.rest.takeWhile p := fun hmem => absurd (hall _ hmem) (by rw [hp]; exact Bool.false_ne_true)
    rw [List.count_eq_zero.2 hnewline]
    rfl
  · intro c hc
    have := List.head?_dropWhile_not p cur.rest
    rw [hc] at this
    exact this

/-- The piece begins with the first character ahead if this passes the test. -/
theorem takeWhile_first {cur cur' : Cursor} {p : Char → Bool} {piece rest : List Char} {c : Char}
    (h : cur.takeWhile p = (piece, cur')) (hrest : cur.rest = c :: rest) (hc : p c = true) :
    ∃ tail, piece = c :: tail := by
  have hpiece : cur.rest.takeWhile p = piece := (Prod.mk.inj h).1
  rw [hrest, List.takeWhile_cons_of_pos hc] at hpiece
  exact ⟨_, hpiece.symm⟩

end Cursor

namespace Lexer

/-! ### The characters of words and numerals -/

theorem isDigit_iff {c : Char} : c.isDigit = true ↔ '0' ≤ c ∧ c ≤ '9' := by
  simp only [Char.isDigit, Bool.and_eq_true, decide_eq_true_eq, ge_iff_le, Char.le_def]

/-- A word begins with a letter from `A` to `Z` or from `a` to `z` or with an underscore. -/
theorem isWordStart_iff {c : Char} : isWordStart c = true ↔ ('A' ≤ c ∧ c ≤ 'Z' ∨ 'a' ≤ c ∧ c ≤ 'z') ∨ c = '_' := by
  delta isWordStart Char.isAlpha Char.isUpper Char.isLower
  simp only [Bool.or_eq_true, Bool.and_eq_true, decide_eq_true_eq, beq_iff_eq, ge_iff_le, Char.le_def]

/-- A word goes on with what it can begin with and with the digits from `0` to `9`. -/
theorem isWordPart_iff {c : Char} : isWordPart c = true ↔ isWordStart c = true ∨ '0' ≤ c ∧ c ≤ '9' := by
  rw [← isDigit_iff, isWordPart, isWordStart, Char.isAlphanum, Bool.or_eq_true, Bool.or_eq_true, Bool.or_eq_true, or_right_comm]

/-- No word begins with a digit. -/
theorem isWordStart_of_isDigit {c : Char} (h : c.isDigit = true) : isWordStart c = false := by
  have hnine := (isDigit_iff.1 h).2
  rw [Bool.eq_false_iff, Ne, isWordStart_iff]
  rintro ((⟨hc, -⟩ | ⟨hc, -⟩) | rfl)
  · exact absurd (Char.le_trans hc hnine) (by decide)
  · exact absurd (Char.le_trans hc hnine) (by decide)
  · exact absurd hnine (by decide)

/-- What a word begins with, it can go on with. -/
theorem isWordPart_of_isWordStart {c : Char} (h : isWordStart c = true) : isWordPart c = true := isWordPart_iff.2 (.inl h)

/-! ### Signs -/

/-- A sign is read off the beginning of a text. -/
theorem sign_eq_ok {c : Char} {rest : List Char} {kind : Kind} {size : Nat} (h : sign c rest = .ok (kind, size)) :
    ∃ spelling, (spelling, kind) ∈ Kind.signs ∧ (c :: rest).take size = spelling.toList ∧
      size = byteLength spelling.toList ∧ '\n' ∉ spelling.toList := by
  unfold sign at h
  split at h
  all_goals cases h
  · exact ⟨"(", by decide, rfl, rfl, by decide⟩
  · exact ⟨")", by decide, rfl, rfl, by decide⟩
  · exact ⟨";", by decide, rfl, rfl, by decide⟩
  · exact ⟨"\x7b", by decide, rfl, rfl, by decide⟩
  · exact ⟨"\x7d", by decide, rfl, rfl, by decide⟩
  · exact ⟨"!", by decide, rfl, rfl, by decide⟩
  · exact ⟨"&&", by decide, rfl, rfl, by decide⟩
  · exact ⟨"||", by decide, rfl, rfl, by decide⟩

variable {l : Lexicon} {cur : Cursor} {c : Char} {rest : List Char} {t : Token} {lx : Lexer}

/-- Where no sign begins, an operator lacks its second character, or the character is not of the language. -/
theorem sign_eq_error {c : Char} {rest : List Char} {problem : Problem} (h : sign c rest = .error problem) :
    problem = .loneAmpersand ∨ problem = .loneBar ∨ problem = .strayCharacter c := by
  unfold sign at h
  split at h
  all_goals cases h
  · exact .inl rfl
  · exact .inr (.inl rfl)
  · exact .inr (.inr rfl)

/-- What reading a token leaves: a lexicon that has grown, and the token between the two places unless the text ends. -/
def Reads (l : Lexicon) (cur : Cursor) (t : Token) (lx : Lexer) : Prop :=
  lx.lexicon.Regular ∧ l.entries <+: lx.lexicon.entries ∧
    (cur.rest = [] ∧ t = Token.endOf cur ∧ lx.cursor = cur ∨ t.Stands lx.lexicon cur lx.cursor)

theorem reads_number (hl : l.Regular) (hrest : cur.rest = c :: rest) (hc : c.isDigit = true) {digits : List Char}
    {next : Cursor} {symbol : Nat} {l' : Lexicon} (htake : cur.takeWhile Char.isDigit = (digits, next))
    (hnumber : l.number (String.ofList digits) = (symbol, l')) :
    Reads l cur ⟨.number, some symbol, String.ofList digits, cur.offset, cur.line⟩ ⟨next, l'⟩ := by
  obtain ⟨hspans, hdigits, hnext⟩ := Cursor.takeWhile_eq htake rfl
  obtain ⟨tail, rfl⟩ := Cursor.takeWhile_first htake hrest hc
  have hword : Lexicon.beginsWord (String.ofList (c :: tail)) = false := by
    simp [Lexicon.beginsWord, isWordStart_of_isDigit hc]
  obtain ⟨hl', hgrow, hget⟩ := hl.number hnumber hword
  refine ⟨hl', hgrow, .inr ⟨?_, ?_, rfl, rfl, hget⟩⟩
  · rwa [String.toList_ofList]
  · rw [String.toList_ofList]
    exact .number hc (fun d hd => hdigits d (List.mem_cons_of_mem _ hd)) hnext

theorem reads_word (hl : l.Regular) (hrest : cur.rest = c :: rest) (hc : isWordStart c = true) {letters : List Char}
    {next : Cursor} {symbol : Nat} {kind : Kind} {l' : Lexicon} (htake : cur.takeWhile isWordPart = (letters, next))
    (hword : l.word (String.ofList letters) = ((symbol, kind), l')) :
    Reads l cur ⟨kind, some symbol, String.ofList letters, cur.offset, cur.line⟩ ⟨next, l'⟩ := by
  obtain ⟨hspans, hletters, hnext⟩ := Cursor.takeWhile_eq htake rfl
  obtain ⟨tail, rfl⟩ := Cursor.takeWhile_first htake hrest (isWordPart_of_isWordStart hc)
  have hbegins : Lexicon.beginsWord (String.ofList (c :: tail)) = true := by simp [Lexicon.beginsWord, hc]
  obtain ⟨hl', hgrow, hget, rfl⟩ := hl.word hword hbegins
  refine ⟨hl', hgrow, .inr ⟨?_, ?_, rfl, rfl, hget⟩⟩
  · rwa [String.toList_ofList]
  · rw [String.toList_ofList]
    exact .word hc (fun d hd => hletters d (List.mem_cons_of_mem _ hd)) hnext

/-- A sign takes up as many characters as it has bytes. -/
theorem spans_sign (hrest : cur.rest = c :: rest) {kind : Kind} {size : Nat} (hsign : sign c rest = .ok (kind, size)) :
    cur.Spans (cur.rest.take size) ⟨cur.rest.drop size, cur.offset + size, cur.line⟩ := by
  obtain ⟨spelling, -, htake, hsize, hnewline⟩ := sign_eq_ok hsign
  rw [← hrest] at htake
  refine ⟨(List.take_append_drop _ _).symm, ?_, ?_⟩
  · rw [htake, ← hsize]
  · rw [htake, List.count_eq_zero.2 hnewline]
    rfl

theorem reads_sign (hl : l.Regular) (hrest : cur.rest = c :: rest) {kind : Kind} {size : Nat}
    (hsign : sign c rest = .ok (kind, size)) :
    Reads l cur ⟨kind, Lexicon.symbolOf? kind, String.ofList (cur.rest.take size), cur.offset, cur.line⟩
      ⟨⟨cur.rest.drop size, cur.offset + size, cur.line⟩, l⟩ := by
  have hsymbols : ∀ entry ∈ Kind.signs, (Lexicon.symbolOf? entry.2).bind Lexicon.standard.get? = some entry.1 := by
    decide
  obtain ⟨spelling, hmem, htake, -, -⟩ := sign_eq_ok hsign
  obtain ⟨symbol, hsymbol, hget⟩ := Option.bind_eq_some_iff.1 (hsymbols _ hmem)
  have hspans := spans_sign hrest hsign
  rw [← hrest] at htake
  rw [htake] at hspans
  rw [htake, String.ofList_toList, hsymbol]
  exact ⟨hl, List.prefix_rfl, .inr ⟨hspans, .sign hmem, rfl, rfl, Lexicon.get?_of_prefix hl.standard hget⟩⟩

/-- A token that is read where a token begins stands there, unless the text ends. -/
theorem scan_eq_ok (hl : l.Regular) (h : scan l cur = (.ok t, lx)) : Reads l cur t lx := by
  unfold scan at h
  split at h
  · rename_i hrest
    obtain ⟨rfl, rfl⟩ := by simpa using h
    exact ⟨hl, List.prefix_rfl, .inl ⟨hrest, rfl, rfl⟩⟩
  · rename_i c rest hrest
    split at h
    · rename_i hc
      obtain ⟨rfl, rfl⟩ := by simpa using h
      exact reads_number hl hrest hc rfl rfl
    · split at h
      · rename_i hc
        obtain ⟨rfl, rfl⟩ := by simpa using h
        exact reads_word hl hrest hc rfl rfl
      · split at h
        · rename_i hsign
          obtain ⟨rfl, rfl⟩ := by simpa using h
          exact reads_sign hl hrest hsign
        · nomatch h

/-- The next token stands behind spacing, unless the text ends there. -/
theorem next_eq_ok {lx lx' : Lexer} (hl : lx.lexicon.Regular) (h : lx.next = (.ok t, lx')) :
    ∃ cur, lx.cursor.Crosses [] cur ∧ Reads lx.lexicon cur t lx' := by
  unfold next at h
  cases hskip : lx.cursor.skipGap with
  | mk result cur =>
    rw [hskip] at h
    cases result with
    | error e => nomatch h
    | ok => exact ⟨cur, Cursor.skipGap_eq_ok hskip, scan_eq_ok hl h⟩

end Lexer

/-! ## All tokens -/

/-- Tokens one behind the other between two places, each with the spacing in front of it. -/
inductive Laid (l : Lexicon) : Cursor → List (List Char × Token) → Cursor → Prop where
  | nil (cur : Cursor) : Laid l cur [] cur
  | cons {cur before behind cur' : Cursor} {gap : List Char} {t : Token} {pieces : List (List Char × Token)} :
      cur.Spans gap before → Spacing gap → t.Stands l before behind → Laid l behind pieces cur' →
      Laid l cur ((gap, t) :: pieces) cur'

/-- The text of tokens with what is in front of each. -/
def spelled (pieces : List (List Char × Token)) : List Char := pieces.flatMap fun piece => piece.1 ++ piece.2.text.toList

namespace Laid

variable {l : Lexicon} {cur cur' : Cursor} {pieces before after : List (List Char × Token)} {gap : List Char} {t : Token}

/-- Tokens take up their text. -/
theorem spans (h : Laid l cur pieces cur') : cur.Spans (spelled pieces) cur' := by
  induction h with
  | nil cur => exact .refl cur
  | cons hgap _ hstands _ ih => exact (hgap.trans hstands.spans).trans ih

/-- Each of the tokens has its place. -/
theorem split (h : Laid l cur (before ++ (gap, t) :: after) cur') :
    ∃ at' behind, cur.Spans (spelled before ++ gap) at' ∧ Spacing gap ∧ t.Stands l at' behind ∧
      Laid l behind after cur' := by
  induction before generalizing cur with
  | nil =>
    obtain _ | ⟨hgap, hspacing, hstands, hafter⟩ := h
    exact ⟨_, _, hgap, hspacing, hstands, hafter⟩
  | cons piece before ih =>
    obtain _ | ⟨hgap, -, hstands, hrest⟩ := h
    obtain ⟨at', behind, hspans, hlater⟩ := ih hrest
    refine ⟨at', behind, ?_, hlater⟩
    have := (hgap.trans hstands.spans).trans hspans
    rwa [← List.append_assoc] at this

/-- No token begins in front of the place where they begin. -/
theorem offset_le (h : Laid l cur pieces cur') : ∀ piece ∈ pieces, cur.offset ≤ piece.2.position := by
  rintro ⟨gap, t⟩ hmem
  obtain ⟨before, after, rfl⟩ := List.append_of_mem hmem
  obtain ⟨at', behind, hspans, -, hstands, -⟩ := h.split
  rw [hstands.position, hspans.offset]
  exact Nat.le_add_right _ _

/-- The tokens begin one behind the other, none before the end of the one in front of it. -/
theorem ordered (h : Laid l cur pieces cur') :
    (pieces.map (·.2)).Pairwise fun t u => t.position < u.position ∧ t.position + t.text.utf8ByteSize ≤ u.position := by
  induction h with
  | nil cur => exact .nil
  | @cons _ before behind _ _ t pieces _ _ hstands hrest ih =>
    refine List.pairwise_cons.2 ⟨?_, ih⟩
    intro u hu
    obtain ⟨piece, hpiece, rfl⟩ := List.mem_map.1 hu
    have hend : behind.offset = t.position + t.text.utf8ByteSize := by
      rw [hstands.spans.offset, hstands.position, utf8ByteSize_eq]
    have hlater : behind.offset ≤ piece.2.position := hrest.offset_le piece hpiece
    have hsize : 0 < t.text.utf8ByteSize := by
      rw [utf8ByteSize_eq]
      exact byteLength_pos hstands.whole.ne_nil
    rw [hend] at hlater
    exact ⟨Nat.lt_of_lt_of_le (Nat.lt_add_of_pos_right hsize) hlater, hlater⟩

end Laid

namespace Scan

/-- Reading stops with the token that stands for the end. -/
theorem read_of_end {lx lx' : Lexer} {t : Token} (h : lx.next = (.ok t, lx')) (hk : t.kind = .endOfInput) (fuel : Nat) :
    read (fuel + 1) lx = ⟨[], .endOfInput t, lx'.lexicon⟩ := by
  rw [read, h]
  exact if_pos hk

/-- Reading goes on behind any other token. -/
theorem read_of_token {lx lx' : Lexer} {t : Token} (h : lx.next = (.ok t, lx')) (hk : t.kind ≠ .endOfInput) (fuel : Nat) :
    read (fuel + 1) lx = { read fuel lx' with tokens := t :: (read fuel lx').tokens } := by
  rw [read, h]
  exact if_neg hk

/-- What is read up to the end of a text is tokens one behind the other, and then spacing. The induction is on the number of tokens
that may be read: each takes a character at least, so they reach to the end. -/
theorem read_endOfInput {fuel : Nat} {lx : Lexer} {eof : Token} (hl : lx.lexicon.Regular)
    (hfuel : lx.cursor.rest.length < fuel) (h : (read fuel lx).ending = .endOfInput eof) :
    lx.lexicon.entries <+: (read fuel lx).lexicon.entries ∧
      ∃ pieces mid last cur, (read fuel lx).tokens = pieces.map (·.2) ∧
        Laid (read fuel lx).lexicon lx.cursor pieces mid ∧ mid.Spans last cur ∧ Spacing.AtEnd last ∧ cur.rest = [] ∧
        eof = Token.endOf cur := by
  induction fuel generalizing lx with
  | zero => nomatch hfuel
  | succ fuel ih =>
    cases hnext : lx.next with
    | mk result lx' =>
    cases result with
    | error e =>
      rw [read, hnext] at h
      nomatch h
    | ok t =>
    obtain ⟨cur, ⟨gap, hgap, hend, hspacing, -⟩, hl', hgrow, hread⟩ := Lexer.next_eq_ok hl hnext
    rcases hread with ⟨hrest, rfl, -⟩ | hstands
    · rw [read_of_end hnext rfl] at h ⊢
      obtain rfl := Ending.endOfInput.inj h
      exact ⟨hgrow, [], _, gap, cur, rfl, .nil _, hgap, hend, hrest, rfl⟩
    · have hshorter := (hgap.trans hstands.spans).length_lt (List.append_ne_nil_of_right_ne_nil _ hstands.whole.ne_nil)
      have hne : cur.rest ≠ [] := by
        rw [hstands.spans.rest]
        exact List.append_ne_nil_of_left_ne_nil hstands.whole.ne_nil _
      rw [read_of_token hnext hstands.whole.kind_ne] at h ⊢
      obtain ⟨hgrow', pieces, mid, last, cur', htokens, hlaid, hrest⟩ := ih hl' (by omega) h
      refine ⟨hgrow.trans hgrow', (gap, t) :: pieces, mid, last, cur', congrArg (t :: ·) htokens, ?_, hrest⟩
      exact .cons hgap (hspacing hne) (hstands.grow hgrow') hlaid

/-- In a text without a lexical error every token has its place. -/
theorem stands_of_mem {source : String} {eof : Token} (h : (of source).ending = .endOfInput eof) :
    ∀ t ∈ (of source).tokens, ∃ before cur behind, (Cursor.start source.toList).Spans before cur ∧
      t.Stands (of source).lexicon cur behind := by
  obtain ⟨-, pieces, mid, last, cur, hscanned, hlaid, -⟩ :=
    read_endOfInput Lexicon.regular_standard (Nat.lt_succ_self _) h
  intro t ht
  rw [show (of source).tokens = pieces.map (·.2) from hscanned] at ht
  obtain ⟨⟨gap, t⟩, hpiece, rfl⟩ := List.mem_map.1 ht
  obtain ⟨before, after, rfl⟩ := List.append_of_mem hpiece
  obtain ⟨at', behind, hspans, -, hstands, -⟩ := hlaid.split
  exact ⟨spelled before ++ gap, at', behind, hspans, hstands⟩

end Scan

/-- Lexing loses nothing. A text that lexes is its tokens, one behind the other, with spacing in front of each and behind the last,
and then comes the token for its end. Each token is whole and begins at the byte and in the line it says, its symbol is that of its
spelling, and it is a reserved word if and only if it is spelled like one. -/
theorem lexing_loses_nothing {source : String} {tokens : List Token} {lexicon : Lexicon}
    (h : lex source = .ok (tokens, lexicon)) :
    ∃ pieces last eof, tokens = pieces.map (·.2) ++ [eof] ∧
      source.toList = spelled pieces ++ last ∧ Spacing.AtEnd last ∧
      eof.kind = .endOfInput ∧ eof.position = source.utf8ByteSize ∧
      (pieces.map (·.2)).Pairwise (fun t u => t.position < u.position ∧ t.position + t.text.utf8ByteSize ≤ u.position) ∧
      ∀ before gap t after, pieces = before ++ (gap, t) :: after →
        Spacing gap ∧ t.position = byteLength (spelled before ++ gap) ∧
        t.line = 1 + (spelled before ++ gap).count '\n' ∧ t.symbol.bind lexicon.get? = some t.text ∧
        Token.Whole t.kind t.text.toList (spelled after ++ last) ∧
        ∀ k, k.isKeyword = true → (t.kind = k ↔ (t.text, k) ∈ Kind.keywords) := by
  unfold lex at h
  dsimp only at h
  split at h
  · rename_i eof hending
    obtain ⟨rfl, rfl⟩ := by simpa using h
    obtain ⟨-, pieces, mid, last, cur, htokens, hlaid, hlast, hend, hrest, rfl⟩ :=
      Scan.read_endOfInput Lexicon.regular_standard (Nat.lt_succ_self _) hending
    have hall := hlaid.spans.trans hlast
    have hsource : source.toList = spelled pieces ++ last := by
      have := hall.rest
      rwa [hrest, List.append_nil] at this
    refine ⟨pieces, last, _, congrArg (· ++ [_]) htokens, hsource, hend, rfl, ?_, hlaid.ordered, ?_⟩
    · have := hall.offset
      rw [← hsource, ← utf8ByteSize_eq] at this
      exact this.trans (Nat.zero_add _)
    · rintro before gap t after rfl
      obtain ⟨at', behind, hspans, hspacing, hstands, hafter⟩ := hlaid.split
      have hbehind := (hafter.spans.trans hlast).rest
      rw [hrest, List.append_nil] at hbehind
      refine ⟨hspacing, ?_, ?_, hstands.known, hbehind ▸ hstands.whole, ?_⟩
      · rw [hstands.position, hspans.offset]
        exact Nat.zero_add _
      · rw [hstands.line, hspans.line]
        rfl
      · intro k hk
        have := hstands.whole.kind_eq_iff hk
        rwa [String.ofList_toList] at this
  · nomatch h

/-- A reserved word and an identifier with a comment between them, in which a character takes two bytes, and a comment that the text
ends in. -/
theorem lexing_loses_nothing_of_comments :
    ∃ tokens lexicon, lex "if/**é*/x7 // end" = .ok (tokens, lexicon) ∧
      tokens.map (fun t => (t.text, t.position)) = [("if", 0), ("x7", 9), ("", 18)] ∧
      ∃ pieces last, "if/**é*/x7 // end".toList = spelled pieces ++ last ∧ Spacing.AtEnd last ∧
        ∀ before gap t after, pieces = before ++ (gap, t) :: after →
          Spacing gap ∧ Token.Whole t.kind t.text.toList (spelled after ++ last) := by
  have hok : (lex "if/**é*/x7 // end").toOption.map (fun r => r.1.map fun t => (t.text, t.position)) =
      some [("if", 0), ("x7", 9), ("", 18)] := by decide +kernel
  cases hlex : lex "if/**é*/x7 // end" with
  | error e =>
    rw [hlex] at hok
    nomatch hok
  | ok r =>
    obtain ⟨tokens, lexicon⟩ := r
    rw [hlex] at hok
    obtain ⟨pieces, last, -, -, hsource, hend, -, -, -, hpieces⟩ := lexing_loses_nothing hlex
    refine ⟨tokens, lexicon, rfl, Option.some.inj hok, pieces, last, hsource, hend, ?_⟩
    intro before gap t after hsplit
    obtain ⟨hspacing, -, -, -, hwhole, -⟩ := hpieces before gap t after hsplit
    exact ⟨hspacing, hwhole⟩

end GridRobot

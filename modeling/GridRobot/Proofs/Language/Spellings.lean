import GridRobot.Proofs.Language.Tokens

/-!
# Spellings and their symbols

A lexicon has each spelling once, so a symbol is found from its spelling and the spelling from the symbol. However words and numerals
are entered, this stays so, and what has been entered keeps its symbol and its kind (`spellings_and_symbols`). The reserved words and
the signs are there from the beginning.
-/

namespace GridRobot

namespace Lexicon

/-! ## Entering -/

/-- A spelling that is entered as a word or as a numeral, whatever its characters are. -/
inductive Item where
  | word (spelling : String)
  | number (spelling : String)
  deriving DecidableEq, Repr

/-- The spelling of an item. -/
def Item.spelling : Item → String
  | word spelling | number spelling => spelling

/-- The kind that a spelling gets if it is new. -/
def Item.kind : Item → Kind
  | word _ => .identifier
  | number _ => .number

/-- Enters an item. Gives its symbol and the lexicon behind it. -/
def add (l : Lexicon) : Item → Nat × Lexicon
  | .word spelling => ((l.word spelling).1.1, (l.word spelling).2)
  | .number spelling => l.number spelling

/-- Enters items one after the other. -/
def addAll (l : Lexicon) (items : List Item) : Lexicon := items.foldl (fun l item => (l.add item).2) l

variable {l l' : Lexicon} {spelling other : String} {kind k : Kind} {symbol : Nat}

theorem add_eq (l : Lexicon) (item : Item) :
    l.add item = ((l.enter item.spelling item.kind).1.1, (l.enter item.spelling item.kind).2) := by
  cases item <;> rfl

theorem addAll_cons (l : Lexicon) (item : Item) (items : List Item) :
    l.addAll (item :: items) = (l.add item).2.addAll items := rfl

theorem addAll_append (l : Lexicon) (items later : List Item) : l.addAll (items ++ later) = (l.addAll items).addAll later :=
  List.foldl_append

/-! ## Looking up -/

theorem get?_eq (l : Lexicon) (symbol : Nat) : l.get? symbol = l.spellings[symbol]? := List.getElem?_map.symm

theorem lookup?_eq (l : Lexicon) (spelling : String) : l.lookup? spelling = l.spellings.findIdx? (· == spelling) := by
  rw [spellings, List.findIdx?_map]
  rfl

/-- A spelling has no symbol exactly if the lexicon does not have it. -/
theorem lookup?_eq_none_iff : l.lookup? spelling = none ↔ spelling ∉ l.spellings := by
  rw [lookup?_eq, List.findIdx?_eq_none_iff]
  constructor
  · intro h hmem
    simpa using h spelling hmem
  · rintro h other hother
    rw [beq_eq_false_iff_ne]
    rintro rfl
    exact h hother

/-- In a lexicon without repetitions a symbol is that of a spelling if and only if the spelling is that of the symbol. -/
theorem lookup?_eq_some_iff (h : l.spellings.Nodup) : l.lookup? spelling = some symbol ↔ l.get? symbol = some spelling := by
  rw [lookup?_eq, get?_eq, List.findIdx?_eq_some_iff_getElem]
  constructor
  · rintro ⟨hlt, hspelling, -⟩
    rw [List.getElem?_eq_getElem hlt, beq_iff_eq.1 hspelling]
  · intro hget
    obtain ⟨hlt, hspelling⟩ := List.getElem?_eq_some_iff.1 hget
    refine ⟨hlt, beq_iff_eq.2 hspelling, ?_⟩
    intro earlier hearlier hsame
    have hboth : l.spellings[symbol]? = l.spellings[earlier]? := by
      rw [hget, List.getElem?_eq_getElem (Nat.lt_trans hearlier hlt), beq_iff_eq.1 hsame]
    exact Nat.ne_of_gt hearlier ((List.getElem?_inj hlt h).1 hboth)

/-- A spelling keeps its symbol when the lexicon grows. -/
theorem lookup?_of_prefix (h : l.entries <+: l'.entries) (hs : l.lookup? spelling = some symbol) :
    l'.lookup? spelling = some symbol := by
  obtain ⟨more, hmore⟩ := h
  unfold lookup? at hs ⊢
  rw [← hmore, List.findIdx?_append, hs]
  rfl

/-- A spelling has a kind exactly if the lexicon has it. -/
theorem kind?_isSome_iff : (l.kind? spelling).isSome ↔ spelling ∈ l.spellings := by
  unfold kind? spellings
  rw [← not_iff_not, Bool.not_eq_true, Option.isSome_eq_false_iff, Option.isNone_iff_eq_none, List.lookup_eq_none_iff]
  simp only [bne_iff_ne, List.mem_map, not_exists, not_and, ne_comm]

/-! ## One more spelling -/

/-- A known spelling has its symbol and its kind, and nothing is entered. -/
theorem enter_of_mem (kind : Kind) (h : spelling ∈ l.spellings) :
    ∃ symbol k, l.lookup? spelling = some symbol ∧ l.kind? spelling = some k ∧ l.enter spelling kind = ((symbol, k), l) := by
  obtain ⟨symbol, hsymbol⟩ := Option.ne_none_iff_exists'.1 fun hnone => lookup?_eq_none_iff.1 hnone h
  obtain ⟨k, hk⟩ := Option.isSome_iff_exists.1 (kind?_isSome_iff.2 h)
  refine ⟨symbol, k, hsymbol, hk, ?_⟩
  rw [enter, hsymbol, hk]
  rfl

/-- A new spelling is entered behind the others. -/
theorem enter_of_not_mem (h : spelling ∉ l.spellings) :
    l.enter spelling kind = ((l.size, kind), ⟨l.entries ++ [(spelling, kind)]⟩) := by
  rw [enter, lookup?_eq_none_iff.2 h]

/-- What entering a spelling adds. -/
theorem entries_enter (l : Lexicon) (spelling : String) (kind : Kind) :
    (l.enter spelling kind).2.entries = if spelling ∈ l.spellings then l.entries else l.entries ++ [(spelling, kind)] := by
  split
  · rename_i h
    obtain ⟨_, _, -, -, henter⟩ := enter_of_mem kind h
    rw [henter]
  · rename_i h
    rw [enter_of_not_mem h]

/-- Entering a spelling leaves those in front as they are. -/
theorem prefix_enter (l : Lexicon) (spelling : String) (kind : Kind) : l.entries <+: (l.enter spelling kind).2.entries := by
  rw [entries_enter]
  split
  · exact List.prefix_rfl
  · exact List.prefix_append _ _

/-- No spelling is entered twice. -/
theorem nodup_enter (h : l.spellings.Nodup) : (l.enter spelling kind).2.spellings.Nodup := by
  unfold spellings
  rw [entries_enter]
  split
  · exact h
  · rename_i hnew
    rw [List.map_append, List.nodup_append]
    refine ⟨h, List.pairwise_singleton .., ?_⟩
    rintro _ hold _ hadded rfl
    obtain rfl := List.mem_singleton.1 hadded
    exact hnew hold

/-- Entering a spelling gives its symbol and its kind in the lexicon behind it. -/
theorem lookup?_enter (l : Lexicon) (spelling : String) (kind : Kind) :
    (l.enter spelling kind).2.lookup? spelling = some (l.enter spelling kind).1.1 := by
  by_cases h : spelling ∈ l.spellings
  · obtain ⟨symbol, k, hsymbol, -, henter⟩ := enter_of_mem kind h
    rw [henter]
    exact hsymbol
  · have hnone := lookup?_eq_none_iff.2 h
    rw [enter_of_not_mem h]
    unfold lookup? at hnone ⊢
    rw [List.findIdx?_append, hnone]
    simp [size]

/-- Only a new spelling gets a kind. -/
theorem kind?_enter (l : Lexicon) (spelling : String) (kind : Kind) (other : String) :
    (l.enter spelling kind).2.kind? other = (l.kind? other).or (if other = spelling then some kind else none) := by
  by_cases h : spelling ∈ l.spellings
  · obtain ⟨symbol, k, -, hk, henter⟩ := enter_of_mem kind h
    rw [henter]
    split
    · rename_i hother
      rw [hother, hk]
      rfl
    · exact (Option.or_none).symm
  · rw [enter_of_not_mem h]
    unfold kind?
    rw [List.lookup_append, List.lookup_cons, List.lookup_nil]
    by_cases hother : other = spelling
    · rw [if_pos hother, hother]
      simp
    · rw [if_neg hother, beq_false_of_ne hother]

/-- A word is answered with the kind that its spelling has, and is an identifier if it is new. -/
theorem kind_word (l : Lexicon) (spelling : String) : (l.word spelling).1.2 = (l.kind? spelling).getD .identifier := by
  unfold word
  by_cases h : spelling ∈ l.spellings
  · obtain ⟨symbol, k, -, hk, henter⟩ := enter_of_mem .identifier h
    rw [henter, hk]
    rfl
  · have hnone : l.kind? spelling = none := by
      rw [← Option.not_isSome_iff_eq_none, kind?_isSome_iff]
      exact h
    rw [enter_of_not_mem h, hnone]
    rfl

/-! ## Many spellings -/

/-- Entering items leaves the spellings in front as they are. -/
theorem prefix_addAll (l : Lexicon) (items : List Item) : l.entries <+: (l.addAll items).entries := by
  induction items generalizing l with
  | nil => exact List.prefix_rfl
  | cons item items ih =>
    rw [addAll_cons, add_eq]
    exact (prefix_enter ..).trans (ih _)

theorem nodup_addAll (h : l.spellings.Nodup) (items : List Item) : (l.addAll items).spellings.Nodup := by
  induction items generalizing l with
  | nil => exact h
  | cons item items ih =>
    rw [addAll_cons, add_eq]
    exact ih (nodup_enter h)

/-- A spelling has the kind of the first item with it, unless it was known before. -/
theorem kind?_addAll (l : Lexicon) (items : List Item) (spelling : String) :
    (l.addAll items).kind? spelling =
      (l.kind? spelling).or ((items.find? (fun item => item.spelling == spelling)).map Item.kind) := by
  induction items generalizing l with
  | nil => exact Option.or_none.symm
  | cons item items ih =>
    rw [addAll_cons, add_eq, ih, kind?_enter, Option.or_assoc, List.find?_cons]
    by_cases h : spelling = item.spelling
    · rw [if_pos h, h, beq_self_eq_true]
      rfl
    · rw [if_neg h, beq_false_of_ne (Ne.symm h), Option.none_or]

/-- The kind of a spelling when it was first entered: that of the language for the reserved words and the signs, and otherwise that
of the first item with the spelling. -/
def firstKind? (items : List Item) (spelling : String) : Option Kind :=
  (Kind.fixed.lookup spelling).or ((items.find? (fun item => item.spelling == spelling)).map Item.kind)

/-- Only the reserved words are first entered as such. -/
theorem isKeyword_firstKind (items : List Item) (spelling : String) :
    ((firstKind? items spelling).getD .identifier).isKeyword = true ↔ spelling ∈ Kind.keywords.map (·.1) := by
  have hfixed : ∀ entry ∈ Kind.fixed, entry.2.isKeyword = true ↔ entry.1 ∈ Kind.keywords.map (·.1) := by decide
  unfold firstKind?
  cases hl : Kind.fixed.lookup spelling with
  | some k =>
    obtain ⟨before, after, hsplit, -⟩ := List.lookup_eq_some_iff.1 hl
    exact hfixed (spelling, k) (hsplit ▸ List.mem_append_right _ List.mem_cons_self)
  | none =>
    have hunknown : spelling ∉ Kind.keywords.map (·.1) := by
      intro hmem
      obtain ⟨entry, hentry, rfl⟩ := List.mem_map.1 hmem
      simpa using List.lookup_eq_none_iff.1 hl entry (List.mem_append_left _ hentry)
    have hplain : ∀ item : Item, item.kind.isKeyword = false := by
      rintro (_ | _) <;> rfl
    rw [Option.none_or]
    refine iff_of_false ?_ hunknown
    cases items.find? (fun item => item.spelling == spelling) with
    | none => exact Bool.false_ne_true
    | some item => simp [hplain]

/-- Symbols and spellings are found from each other. -/
structure Indexed (l : Lexicon) : Prop where
  nodup : l.spellings.Nodup
  of_symbol : ∀ symbol < l.size, ∃ spelling, l.get? symbol = some spelling ∧ l.lookup? spelling = some symbol
  of_spelling : ∀ spelling ∈ l.spellings, ∃ symbol, l.lookup? spelling = some symbol ∧ l.get? symbol = some spelling

/-- Without repetitions, spellings and symbols determine each other. -/
theorem indexed_of_nodup (h : l.spellings.Nodup) : l.Indexed where
  nodup := h
  of_symbol := by
    intro symbol hlt
    have hbound : symbol < l.spellings.length := by rwa [spellings, List.length_map]
    have hget : l.get? symbol = some l.spellings[symbol] := by rw [get?_eq, List.getElem?_eq_getElem]
    exact ⟨_, hget, (lookup?_eq_some_iff h).2 hget⟩
  of_spelling := by
    intro spelling hmem
    obtain ⟨symbol, hsymbol⟩ := Option.ne_none_iff_exists'.1 fun hnone => lookup?_eq_none_iff.1 hnone hmem
    exact ⟨symbol, hsymbol, (lookup?_eq_some_iff h).1 hsymbol⟩

/-- Symbols are to spellings one to one, and their number only grows. However words and numerals have been entered, no spelling is
there twice, and symbols and spellings are found from each other. What is entered then has its symbol for ever, as whatever was
entered before, and is added exactly if it is new. The reserved words in their order and the signs are the first thirteen spellings,
under the symbols of their kinds. A word is answered with the kind that its spelling was first entered with, so with the kind of a
reserved word exactly if it is one. -/
theorem spellings_and_symbols (items : List Item) :
    (standard.addAll items).Indexed ∧
      (∀ later symbol spelling, (standard.addAll items).get? symbol = some spelling →
        (standard.addAll (items ++ later)).get? symbol = some spelling) ∧
      (∀ item later, (standard.addAll (items ++ item :: later)).get? ((standard.addAll items).add item).1 =
        some item.spelling) ∧
      (∀ item, (standard.addAll (items ++ [item])).entries =
        if item.spelling ∈ (standard.addAll items).spellings then (standard.addAll items).entries
        else (standard.addAll items).entries ++ [(item.spelling, item.kind)]) ∧
      (standard.addAll items).spellings.take 13 =
        ["else", "if", "repeat", "void", "while", "!", "&&", "(", ")", ";", "\x7b", "||", "\x7d"] ∧
      (Kind.keywords.map (·.1)).Pairwise (· < ·) ∧
      (∀ entry ∈ Kind.fixed, ∃ symbol, symbolOf? entry.2 = some symbol ∧
        (standard.addAll items).lookup? entry.2.text = some symbol) ∧
      ∀ spelling, ((standard.addAll items).word spelling).1.2 = (firstKind? items spelling).getD .identifier ∧
        (((standard.addAll items).word spelling).1.2.isKeyword = true ↔ spelling ∈ Kind.keywords.map (·.1)) := by
  have hnodup : (standard.addAll items).spellings.Nodup := nodup_addAll (by decide) items
  have hlater : ∀ later, (standard.addAll items).entries <+: (standard.addAll (items ++ later)).entries := by
    intro later
    rw [addAll_append]
    exact prefix_addAll ..
  have hkind : ∀ spelling, ((standard.addAll items).word spelling).1.2 = (firstKind? items spelling).getD .identifier := by
    intro spelling
    rw [kind_word, kind?_addAll]
    rfl
  refine ⟨indexed_of_nodup hnodup, fun later symbol spelling => get?_of_prefix (hlater later), ?_, ?_, ?_, by decide, ?_, ?_⟩
  · intro item later
    rw [addAll_append, addAll_cons, add_eq]
    refine get?_of_prefix (prefix_addAll ..) ?_
    exact (lookup?_eq_some_iff (nodup_enter hnodup)).1 (lookup?_enter ..)
  · intro item
    rw [addAll_append, addAll_cons, add_eq]
    exact entries_enter ..
  · obtain ⟨more, hmore⟩ := prefix_addAll standard items
    unfold spellings
    rw [← hmore]
    rfl
  · have hsymbols : ∀ entry ∈ Kind.fixed, (symbolOf? entry.2).isSome ∧
        standard.lookup? entry.2.text = symbolOf? entry.2 := by decide
    intro entry hentry
    obtain ⟨hsome, hstandard⟩ := hsymbols entry hentry
    obtain ⟨symbol, hsymbol⟩ := Option.isSome_iff_exists.1 hsome
    exact ⟨symbol, hsymbol, lookup?_of_prefix (prefix_addAll ..) (hstandard.trans hsymbol)⟩
  · intro spelling
    refine ⟨hkind spelling, ?_⟩
    rw [hkind]
    exact isKeyword_firstKind items spelling

/-- A numeral or a sign that is entered as a word keeps the kind it has. -/
example : ((standard.addAll [.number "7", .word ""]).word "7").1 = (13, .number) ∧
    ((standard.addAll [.number "7", .word ""]).word "&&").1 = (6, .doubleAmpersand) := by decide

end Lexicon

end GridRobot

import GridRobot.Proofs.Language.Reading
import GridRobot.Proofs.Language.Syntax

/-!
# The parser reads no more than the grammar

What a parser takes from a reading is spelled as the grammar says, is nested no deeper than the room it was given, and is
within the bounds that are kept while reading. The words it counts are the size of the code.

`Sound p cost P` is the shape of these statements. The recursion of the statements follows that of the parsers: on the room
for the levels of nesting, on the fuel for what is repeated at one level.
-/

namespace GridRobot

/-- The token that ends the text is of the kind that says so. -/
def Reading.Closed (r : Reading) : Prop := ∀ t, r.ending = .endOfInput t → t.kind = .endOfInput

/-- The way from a reading to another: some tokens are taken and some words counted, which fit into memory if those before
them did. -/
structure Reading.Passes (r : Reading) (ts : List Token) (words : Nat) (r' : Reading) : Prop where
  tokens : r.tokens = ts ++ r'.tokens
  ending : r'.ending = r.ending
  words_eq : r'.words = r.words + words
  words_le : r.words ≤ memorySize → r'.words ≤ memorySize

namespace Reading

theorem Passes.refl (r : Reading) : r.Passes [] 0 r := ⟨rfl, rfl, rfl, id⟩

/-- Two ways one behind the other take the tokens and count the words of both. -/
theorem Passes.trans {r r' r'' : Reading} {ts us : List Token} {m n : Nat} (h : r.Passes ts m r')
    (h' : r'.Passes us n r'') : r.Passes (ts ++ us) (m + n) r'' := by
  refine ⟨?_, h'.ending.trans h.ending, ?_, fun hw => h'.words_le (h.words_le hw)⟩
  · rw [h.tokens, h'.tokens, List.append_assoc]
  · rw [h'.words_eq, h.words_eq, Nat.add_assoc]

/-- Taking tokens leaves the end of the text as it is. -/
theorem Passes.closed {r r' : Reading} {ts : List Token} {n : Nat} (h : r.Passes ts n r') (hr : r.Closed) :
    r'.Closed := by
  intro t ht
  exact hr t (h.ending ▸ ht)

end Reading

namespace Parser

variable {α : Type}

/-- Whatever a parser reads, it takes tokens that are as they should be for it, and counts the words it costs. -/
def Sound (p : Parser α) (cost : α → Nat) (P : α → List Token → Prop) : Prop :=
  ∀ r a r', r.Closed → Reads p r a r' → ∃ ts, r.Passes ts (cost a) r' ∧ P a ts

/-- A sound parser is sound for everything that follows from what its tokens are. -/
theorem Sound.weaken {p : Parser α} {cost : α → Nat} {P Q : α → List Token → Prop} (h : Sound p cost P)
    (hPQ : ∀ {a ts}, P a ts → Q a ts) : Sound p cost Q := by
  intro r a r' hr hread
  obtain ⟨ts, hpass, ha⟩ := h r a r' hr hread
  exact ⟨ts, hpass, hPQ ha⟩

/-! ## Single tokens -/

/-- Taking a token that is not the end of the text. -/
theorem passes_advance {r r' : Reading} {t : Token} (hr : r.Closed) (h : Reads advance r t r')
    (ht : t.kind ≠ .endOfInput) : r.Passes [t] 0 r' := by
  obtain ⟨hn, rfl, _⟩ := reads_advance.1 h
  rcases r with ⟨_ | ⟨first, rest⟩, ending, words⟩
  · cases ending with
    | endOfInput token =>
      have : token = t := by simpa [Reading.next?] using hn
      subst this
      exact absurd (hr token rfl) ht
    | error e => simp [Reading.next?] at hn
  · have : first = t := by simpa [Reading.next?] using hn
    subst this
    exact ⟨rfl, rfl, rfl, id⟩

/-- Taking a token of a kind that is not the end of the text. -/
theorem passes_expect {kind : Kind} {r r' : Reading} {t : Token} (hr : r.Closed) (hk : kind ≠ .endOfInput)
    (h : Reads (expect kind) r t r') : t.kind = kind ∧ r.Passes [t] 0 r' := by
  obtain ⟨ht, h⟩ := reads_expect.1 h
  exact ⟨ht, passes_advance hr h (by rwa [ht])⟩

/-- Taking an opening and a closing parenthesis. -/
theorem passes_emptyParens {r r' : Reading} {u : Unit} (hr : r.Closed) (h : Reads emptyParens r u r') :
    ∃ opening closing, opening.kind = .openingParen ∧ closing.kind = .closingParen ∧
      r.Passes [opening, closing] 0 r' := by
  unfold emptyParens at h
  obtain ⟨opening, r₁, h₁, h⟩ := reads_bind.1 h
  obtain ⟨closing, r₂, h₂, h⟩ := reads_bind.1 h
  obtain ⟨_, rfl⟩ := reads_pure.1 h
  obtain ⟨ho, p₁⟩ := passes_expect hr (by decide) h₁
  obtain ⟨hc, p₂⟩ := passes_expect (p₁.closed hr) (by decide) h₂
  exact ⟨opening, closing, ho, hc, p₁.trans p₂⟩

/-- Counting a word takes no token. -/
theorem passes_reserve {r r' : Reading} {u : Unit} (h : Reads reserve r u r') : r.Passes [] 1 r' := by
  obtain ⟨hw, rfl⟩ := reads_reserve.1 h
  exact ⟨rfl, rfl, rfl, fun _ => hw⟩

/-! ## Conditions -/

/-- What is read as a condition of a layer with `room` levels of nesting left and `pending` results pending. -/
def IsCondition (layer : Grammar.Layer) (room pending : Nat) (c : Condition) (ts : List Token) : Prop :=
  ∃ d, Grammar.SpellsCondition layer c ts d ∧ d ≤ room ∧ c.need + pending ≤ 64

namespace IsCondition

variable {room pending : Nat} {c left right : Condition} {ts us : List Token} {operator : Token}

/-- A part is a conjunction without an operator. -/
theorem single (h : IsCondition .part room pending c ts) : IsCondition .conjunction room pending c ts := by
  obtain ⟨d, hs, hd, hn⟩ := h
  exact ⟨d, .single hs, hd, hn⟩

/-- A conjunction is a disjunction without an operator. -/
theorem only (h : IsCondition .conjunction room pending c ts) : IsCondition .disjunction room pending c ts := by
  obtain ⟨d, hs, hd, hn⟩ := h
  exact ⟨d, .only hs, hd, hn⟩

/-- Behind a conjunction, the sign and one more part make a conjunction. The part is read with one more result pending. -/
theorem and (hl : IsCondition .conjunction room pending left ts) (hk : operator.kind = .doubleAmpersand)
    (hr : IsCondition .part room (pending + 1) right us) :
    IsCondition .conjunction room pending (.and left right operator.line) (ts ++ operator :: us) := by
  obtain ⟨d, hl, hd, hnl⟩ := hl
  obtain ⟨e, hr, he, hnr⟩ := hr
  refine ⟨max d e, .and hl hk hr, by omega, ?_⟩
  simp only [Condition.need]
  omega

/-- Behind a disjunction, the sign and one more conjunction make a disjunction. The conjunction is read with one more result
pending. -/
theorem or (hl : IsCondition .disjunction room pending left ts) (hk : operator.kind = .doubleBar)
    (hr : IsCondition .conjunction room (pending + 1) right us) :
    IsCondition .disjunction room pending (.or left right operator.line) (ts ++ operator :: us) := by
  obtain ⟨d, hl, hd, hnl⟩ := hl
  obtain ⟨e, hr, he, hnr⟩ := hr
  refine ⟨max d e, .or hl hk hr, by omega, ?_⟩
  simp only [Condition.need]
  omega

end IsCondition

/-- Where an identifier is read as a part of a condition, it is the call of a sensor, with room for its result. -/
theorem sensor_passes {room pending : Nat} {r r' : Reading} {t : Token} {c : Condition} (hr : r.Closed)
    (hn : r.next? = some t) (hk : t.kind = .identifier) (h : Reads (sensor pending) r c r') :
    ∃ ts, r.Passes ts c.size r' ∧ IsCondition .part room pending c ts := by
  unfold sensor at h
  obtain ⟨name, ht, h⟩ := reads_current_bind.1 h
  obtain rfl : t = name := Option.some.inj (hn.symm.trans ht)
  split at h
  · exact absurd h not_reads_refuse
  · rename_i s hs
    split at h
    · rename_i hp
      obtain ⟨name', r₁, h₁, h⟩ := reads_bind.1 h
      obtain rfl : t = name' := Option.some.inj (ht.symm.trans (reads_advance.1 h₁).1)
      obtain ⟨_, r₂, h₂, h⟩ := reads_bind.1 h
      obtain ⟨_, r₃, h₃, h⟩ := reads_bind.1 h
      obtain ⟨rfl, rfl⟩ := reads_pure.1 h
      have p₁ := passes_advance hr h₁ (by rw [hk]; decide)
      obtain ⟨opening, closing, ho, hc, p₂⟩ := passes_emptyParens (p₁.closed hr) h₂
      refine ⟨_, (p₁.trans p₂).trans (passes_reserve h₃), 0, .sensor hk hs ho hc, Nat.zero_le _, ?_⟩
      have : pending < 64 := hp
      simp only [Condition.need]
      omega
    · exact absurd h not_reads_refuse

section Chain

variable {sign : Kind} {operand : Nat → Parser Condition} {join : Condition → Condition → Nat → Condition}
  {Left Operand : Condition → List Token → Prop} {pending : Nat}

/-- The operands that follow a left part are taken into it one by one; the induction is on the fuel. -/
theorem chainFrom_passes (hsign : sign ≠ .endOfInput) (hop : Sound (operand (pending + 1)) Condition.size Operand)
    (hsize : ∀ l r n, (join l r n).size = l.size + r.size + 1)
    (hjoin : ∀ {l ts op r us}, Left l ts → op.kind = sign → Operand r us → Left (join l r op.line) (ts ++ op :: us))
    {fuel : Nat} {left c : Condition} {ts : List Token} {r r' : Reading} (hl : Left left ts) (hr : r.Closed)
    (h : Reads (chainFrom sign (operand (pending + 1)) join fuel left) r c r') :
    ∃ us n, r.Passes us n r' ∧ c.size = left.size + n ∧ Left c (ts ++ us) := by
  induction fuel generalizing left ts r with
  | zero =>
    obtain ⟨rfl, rfl⟩ := reads_pure.1 h
    exact ⟨[], 0, .refl _, rfl, by rwa [List.append_nil]⟩
  | succ fuel ih =>
    unfold chainFrom at h
    obtain ⟨t, ht, h⟩ := reads_current_bind.1 h
    split at h
    · rename_i hk
      obtain ⟨op, r₁, h₁, h⟩ := reads_bind.1 h
      obtain rfl : t = op := Option.some.inj (ht.symm.trans (reads_advance.1 h₁).1)
      obtain ⟨right, r₂, h₂, h⟩ := reads_bind.1 h
      obtain ⟨_, r₃, h₃, h⟩ := reads_bind.1 h
      have p₁ := passes_advance hr h₁ (by rwa [hk])
      obtain ⟨us, p₂, hright⟩ := hop _ _ _ (p₁.closed hr) h₂
      have p := (p₁.trans p₂).trans (passes_reserve h₃)
      obtain ⟨vs, n, p₄, hs, hres⟩ := ih (hjoin hl hk hright) (p.closed hr) h
      refine ⟨_, _, p.trans p₄, ?_, ?_⟩
      · rw [hs, hsize]
        omega
      · simpa using hres
    · obtain ⟨rfl, rfl⟩ := reads_pure.1 h
      exact ⟨[], 0, .refl _, rfl, by rwa [List.append_nil]⟩

/-- Operands with a sign between them are read as what joins them from the left. -/
theorem chain_sound (hsign : sign ≠ .endOfInput) (hfirst : Sound (operand pending) Condition.size Left)
    (hop : Sound (operand (pending + 1)) Condition.size Operand)
    (hsize : ∀ l r n, (join l r n).size = l.size + r.size + 1)
    (hjoin : ∀ {l ts op r us}, Left l ts → op.kind = sign → Operand r us →
      Left (join l r op.line) (ts ++ op :: us)) :
    Sound (chain sign operand join pending) Condition.size Left := by
  intro r c r' hr h
  unfold chain at h
  obtain ⟨first, r₁, h₁, h⟩ := reads_bind.1 h
  rw [reads_remaining_bind] at h
  obtain ⟨ts, p₁, hf⟩ := hfirst _ _ _ hr h₁
  obtain ⟨us, m, p₂, hs, hc⟩ := chainFrom_passes hsign hop hsize hjoin hf (p₁.closed hr) h
  exact ⟨ts ++ us, by rw [hs]; exact p₁.trans p₂, hc⟩

end Chain

/-- Parts with `&&` between them are read as a conjunction. -/
theorem conjunction_sound {part : Nat → Parser Condition} {room : Nat}
    (hpart : ∀ pending, Sound (part pending) Condition.size (IsCondition .part room pending)) (pending : Nat) :
    Sound (chain .doubleAmpersand part .and pending) Condition.size (IsCondition .conjunction room pending) :=
  chain_sound (by decide) ((hpart pending).weaken .single) (hpart (pending + 1)) (fun _ _ _ => rfl) .and

/-- Conjunctions with `||` between them are read as a disjunction. -/
theorem disjunction_sound {part : Nat → Parser Condition} {room : Nat}
    (hpart : ∀ pending, Sound (part pending) Condition.size (IsCondition .part room pending)) (pending : Nat) :
    Sound (disjunction part pending) Condition.size (IsCondition .disjunction room pending) :=
  chain_sound (by decide) ((conjunction_sound hpart pending).weaken .only) (conjunction_sound hpart (pending + 1))
    (fun _ _ _ => rfl) .or

/-- What is read as a part of a condition is one. The induction is on the nesting that is left. -/
theorem part_sound (room : Nat) :
    ∀ pending, Sound (part room pending) Condition.size (IsCondition .part room pending) := by
  induction room with
  | zero =>
    intro pending r c r' hr h
    simp only [part] at h
    obtain ⟨t, ht, h⟩ := reads_current_bind.1 h
    split at h
    · rename_i hk
      exact sensor_passes hr ht hk h
    · obtain ⟨_, _, _, h⟩ := reads_bind.1 h
      exact absurd h not_reads_refuse
    · obtain ⟨_, _, _, h⟩ := reads_bind.1 h
      exact absurd h not_reads_refuse
    · exact absurd h not_reads_refuse
  | succ room ih =>
    intro pending r c r' hr h
    simp only [part] at h
    obtain ⟨t, ht, h⟩ := reads_current_bind.1 h
    split at h
    · rename_i hk
      exact sensor_passes hr ht hk h
    · rename_i hk
      obtain ⟨bang, r₁, h₁, h⟩ := reads_bind.1 h
      obtain rfl : t = bang := Option.some.inj (ht.symm.trans (reads_advance.1 h₁).1)
      obtain ⟨operand, r₂, h₂, h⟩ := reads_bind.1 h
      obtain ⟨_, r₃, h₃, h⟩ := reads_bind.1 h
      obtain ⟨rfl, rfl⟩ := reads_pure.1 h
      have p₁ := passes_advance hr h₁ (by rw [hk]; decide)
      obtain ⟨ts, p₂, d, hs, hd, hn⟩ := ih pending _ _ _ (p₁.closed hr) h₂
      refine ⟨t :: ts, ?_, d + 1, .negation hk hs, by omega, hn⟩
      have p := (p₁.trans p₂).trans (passes_reserve h₃)
      simpa [Condition.size] using p
    · rename_i hk
      obtain ⟨opening, r₁, h₁, h⟩ := reads_bind.1 h
      obtain rfl : t = opening := Option.some.inj (ht.symm.trans (reads_advance.1 h₁).1)
      obtain ⟨inner, r₂, h₂, h⟩ := reads_bind.1 h
      obtain ⟨closing, r₃, h₃, h⟩ := reads_bind.1 h
      obtain ⟨rfl, rfl⟩ := reads_pure.1 h
      have p₁ := passes_advance hr h₁ (by rw [hk]; decide)
      obtain ⟨ts, p₂, d, hs, hd, hn⟩ := disjunction_sound ih pending _ _ _ (p₁.closed hr) h₂
      obtain ⟨hc, p₃⟩ := passes_expect ((p₁.trans p₂).closed hr) (by decide) h₃
      refine ⟨t :: ts ++ [closing], ?_, d + 1, .group hk hs hc, by omega, hn⟩
      have p := (p₁.trans p₂).trans p₃
      simpa using p
    · exact absurd h not_reads_refuse

/-- What is read as the test of a statement with `room` levels of nesting left. -/
def IsTest (room : Nat) (c : Condition) (ts : List Token) : Prop :=
  ∃ d, Grammar.SpellsTest c ts d ∧ d ≤ room ∧ c.need ≤ 64

/-- What is read as a test is a condition in parentheses, with nothing pending before it. -/
theorem test_sound (room : Nat) : Sound (test room) Condition.size (IsTest room) := by
  intro r c r' hr h
  unfold test at h
  obtain ⟨opening, r₁, h₁, h⟩ := reads_bind.1 h
  obtain ⟨condition, r₂, h₂, h⟩ := reads_bind.1 h
  obtain ⟨closing, r₃, h₃, h⟩ := reads_bind.1 h
  obtain ⟨rfl, rfl⟩ := reads_pure.1 h
  obtain ⟨ho, p₁⟩ := passes_expect hr (by decide) h₁
  obtain ⟨ts, p₂, d, hs, hd, hn⟩ := disjunction_sound (part_sound room) 0 _ _ _ (p₁.closed hr) h₂
  obtain ⟨hc, p₃⟩ := passes_expect ((p₁.trans p₂).closed hr) (by decide) h₃
  refine ⟨opening :: ts ++ [closing], ?_, d, .parens ho hs hc, hd, hn⟩
  have p := (p₁.trans p₂).trans p₃
  simpa using p

/-! ## Statements -/

/-- What is read as a statement in a form with `room` levels of nesting left. -/
def IsStatement (form : Grammar.Form) (room : Nat) (s : Statement) (ts : List Token) : Prop :=
  ∃ d, Grammar.SpellsStatement form s ts d ∧ d ≤ room ∧ s.Proper

/-- What is read as a block with `room` levels of nesting left. -/
def IsBlock (room : Nat) (b : Block) (ts : List Token) : Prop := IsStatement (.block b.2) room b.1 ts

/-- Where an identifier is read as a statement, it is an action or the call of a command. -/
theorem call_passes {room : Nat} {r r' : Reading} {t : Token} {s : Statement} (hr : r.Closed)
    (hn : r.next? = some t) (hk : t.kind = .identifier) (h : Reads call r s r') :
    ∃ ts, r.Passes ts s.size r' ∧ IsStatement .statement room s ts := by
  unfold call at h
  obtain ⟨name, r₁, h₁, h⟩ := reads_bind.1 h
  obtain rfl : t = name := Option.some.inj (hn.symm.trans (reads_advance.1 h₁).1)
  dsimp only at h
  split at h
  · obtain ⟨_, _, h₂, _⟩ := reads_bind.1 h
    exact absurd h₂ reads_throw
  · rename_i hsensor
    obtain ⟨_, r₂, h₂, h⟩ := reads_bind.1 h
    obtain ⟨semicolon, r₃, h₃, h⟩ := reads_bind.1 h
    obtain ⟨_, r₄, h₄, h⟩ := reads_bind.1 h
    have p₁ := passes_advance hr h₁ (by rw [hk]; decide)
    obtain ⟨opening, closing, ho, hc, p₂⟩ := passes_emptyParens (p₁.closed hr) h₂
    obtain ⟨hs, p₃⟩ := passes_expect ((p₁.trans p₂).closed hr) (by decide) h₃
    have p := ((p₁.trans p₂).trans p₃).trans (passes_reserve h₄)
    split at h
    · rename_i a ha
      obtain ⟨rfl, rfl⟩ := reads_pure.1 h
      exact ⟨_, p, 0, .act hk ha ho hc hs, Nat.zero_le _, .act⟩
    · rename_i ha
      obtain ⟨rfl, rfl⟩ := reads_pure.1 h
      exact ⟨_, p, 0, .call hk ha ho hc hs, Nat.zero_le _, .call (Option.not_isSome_iff_eq_none.1 hsensor)⟩

/-- What a parser does with a conditional that lies ahead. -/
def TakesConditional (room : Nat) (p : Parser Statement) : Prop :=
  ∀ r t s r', r.Closed → r.next? = some t → t.kind = .ifWord → Reads p r s r' →
    ∃ ts, r.Passes ts s.size r' ∧ IsStatement .conditional room s ts

/-- What is read of `else` and what follows it: nothing, a block or a conditional. -/
theorem alternative_passes {room : Nat} {block : Parser Block} (hb : Sound block (·.1.size) (IsBlock room))
    {further : Parser Statement} (hfurther : TakesConditional room further) {r r' : Reading} {other : Option Statement}
    (hr : r.Closed) (h : Reads (alternative block further) r other r') :
    (other = none ∧ r' = r) ∨ ∃ s elseWord ts form, other = some s ∧ elseWord.kind = .elseWord ∧
      (form = .conditional ∨ ∃ closing, form = .block closing) ∧ IsStatement form room s ts ∧
      r.Passes (elseWord :: ts) (1 + s.size) r' := by
  unfold alternative at h
  obtain ⟨t, ht, h⟩ := reads_current_bind.1 h
  split at h
  · rename_i helse
    obtain ⟨elseWord, r₁, h₁, h⟩ := reads_bind.1 h
    obtain rfl : t = elseWord := Option.some.inj (ht.symm.trans (reads_advance.1 h₁).1)
    obtain ⟨_, r₂, h₂, h⟩ := reads_bind.1 h
    have p := (passes_advance hr h₁ (by rw [helse]; decide)).trans (passes_reserve h₂)
    obtain ⟨u, hu, h⟩ := reads_current_bind.1 h
    right
    split at h
    · obtain ⟨⟨otherwise, final⟩, r₃, h₃, h⟩ := reads_bind.1 h
      obtain ⟨rfl, rfl⟩ := reads_pure.1 h
      obtain ⟨ts, q, hother⟩ := hb _ _ _ (p.closed hr) h₃
      exact ⟨otherwise, t, ts, _, rfl, helse, .inr ⟨final, rfl⟩, hother, by simpa using p.trans q⟩
    · rename_i hif
      obtain ⟨otherwise, r₃, h₃, h⟩ := reads_bind.1 h
      obtain ⟨rfl, rfl⟩ := reads_pure.1 h
      obtain ⟨ts, q, hother⟩ := hfurther _ _ _ _ (p.closed hr) hu hif h₃
      exact ⟨otherwise, t, ts, _, rfl, helse, .inl rfl, hother, by simpa using p.trans q⟩
    · exact absurd h not_reads_refuse
  · obtain ⟨rfl, rfl⟩ := reads_pure.1 h
    exact .inl ⟨rfl, rfl⟩

/-- A conditional is read with its alternative, if there is one. -/
theorem conditionalThen_passes {room : Nat} {block : Parser Block} (hb : Sound block (·.1.size) (IsBlock room))
    {further : Parser Statement} (hfurther : TakesConditional room further) :
    TakesConditional room (conditionalThen room block further) := by
  intro r t s r' hr hn hk h
  unfold conditionalThen at h
  obtain ⟨keyword, r₁, h₁, h⟩ := reads_bind.1 h
  obtain rfl : t = keyword := Option.some.inj (hn.symm.trans (reads_advance.1 h₁).1)
  obtain ⟨condition, r₂, h₂, h⟩ := reads_bind.1 h
  obtain ⟨_, r₃, h₃, h⟩ := reads_bind.1 h
  obtain ⟨⟨body, closing⟩, r₄, h₄, h⟩ := reads_bind.1 h
  obtain ⟨other, r₅, h₅, h₆⟩ := reads_bind.1 h
  have p₁ := passes_advance hr h₁ (by rw [hk]; decide)
  obtain ⟨ts, p₂, d, hs, hd, hneed⟩ := test_sound room _ _ _ (p₁.closed hr) h₂
  have p₃ := (p₁.trans p₂).trans (passes_reserve h₃)
  obtain ⟨us, p₄, e, hbody, he, hbound⟩ := hb _ _ _ (p₃.closed hr) h₄
  have p := p₃.trans p₄
  rcases alternative_passes hb hfurther (p.closed hr) h₅ with ⟨rfl, rfl⟩ | ⟨other, elseWord, vs, form, rfl, helse, hform, ⟨f, hother, hf, hbound'⟩, q⟩
  · obtain ⟨rfl, rfl⟩ := reads_pure.1 h₆
    refine ⟨_, ?_, _, .ifThen hk hs hbody, by omega, Statement.Proper.ifThen_iff.2 ⟨hneed, hbound⟩⟩
    simpa [Statement.size] using p
  · obtain ⟨rfl, rfl⟩ := reads_pure.1 h₆
    refine ⟨t :: ts ++ us ++ elseWord :: vs, ?_, max (max d e) f, ?_, by omega, Statement.Proper.ifElse_iff.2 ⟨hneed, hbound, hbound'⟩⟩
    · simpa [Statement.size, Nat.add_assoc] using p.trans q
    · rcases hform with rfl | ⟨final, rfl⟩
      · exact .elseIf hk hs hbody helse hother
      · exact .ifElse hk hs hbody helse hother

/-- A conditional is read with its branches; the induction is on the fuel, which is one less for each `else if`. -/
theorem conditional_passes {room fuel : Nat} {block : Parser Block} (hb : Sound block (·.1.size) (IsBlock room)) :
    TakesConditional room (conditional room block fuel) := by
  induction fuel with
  | zero => exact conditionalThen_passes hb fun _ _ _ _ _ _ _ h => absurd h not_reads_refuse
  | succ fuel ih => exact conditionalThen_passes hb ih

/-- A loop on a condition is read where its keyword is. -/
theorem whileLoop_passes {room : Nat} {block : Parser Block} (hb : Sound block (·.1.size) (IsBlock room))
    {r r' : Reading} {t : Token} {s : Statement} (hr : r.Closed) (hn : r.next? = some t) (hk : t.kind = .whileWord)
    (h : Reads (whileLoop room block) r s r') : ∃ ts, r.Passes ts s.size r' ∧ IsStatement .statement room s ts := by
  unfold whileLoop at h
  obtain ⟨keyword, r₁, h₁, h⟩ := reads_bind.1 h
  obtain rfl : t = keyword := Option.some.inj (hn.symm.trans (reads_advance.1 h₁).1)
  obtain ⟨condition, r₂, h₂, h⟩ := reads_bind.1 h
  obtain ⟨_, r₃, h₃, h⟩ := reads_bind.1 h
  obtain ⟨⟨body, closing⟩, r₄, h₄, h⟩ := reads_bind.1 h
  obtain ⟨_, r₅, h₅, h⟩ := reads_bind.1 h
  obtain ⟨rfl, rfl⟩ := reads_pure.1 h
  have p₁ := passes_advance hr h₁ (by rw [hk]; decide)
  obtain ⟨ts, p₂, d, hs, hd, hneed⟩ := test_sound room _ _ _ (p₁.closed hr) h₂
  have p₃ := (p₁.trans p₂).trans (passes_reserve h₃)
  obtain ⟨us, p₄, e, hbody, he, hbound⟩ := hb _ _ _ (p₃.closed hr) h₄
  have p := (p₃.trans p₄).trans (passes_reserve h₅)
  refine ⟨_, ?_, _, .whileDo hk hs hbody, ?_, Statement.Proper.whileDo_iff.2 ⟨hneed, hbound⟩⟩
  · simpa [Statement.size] using p
  · omega

/-- The count that digits write is their decimal value, if it is one of those that can be repeated. -/
theorem repeatCount?_eq_some {digits : String} {n : Nat} :
    repeatCount? digits = some n ↔ Text.decimal? digits.toList = some n ∧ 2 ≤ n ∧ n ≤ 4095 := by
  unfold repeatCount?
  rw [Option.filter_eq_some_iff]
  simp only [Opcode.operands, decide_eq_true_eq]
  constructor
  · rintro ⟨h, h₁, h₂⟩
    exact ⟨h, h₁, by omega⟩
  · rintro ⟨h, h₁, h₂⟩
    exact ⟨h, h₁, by omega⟩

/-- A repeat is read where its keyword is, and only with a count within the bounds. -/
theorem repeatLoop_passes {room : Nat} {block : Parser Block} (hb : Sound block (·.1.size) (IsBlock room))
    {r r' : Reading} {t : Token} {s : Statement} (hr : r.Closed) (hn : r.next? = some t) (hk : t.kind = .repeatWord)
    (h : Reads (repeatLoop block) r s r') : ∃ ts, r.Passes ts s.size r' ∧ IsStatement .statement room s ts := by
  unfold repeatLoop at h
  obtain ⟨keyword, r₁, h₁, h⟩ := reads_bind.1 h
  obtain rfl : t = keyword := Option.some.inj (hn.symm.trans (reads_advance.1 h₁).1)
  obtain ⟨opening, r₂, h₂, h⟩ := reads_bind.1 h
  obtain ⟨number, r₃, h₃, h⟩ := reads_bind.1 h
  split at h
  · exact absurd h reads_throw
  · rename_i count hcount
    obtain ⟨closing, r₄, h₄, h⟩ := reads_bind.1 h
    obtain ⟨_, r₅, h₅, h⟩ := reads_bind.1 h
    obtain ⟨⟨body, final⟩, r₆, h₆, h⟩ := reads_bind.1 h
    obtain ⟨_, r₇, h₇, h⟩ := reads_bind.1 h
    obtain ⟨rfl, rfl⟩ := reads_pure.1 h
    obtain ⟨hvalue, hrange⟩ := repeatCount?_eq_some.1 hcount
    have p₁ := passes_advance hr h₁ (by rw [hk]; decide)
    obtain ⟨ho, p₂⟩ := passes_expect (p₁.closed hr) (by decide) h₂
    have p₂ := p₁.trans p₂
    obtain ⟨hnum, p₃⟩ := passes_expect (p₂.closed hr) (by decide) h₃
    have p₃ := p₂.trans p₃
    obtain ⟨hc, p₄⟩ := passes_expect (p₃.closed hr) (by decide) h₄
    have p₅ := (p₃.trans p₄).trans (passes_reserve h₅)
    obtain ⟨us, p₆, d, hbody, hd, hbound⟩ := hb _ _ _ (p₅.closed hr) h₆
    have p := (p₅.trans p₆).trans (passes_reserve h₇)
    refine ⟨_, ?_, d, .repeatTimes hk ho hnum hvalue hc hbody, hd, Statement.Proper.repeatTimes_iff.2 ⟨hrange, hbound⟩⟩
    simpa [Statement.size] using p

/-- What is read as a statement is one, if this is so for blocks. -/
theorem statement_sound {room : Nat} {block : Parser Block} (hb : Sound block (·.1.size) (IsBlock room)) :
    Sound (statement room block) Statement.size (IsStatement .statement room) := by
  intro r s r' hr h
  unfold statement at h
  obtain ⟨t, ht, h⟩ := reads_current_bind.1 h
  split at h
  · rename_i hk
    exact call_passes hr ht hk h
  · rename_i hk
    rw [reads_remaining_bind] at h
    obtain ⟨ts, p, d, hs, hd, hbound⟩ := conditional_passes hb _ _ _ _ hr ht hk h
    exact ⟨ts, p, d, .conditional hs, hd, hbound⟩
  · rename_i hk
    exact whileLoop_passes hb hr ht hk h
  · rename_i hk
    exact repeatLoop_passes hb hr ht hk h
  · exact absurd h not_reads_refuse

/-- The statements of a block are read up to its closing brace; the induction is on the fuel. -/
theorem statements_sound {room fuel : Nat} {statement : Parser Statement}
    (hs : Sound statement Statement.size (IsStatement .statement room)) :
    Sound (statements statement fuel) (·.1.size) (fun b ts => ∃ us, ts = us ++ [b.2] ∧ b.2.kind = .closingBrace ∧
      IsStatement .body room b.1 us) := by
  induction fuel using Nat.strongRecOn with
  | _ fuel ih =>
    intro r b r' hr h
    unfold statements at h
    obtain ⟨t, ht, h⟩ := reads_current_bind.1 h
    split at h
    · rename_i hk
      obtain ⟨closing, r₁, h₁, h⟩ := reads_bind.1 h
      obtain rfl : t = closing := Option.some.inj (ht.symm.trans (reads_advance.1 h₁).1)
      obtain ⟨rfl, rfl⟩ := reads_pure.1 h
      refine ⟨[t], passes_advance hr h₁ (by rw [hk]; decide), [], rfl, hk, 0, .nothing, Nat.zero_le _, .nothing⟩
    · exact absurd h not_reads_refuse
    · exact absurd h not_reads_refuse
    · split at h
      · exact absurd h not_reads_refuse
      · rename_i fuel _
        obtain ⟨first, r₁, h₁, h⟩ := reads_bind.1 h
        obtain ⟨⟨rest, closing⟩, r₂, h₂, h⟩ := reads_bind.1 h
        obtain ⟨rfl, rfl⟩ := reads_pure.1 h
        obtain ⟨ts, p₁, d, hfirst, hd, hbound⟩ := hs _ _ _ hr h₁
        obtain ⟨_, p₂, us, rfl, hk, e, hrest, he, hbound'⟩ := ih fuel (Nat.lt_succ_self _) _ _ _ (p₁.closed hr) h₂
        refine ⟨_, p₁.trans p₂, ts ++ us, by simp, hk, _, .andThen hfirst hrest, by omega, ?_⟩
        exact Statement.Proper.andThen_iff.2 ⟨hbound, hbound'⟩

/-- Blocks are read as the grammar has them; the induction is on the levels of nesting that are left. -/
theorem block_sound (room : Nat) : Sound (block room) (·.1.size) (IsBlock room) := by
  induction room with
  | zero =>
    intro r b r' hr h
    obtain ⟨_, _, _, h⟩ := reads_bind.1 h
    exact absurd h not_reads_refuse
  | succ room ih =>
    intro r b r' hr h
    obtain ⟨opening, r₁, h₁, h⟩ := reads_bind.1 h
    rw [reads_remaining_bind] at h
    obtain ⟨ho, p₁⟩ := passes_expect hr (by decide) h₁
    obtain ⟨_, p₂, us, rfl, hk, d, hs, hd, hbound⟩ := statements_sound (statement_sound ih) _ _ _ (p₁.closed hr) h
    exact ⟨_, by simpa using p₁.trans p₂, d + 1, .block ho hs hk, by omega, hbound⟩

/-! ## Commands -/

/-- A name is not built in if it is neither that of an action nor that of a sensor. -/
theorem isBuiltin_eq_false {name : String} :
    isBuiltin name = false ↔ Action.ofName? name = none ∧ Sensor.ofName? name = none := by
  simp [isBuiltin]

/-- A declaration is read where its keyword is. Its name is neither built in nor that of a command declared before. -/
theorem declaration_passes {declared : List Declaration} {r r' : Reading} {t : Token} {d : Declaration}
    (hr : r.Closed) (hn : r.next? = some t) (hk : t.kind = .voidWord) (h : Reads (declaration declared) r d r') :
    ∃ ts e, r.Passes ts d.size r' ∧ Grammar.SpellsDeclaration d ts e ∧ e ≤ 256 ∧ d.body.Proper ∧
      (Action.ofName? d.name = none ∧ Sensor.ofName? d.name = none) ∧ d.name ∉ declared.map (·.name) := by
  unfold declaration at h
  obtain ⟨voidWord, r₁, h₁, h⟩ := reads_bind.1 h
  obtain rfl : t = voidWord := Option.some.inj (hn.symm.trans (reads_advance.1 h₁).1)
  obtain ⟨name, r₂, h₂, h⟩ := reads_bind.1 h
  dsimp only at h
  split at h
  · obtain ⟨_, _, h₃, _⟩ := reads_bind.1 h
    exact absurd h₃ reads_throw
  · rename_i hfresh
    obtain ⟨_, r₃, h₃, h⟩ := reads_bind.1 h
    split at h
    · obtain ⟨_, _, h₄, _⟩ := reads_bind.1 h
      exact absurd h₄ reads_throw
    · rename_i hnew
      obtain ⟨⟨body, final⟩, r₄, h₄, h⟩ := reads_bind.1 h
      obtain ⟨_, r₅, h₅, h⟩ := reads_bind.1 h
      obtain ⟨rfl, rfl⟩ := reads_pure.1 h
      have p₁ := passes_advance hr h₁ (by rw [hk]; decide)
      obtain ⟨hname, p₂⟩ := passes_expect (p₁.closed hr) (by decide) h₂
      obtain ⟨opening, closing, ho, hc, p₃⟩ := passes_emptyParens ((p₁.trans p₂).closed hr) h₃
      have p₃ := (p₁.trans p₂).trans p₃
      obtain ⟨ts, p₄, e, hbody, he, hbound⟩ := block_sound nestingLimit _ _ _ (p₃.closed hr) h₄
      have p := (p₃.trans p₄).trans (passes_reserve h₅)
      refine ⟨_, e, ?_, .void hk hname ho hc hbody, he, hbound, ?_, ?_⟩
      · simpa [Declaration.size] using p
      · exact isBuiltin_eq_false.1 (Bool.not_eq_true _ ▸ hfresh)
      · intro hmem
        obtain ⟨d, hd, he⟩ := List.mem_map.1 hmem
        exact hnew (List.any_eq_true.2 ⟨d, hd, beq_iff_eq.2 he⟩)

/-- Declarations are read up to the end of the text, behind those that have been read; the induction is on the fuel. -/
theorem declarations_passes {fuel : Nat} {declared all : List Declaration} {r r' : Reading} (hr : r.Closed)
    (h : Reads (declarations fuel declared) r all r') :
    ∃ ds ts depth, all = declared ++ ds ∧ r.Passes ts (Declaration.sizeAll ds) r' ∧
      Grammar.SpellsProgram ds ts depth ∧ depth ≤ 256 ∧ (∀ d ∈ ds, d.body.Proper) ∧
      (∀ d ∈ ds, Action.ofName? d.name = none ∧ Sensor.ofName? d.name = none) ∧
      ((declared.map (·.name)).Nodup → (all.map (·.name)).Nodup) ∧ ∃ t, r'.next? = some t ∧ t.kind = .endOfInput := by
  induction fuel using Nat.strongRecOn generalizing declared r with
  | _ fuel ih =>
    unfold declarations at h
    obtain ⟨t, ht, h⟩ := reads_current_bind.1 h
    split at h
    · rename_i hk
      obtain ⟨rfl, rfl⟩ := reads_pure.1 h
      exact ⟨[], [], 0, by simp, .refl _, .nil, by simp, by simp, by simp, id, t, ht, hk⟩
    · rename_i hk
      split at h
      · exact absurd h not_reads_refuse
      · rename_i fuel _
        obtain ⟨d, r₁, h₁, h⟩ := reads_bind.1 h
        obtain ⟨ts, e, p, hd, he, hbound, hfresh, hnew⟩ := declaration_passes hr ht hk h₁
        obtain ⟨ds, us, depth, rfl, p', hds, hdepth, hbounds, hfreshes, hnodup, hend⟩ :=
          ih fuel (Nat.lt_succ_self _) (p.closed hr) h
        refine ⟨d :: ds, ts ++ us, max e depth, by simp, ?_, .cons hd hds, by omega,
          List.forall_mem_cons.2 ⟨hbound, hbounds⟩, List.forall_mem_cons.2 ⟨hfresh, hfreshes⟩, ?_, hend⟩
        · simpa [Declaration.sizeAll] using p.trans p'
        · intro hdistinct
          apply hnodup
          rw [List.map_append, List.nodup_append]
          refine ⟨hdistinct, by simp, fun a ha b hb => ?_⟩
          rintro rfl
          rw [List.map_singleton, List.mem_singleton] at hb
          exact hnew (hb ▸ ha)
    · exact absurd h not_reads_refuse
    · exact absurd h not_reads_refuse

end Parser

/-! ## Texts -/

namespace Scan

/-- None of the tokens in front of the end is the end of the text. -/
theorem kind_of_mem_read {fuel : Nat} {lx : Lexer} : ∀ t ∈ (read fuel lx).tokens, t.kind ≠ .endOfInput := by
  induction fuel generalizing lx with
  | zero => simp [read]
  | succ fuel ih =>
    unfold read
    split
    · simp
    · split
      · simp
      · rename_i hk
        exact List.forall_mem_cons.2 ⟨hk, ih⟩

/-- The token that ends a text is of the kind that says so. -/
theorem kind_of_ending_read {fuel : Nat} {lx : Lexer} {t : Token} (h : (read fuel lx).ending = .endOfInput t) :
    t.kind = .endOfInput := by
  induction fuel generalizing lx with
  | zero =>
    obtain rfl := Ending.endOfInput.inj h
    rfl
  | succ fuel ih =>
    unfold read at h
    split at h
    · nomatch h
    · split at h
      · rename_i hk
        obtain rfl := Ending.endOfInput.inj h
        exact hk
      · exact ih h

end Scan

/-- A text lexes where its tokens end with the one that stands for its end. -/
theorem lex_eq_ok_iff {source : String} {ts : List Token} {eof : Token} {lexicon : Lexicon} :
    lex source = .ok (ts ++ [eof], lexicon) ↔
      (Scan.of source).tokens = ts ∧ (Scan.of source).ending = .endOfInput eof ∧ (Scan.of source).lexicon = lexicon := by
  unfold lex
  dsimp only
  split
  · rename_i token h
    rw [h, Except.ok.injEq, Prod.mk.injEq, Ending.endOfInput.injEq]
    constructor
    · rintro ⟨hts, hlex⟩
      obtain ⟨h₁, h₂⟩ := List.append_inj' hts rfl
      exact ⟨h₁, List.singleton_inj.1 h₂, hlex⟩
    · rintro ⟨rfl, rfl, rfl⟩
      exact ⟨rfl, rfl⟩
  · rename_i e h
    rw [h]
    constructor
    · intro h'
      nomatch h'
    · rintro ⟨_, h', _⟩
      nomatch h'

/-- What is read of a text is spelled by its tokens, all of them, and is within the bounds. -/
theorem parse_sound {source : String} {ds : List Declaration} (h : parse source = .ok ds) :
    ∃ ts eof lexicon depth, lex source = .ok (ts ++ [eof], lexicon) ∧ Grammar.SpellsProgram ds ts depth ∧
      Grammar.InBounds ds depth := by
  obtain ⟨r', h⟩ := parse_eq_ok_iff.1 h
  have hr : (Reading.ofText source).Closed := fun t ht => Scan.kind_of_ending_read ht
  obtain ⟨_, ts, depth, rfl, p, hspells, hdepth, hbounds, hfresh, hnodup, t, ht, hk⟩ := Parser.declarations_passes hr h
  have hrest : r'.tokens = [] := by
    cases hts : r'.tokens with
    | nil => rfl
    | cons u us =>
      have hu : u ∈ (Reading.ofText source).tokens := by rw [p.tokens, hts]; simp
      have : u = t := by simpa [Reading.next?, hts] using ht
      exact absurd (this ▸ hk) (Scan.kind_of_mem_read u hu)
  have htokens : (Scan.of source).tokens = ts := by simpa [hrest, Reading.ofText] using p.tokens
  have hending : (Scan.of source).ending = .endOfInput t := by
    have he : r'.ending = (Scan.of source).ending := p.ending
    rw [← he]
    rw [Reading.next?, hrest] at ht
    cases hend : r'.ending with
    | endOfInput u =>
      rw [hend] at ht
      rw [Option.some.inj ht]
    | error e =>
      rw [hend] at ht
      cases ht
  refine ⟨ts, t, _, depth, lex_eq_ok_iff.2 ⟨htokens, hending, rfl⟩, hspells, hfresh, hnodup List.nodup_nil,
    fun d hd => (hbounds d hd).bounded, hdepth, ?_⟩
  have hstart : (Reading.ofText source).words ≤ memorySize := show 2 ≤ 4096 by omega
  have hle := p.words_le hstart
  rw [p.words_eq] at hle
  exact hle

end GridRobot

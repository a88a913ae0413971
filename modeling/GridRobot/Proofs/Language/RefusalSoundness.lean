import GridRobot.Proofs.Language.Layout
import GridRobot.Proofs.Language.Pending

/-!
# What is in front of a condition that is too complex

Where a parser refuses a condition as too complex, what it has read up to there is as it should be, and 64 results are pending at the
sensor it refuses (`declarations_refuses`). What has been read is known to be in the grammar because the parsers are sound.
-/

namespace GridRobot

/-! ## How parsers fail -/

/-- In front of a sensor at a position lie some tokens, and so many more words may be counted up to there. -/
def Reading.LeadsTo (r : Reading) (position : Nat) (ts : List Token) (words : Nat) : Prop :=
  ∃ sensor after, r.tokens = ts ++ sensor :: after ∧ sensor.kind = .identifier ∧ (Sensor.ofName? sensor.text).isSome ∧
    sensor.position = position ∧ r.words + words ≤ 4096

/-- What is behind tokens that are taken is ahead behind them. -/
theorem Reading.Passes.leadsTo {r r' : Reading} {ts us : List Token} {m n position : Nat} (h : r.Passes ts m r')
    (h' : r'.LeadsTo position us n) : r.LeadsTo position (ts ++ us) (m + n) := by
  obtain ⟨sensor, after, htokens, hk, hs, hposition, hw⟩ := h'
  refine ⟨sensor, after, by rw [h.tokens, htokens, List.append_assoc], hk, hs, hposition, ?_⟩
  rw [h.words_eq] at hw
  omega

/-- What is left of a text: it ends as texts do, and some memory may be left. -/
structure Reading.Regular (r : Reading) : Prop where
  closed : r.Closed
  lexical : ∀ e, r.ending = .error e → e.problem ≠ .conditionTooComplex
  fits : r.words ≤ 4096

/-- What is left behind tokens that are taken ends as texts do. -/
theorem Reading.Passes.regular {r r' : Reading} {ts : List Token} {n : Nat} (h : r.Passes ts n r') (hr : r.Regular) :
    r'.Regular :=
  ⟨h.closed hr.closed, fun e he => hr.lexical e (h.ending ▸ he), h.words_le hr.fits⟩

namespace Parser

variable {α β : Type}

/-- A parser refuses a reading because a condition is too complex. -/
def TooComplex (p : Parser α) (r : Reading) (position : Nat) : Prop := p r = .error ⟨.conditionTooComplex, position⟩

section

variable {r : Reading} {position : Nat}

/-- Two parsers in a row fail in the first of them, or in the second one behind what the first one has read. -/
theorem tooComplex_bind {p : Parser α} {f : α → Parser β} : TooComplex (p >>= f) r position ↔
    TooComplex p r position ∨ ∃ a r', Reads p r a r' ∧ TooComplex (f a) r' position := by
  refine bind_eq_error.trans (or_congr Iff.rfl ?_)
  constructor
  · rintro ⟨⟨a, r'⟩, hp, hf⟩
    exact ⟨a, r', hp, hf⟩
  · rintro ⟨a, r', hp, hf⟩
    exact ⟨(a, r'), hp, hf⟩

/-- Behind a parser that does not fail this way it is the next one that does. -/
theorem TooComplex.behind {p : Parser α} {f : α → Parser β} (h : TooComplex (p >>= f) r position)
    (hp : ¬ TooComplex p r position) : ∃ a r', Reads p r a r' ∧ TooComplex (f a) r' position :=
  (tooComplex_bind.1 h).resolve_left hp

/-- What is too complex behind what has been read is too complex. -/
theorem TooComplex.of_reads {p : Parser α} {f : α → Parser β} {r' : Reading} {a : α} (h : Reads p r a r')
    (hf : TooComplex (f a) r' position) : TooComplex (p >>= f) r position :=
  tooComplex_bind.2 (.inr ⟨a, r', h, hf⟩)

theorem not_tooComplex_pure {a : α} : ¬ TooComplex (pure a) r position := nofun

/-- An error of another kind does not say that a condition is too complex. -/
theorem not_tooComplex_throw {e : SourceError} (he : e.problem ≠ .conditionTooComplex) :
    ¬ TooComplex (throw e : Parser α) r position := by
  intro h
  exact he (congrArg SourceError.problem (Except.error.inj h))

variable (hr : r.Regular)
include hr

/-- Looking at the token ahead does not meet a condition. -/
theorem not_tooComplex_current : ¬ TooComplex current r position := by
  intro h
  rcases r with ⟨_ | ⟨first, rest⟩, ending, words⟩
  · cases ending with
    | endOfInput token => nomatch h
    | error e =>
      exact hr.lexical e rfl (congrArg SourceError.problem (Except.error.inj h))
  · nomatch h

/-- Where a parser looks at the token ahead, it fails by what it does with it. -/
theorem TooComplex.current {f : Token → Parser β} (h : TooComplex (current >>= f) r position) :
    ∃ t, r.next? = some t ∧ TooComplex (f t) r position := by
  obtain ⟨t, _, ht, h'⟩ := h.behind (not_tooComplex_current hr)
  obtain ⟨ht, rfl⟩ := reads_current.1 ht
  exact ⟨t, ht, h'⟩

/-- A parser that refuses says what it refuses for. -/
theorem problem_of_refuse {problem : Problem} (h : TooComplex (refuse problem : Parser α) r position) :
    problem = .conditionTooComplex := by
  obtain ⟨t, -, h⟩ := h.current hr
  exact congrArg SourceError.problem (Except.error.inj h)

/-- Taking tokens and counting words never fails this way. -/
theorem not_tooComplex_advance : ¬ TooComplex advance r position := by
  intro h
  obtain ⟨t, -, h⟩ := h.current hr
  obtain ⟨_, r', hm, h⟩ := h.behind nofun
  obtain rfl : r.behind = r' := (Prod.mk.inj (Except.ok.inj hm)).2
  have hbehind : r.behind.Regular := ⟨hr.closed, hr.lexical, hr.fits⟩
  obtain ⟨u, -, h⟩ := TooComplex.current hbehind h
  exact not_tooComplex_pure h

theorem not_tooComplex_expect {kind : Kind} : ¬ TooComplex (expect kind) r position := by
  intro h
  obtain ⟨t, -, h⟩ := h.current hr
  split at h
  · exact not_tooComplex_advance hr h
  · cases problem_of_refuse hr h

theorem not_tooComplex_emptyParens : ¬ TooComplex emptyParens r position := by
  intro h
  obtain ⟨opening, r₁, h₁, h⟩ := h.behind (not_tooComplex_expect hr)
  obtain ⟨-, p₁⟩ := passes_expect hr.closed (by decide) h₁
  obtain ⟨closing, r₂, h₂, h⟩ := h.behind (not_tooComplex_expect (p₁.regular hr))
  exact not_tooComplex_pure h

theorem not_tooComplex_reserve : ¬ TooComplex reserve r position := by
  intro h
  change (if r.words < memorySize then _ else _ : Parser Unit) r = _ at h
  split at h
  · nomatch h
  · cases problem_of_refuse hr h

/-- Behind a token that is taken it is what follows that fails. -/
theorem TooComplex.advance {f : Token → Parser β} {t : Token} (h : TooComplex (Parser.advance >>= f) r position)
    (hn : r.next? = some t) (ht : t.kind ≠ .endOfInput) :
    ∃ r', r.Passes [t] 0 r' ∧ TooComplex (f t) r' position := by
  obtain ⟨t', r', h₁, h⟩ := h.behind (not_tooComplex_advance hr)
  obtain rfl : t = t' := Option.some.inj (hn.symm.trans (reads_advance.1 h₁).1)
  exact ⟨r', passes_advance hr.closed h₁ ht, h⟩

/-- Behind a token of a kind, it is the next parser that meets a condition. -/
theorem TooComplex.expect {kind : Kind} {f : Token → Parser β} (h : TooComplex (Parser.expect kind >>= f) r position)
    (hk : kind ≠ .endOfInput) : ∃ t r', t.kind = kind ∧ r.Passes [t] 0 r' ∧ TooComplex (f t) r' position := by
  obtain ⟨t, r', h₁, h⟩ := h.behind (not_tooComplex_expect hr)
  obtain ⟨ht, p₁⟩ := passes_expect hr.closed hk h₁
  exact ⟨t, r', ht, p₁, h⟩

/-- Behind a word that was counted, it is the next parser that meets a condition. -/
theorem TooComplex.reserve {f : Unit → Parser β} (h : TooComplex (Parser.reserve >>= f) r position) :
    ∃ r', r.Passes [] 1 r' ∧ TooComplex (f ()) r' position := by
  obtain ⟨_, r', h₁, h⟩ := h.behind (not_tooComplex_reserve hr)
  exact ⟨r', passes_reserve h₁, h⟩

end

/-! ## What leads to a refusal -/

/-- Where a parser refuses a condition as too complex, tokens that are as they should be for it lead to the sensor. -/
def Refuses (p : Parser α) (P : List Token → Nat → Prop) : Prop :=
  ∀ r position, r.Regular → TooComplex p r position → ∃ ts words, r.LeadsTo position ts words ∧ P ts words

/-- A token that does not end the text is taken from those ahead. -/
theorem exists_tokens_of_next? {r : Reading} {t : Token} (hr : r.Closed) (hn : r.next? = some t)
    (ht : t.kind ≠ .endOfInput) : ∃ rest, r.tokens = t :: rest := by
  rcases r with ⟨_ | ⟨first, rest⟩, ending, words⟩
  · cases ending with
    | endOfInput token =>
      obtain rfl : token = t := Option.some.inj hn
      exact absurd (hr token rfl) ht
    | error e => nomatch hn
  · obtain rfl : first = t := Option.some.inj hn
    exact ⟨rest, rfl⟩

/-- The call of a sensor is refused as too complex only if 64 results are pending, and at its own position. -/
theorem sensor_refuses {pending position : Nat} {r : Reading} {t : Token} (hr : r.Regular) (hn : r.next? = some t)
    (hk : t.kind = .identifier) (h : TooComplex (sensor pending) r position) :
    64 ≤ pending ∧ r.LeadsTo position [] 0 := by
  unfold sensor at h
  obtain ⟨name, ht, h⟩ := h.current hr
  obtain rfl : t = name := Option.some.inj (hn.symm.trans ht)
  split at h
  · cases problem_of_refuse hr h
  · rename_i s hs
    split at h
    · obtain ⟨r₁, p₁, h⟩ := h.advance hr hn (by rw [hk]; decide)
      obtain ⟨_, r₂, h₂, h⟩ := h.behind (not_tooComplex_emptyParens (p₁.regular hr))
      obtain ⟨opening, closing, -, -, p₂⟩ := passes_emptyParens (p₁.closed hr.closed) h₂
      obtain ⟨r₃, -, h⟩ := h.reserve (p₂.regular (p₁.regular hr))
      exact absurd h not_tooComplex_pure
    · rename_i hp
      obtain ⟨t', ht', h⟩ := h.current hr
      obtain rfl : t = t' := Option.some.inj (hn.symm.trans ht')
      have hposition : t.position = position := congrArg SourceError.position (Except.error.inj h)
      obtain ⟨rest, hrest⟩ := exists_tokens_of_next? hr.closed hn (by rw [hk]; decide)
      exact ⟨Nat.le_of_not_lt hp, t, rest, hrest, hk, by rw [hs]; rfl, hposition, hr.fits⟩

section Chain

variable {sign : Kind} {operand : Nat → Parser Condition} {join : Condition → Condition → Nat → Condition}
  {Left Operand : Condition → List Token → Prop} {First Lead : List Token → Nat → Prop} {pending : Nat}

/-- Behind a left part it is one of the operands that is refused; the induction is on the fuel. -/
theorem chainFrom_refuses (hsign : sign ≠ .endOfInput) (hop : Sound (operand (pending + 1)) Condition.size Operand)
    (hlead : Refuses (operand (pending + 1)) Lead) (hsize : ∀ l r n, (join l r n).size = l.size + r.size + 1)
    (hjoin : ∀ {l ts op r us}, Left l ts → op.kind = sign → Operand r us → Left (join l r op.line) (ts ++ op :: us))
    {fuel position : Nat} {left : Condition} {ts : List Token} {r : Reading} (hl : Left left ts) (hr : r.Regular)
    (h : TooComplex (chainFrom sign (operand (pending + 1)) join fuel left) r position) :
    ∃ left' us operator vs m n, Left left' (ts ++ us) ∧ left'.size = left.size + m ∧ operator.kind = sign ∧ Lead vs n ∧
      r.LeadsTo position (us ++ operator :: vs) (m + n) := by
  induction fuel generalizing left ts r with
  | zero => exact absurd h not_tooComplex_pure
  | succ fuel ih =>
    unfold chainFrom at h
    obtain ⟨op, ht, h⟩ := h.current hr
    split at h
    · rename_i hk
      obtain ⟨r₁, p₁, h⟩ := h.advance hr ht (by rwa [hk])
      have hr₁ := p₁.regular hr
      rcases tooComplex_bind.1 h with h | ⟨right, r₂, h₂, h⟩
      · obtain ⟨vs, n, hahead, hvs⟩ := hlead _ _ hr₁ h
        exact ⟨left, [], op, vs, 0, n, by rwa [List.append_nil], rfl, hk, hvs, p₁.leadsTo hahead⟩
      · obtain ⟨us, p₂, hright⟩ := hop _ _ _ hr₁.closed h₂
        obtain ⟨r₃, p₃, h⟩ := h.reserve (p₂.regular hr₁)
        have p := (p₁.trans p₂).trans p₃
        obtain ⟨left', us', operator, vs, m, n, hleft', hsize', hoperator, hvs, hahead⟩ :=
          ih (hjoin hl hk hright) (p.regular hr) h
        refine ⟨left', op :: us ++ us', operator, vs, right.size + 1 + m, n, ?_, ?_, hoperator, hvs, ?_⟩
        · simpa using hleft'
        · rw [hsize', hsize]
          omega
        · have := p.leadsTo hahead
          simpa [Nat.add_assoc] using this
    · exact absurd h not_tooComplex_pure

/-- In a chain it is the first operand that is refused, or one behind a left part. -/
theorem chain_refuses (hsign : sign ≠ .endOfInput) (hleft : Sound (operand pending) Condition.size Left)
    (hfirst : Refuses (operand pending) First) (hop : Sound (operand (pending + 1)) Condition.size Operand)
    (hlead : Refuses (operand (pending + 1)) Lead) (hsize : ∀ l r n, (join l r n).size = l.size + r.size + 1)
    (hjoin : ∀ {l ts op r us}, Left l ts → op.kind = sign → Operand r us → Left (join l r op.line) (ts ++ op :: us)) :
    Refuses (chain sign operand join pending) fun ts words => First ts words ∨ ∃ left us operator vs n, Left left us ∧
      operator.kind = sign ∧ Lead vs n ∧ ts = us ++ operator :: vs ∧ words = left.size + n := by
  intro r position hr h
  unfold chain at h
  rcases tooComplex_bind.1 h with h | ⟨first, r₁, h₁, h⟩
  · obtain ⟨ts, words, hahead, hts⟩ := hfirst _ _ hr h
    exact ⟨ts, words, hahead, .inl hts⟩
  · obtain ⟨ts, p₁, hts⟩ := hleft _ _ _ hr.closed h₁
    obtain ⟨left, us, operator, vs, m, n, hleft, hsize, hoperator, hvs, hahead⟩ :=
      chainFrom_refuses hsign hop hlead hsize hjoin hts (p₁.regular hr) h
    refine ⟨_, _, p₁.leadsTo hahead, .inr ⟨left, ts ++ us, operator, vs, n, hleft, hoperator, hvs, ?_, ?_⟩⟩
    · rw [List.append_assoc]
    · rw [hsize]
      omega

end Chain

/-- Tokens in front of a sensor that may not be read with the results pending there. -/
def Crowded (layer : Grammar.Layer) (room pending : Nat) (ts : List Token) (words : Nat) : Prop :=
  ∃ reached, 64 ≤ reached ∧ Grammar.BeforeSensor layer room pending ts words reached

/-- A conjunction is refused in one of its parts, with the results pending that the operators in front leave. -/
theorem conjunction_refuses {part : Nat → Parser Condition} {room : Nat}
    (hsound : ∀ pending, Sound (part pending) Condition.size (IsCondition .part room pending))
    (hpart : ∀ pending, Refuses (part pending) (Crowded .part room pending)) (pending : Nat) :
    Refuses (chain .doubleAmpersand part .and pending) (Crowded .conjunction room pending) := by
  intro r position hr h
  obtain ⟨ts, words, hahead, hts⟩ := chain_refuses (by decide) ((hsound pending).weaken IsCondition.single) (hpart pending)
    (hsound (pending + 1)) (hpart (pending + 1)) (fun _ _ _ => rfl) IsCondition.and r position hr h
  refine ⟨ts, words, hahead, ?_⟩
  rcases hts with ⟨reached, hle, hts⟩ | ⟨left, us, operator, vs, n, hleft, hk, ⟨reached, hle, hvs⟩, rfl, rfl⟩
  · exact ⟨reached, hle, .single hts⟩
  · exact ⟨reached, hle, .and hleft hk hvs⟩

/-- A disjunction is refused in one of its conjunctions, with the results pending that the operators in front leave. -/
theorem disjunction_refuses {part : Nat → Parser Condition} {room : Nat}
    (hsound : ∀ pending, Sound (part pending) Condition.size (IsCondition .part room pending))
    (hpart : ∀ pending, Refuses (part pending) (Crowded .part room pending)) (pending : Nat) :
    Refuses (disjunction part pending) (Crowded .disjunction room pending) := by
  intro r position hr h
  have hconjunction := conjunction_sound hsound
  obtain ⟨ts, words, hahead, hts⟩ := chain_refuses (by decide) ((hconjunction pending).weaken IsCondition.only)
    (conjunction_refuses hsound hpart pending) (hconjunction (pending + 1))
    (conjunction_refuses hsound hpart (pending + 1)) (fun _ _ _ => rfl) IsCondition.or r position hr h
  refine ⟨ts, words, hahead, ?_⟩
  rcases hts with ⟨reached, hle, hts⟩ | ⟨left, us, operator, vs, n, hleft, hk, ⟨reached, hle, hvs⟩, rfl, rfl⟩
  · exact ⟨reached, hle, .only hts⟩
  · exact ⟨reached, hle, .or hleft hk hvs⟩

/-- The induction is on the levels of nesting that are left. -/
theorem part_refuses (room : Nat) : ∀ pending, Refuses (part room pending) (Crowded .part room pending) := by
  induction room with
  | zero =>
    intro pending r position hr h
    simp only [part] at h
    obtain ⟨t, ht, h⟩ := h.current hr
    split at h
    · rename_i hk
      obtain ⟨hp, hahead⟩ := sensor_refuses hr ht hk h
      exact ⟨[], 0, hahead, pending, hp, .here 0 pending⟩
    · rename_i hk
      obtain ⟨r₁, p₁, h⟩ := h.advance hr ht (by rw [hk]; decide)
      cases problem_of_refuse (p₁.regular hr) h
    · rename_i hk
      obtain ⟨r₁, p₁, h⟩ := h.advance hr ht (by rw [hk]; decide)
      cases problem_of_refuse (p₁.regular hr) h
    · cases problem_of_refuse hr h
  | succ room ih =>
    intro pending r position hr h
    simp only [part] at h
    obtain ⟨t, ht, h⟩ := h.current hr
    split at h
    · rename_i hk
      obtain ⟨hp, hahead⟩ := sensor_refuses hr ht hk h
      exact ⟨[], 0, hahead, pending, hp, .here _ pending⟩
    · rename_i hk
      obtain ⟨r₁, p₁, h⟩ := h.advance hr ht (by rw [hk]; decide)
      have hr₁ := p₁.regular hr
      rcases tooComplex_bind.1 h with h | ⟨operand, r₂, h₂, h⟩
      · obtain ⟨ts, words, hahead, reached, hle, hts⟩ := ih pending _ _ hr₁ h
        refine ⟨t :: ts, words, ?_, reached, hle, .negation hk hts⟩
        simpa using p₁.leadsTo hahead
      · obtain ⟨us, p₂, -⟩ := part_sound room pending _ _ _ hr₁.closed h₂
        obtain ⟨r₃, p₃, h⟩ := h.reserve (p₂.regular hr₁)
        exact absurd h not_tooComplex_pure
    · rename_i hk
      obtain ⟨r₁, p₁, h⟩ := h.advance hr ht (by rw [hk]; decide)
      have hr₁ := p₁.regular hr
      rcases tooComplex_bind.1 h with h | ⟨inner, r₂, h₂, h⟩
      · obtain ⟨ts, words, hahead, reached, hle, hts⟩ := disjunction_refuses (part_sound room) ih pending _ _ hr₁ h
        refine ⟨t :: ts, words, ?_, reached, hle, .group hk hts⟩
        simpa using p₁.leadsTo hahead
      · obtain ⟨us, p₂, -⟩ := disjunction_sound (part_sound room) pending _ _ _ hr₁.closed h₂
        obtain ⟨closing, r₃, -, -, h⟩ := h.expect (p₂.regular hr₁) (by decide)
        exact absurd h not_tooComplex_pure
    · cases problem_of_refuse hr h

/-- The test of a statement is refused at the sensor that the 65th result would be pending behind. -/
theorem test_refuses (room : Nat) : Refuses (test room) fun ts words => ∃ opening us, ts = opening :: us ∧
    opening.kind = .openingParen ∧ Grammar.BeforeSensor .disjunction room 0 us words 64 := by
  intro r position hr h
  unfold test at h
  obtain ⟨opening, r₁, ho, p₁, h⟩ := h.expect hr (by decide)
  have hr₁ := p₁.regular hr
  rcases tooComplex_bind.1 h with h | ⟨condition, r₂, h₂, h⟩
  · obtain ⟨us, words, hahead, reached, hle, hus⟩ :=
      disjunction_refuses (part_sound room) (part_refuses room) 0 _ _ hr₁ h
    obtain rfl : reached = 64 := Nat.le_antisymm (hus.reached_le (by decide)) hle
    refine ⟨opening :: us, words, ?_, opening, us, rfl, ho, hus⟩
    simpa using p₁.leadsTo hahead
  · obtain ⟨us, p₂, -⟩ := disjunction_sound (part_sound room) 0 _ _ _ hr₁.closed h₂
    obtain ⟨closing, r₃, -, -, h⟩ := h.expect (p₂.regular hr₁) (by decide)
    exact absurd h not_tooComplex_pure

/-! ## Statements that lead to a refusal -/

/-- The call of a command or an action has no condition. -/
theorem not_tooComplex_call {r : Reading} {t : Token} {position : Nat} (hr : r.Regular) (hn : r.next? = some t)
    (hk : t.kind = .identifier) : ¬ TooComplex call r position := by
  intro h
  unfold call at h
  obtain ⟨r₁, p₁, h⟩ := h.advance hr hn (by rw [hk]; decide)
  have hr₁ := p₁.regular hr
  dsimp only at h
  split at h
  · obtain ⟨_, _, h₂, -⟩ := h.behind (not_tooComplex_throw nofun)
    exact reads_throw h₂
  · obtain ⟨_, r₂, h₂, h⟩ := h.behind (not_tooComplex_emptyParens hr₁)
    obtain ⟨opening, closing, -, -, p₂⟩ := passes_emptyParens hr₁.closed h₂
    have hr₂ := p₂.regular hr₁
    obtain ⟨semicolon, r₃, -, p₃, h⟩ := h.expect hr₂ (by decide)
    obtain ⟨r₄, -, h⟩ := h.reserve (p₃.regular hr₂)
    split at h <;> exact not_tooComplex_pure h

section Statements

variable {room fuel position : Nat} {block : Parser Block} {further : Parser Statement} {r : Reading} {t : Token}

/-- What a parser refuses of a conditional that lies ahead. -/
def RefusesConditional (room : Nat) (p : Parser Statement) : Prop :=
  ∀ r t position, r.Regular → r.next? = some t → t.kind = .ifWord → TooComplex p r position →
    ∃ ts words, r.LeadsTo position ts words ∧ Grammar.BeforeTest 64 .conditional room ts words

/-- An alternative is refused in its block or in its conditional. -/
theorem alternative_refuses (hblock : Refuses block (Grammar.BeforeTest 64 .block room))
    (hfurther : RefusesConditional room further) (hr : r.Regular) (h : TooComplex (alternative block further) r position) :
    ∃ elseWord place ts words, elseWord.kind = .elseWord ∧ (place = .block ∨ place = .conditional) ∧
      Grammar.BeforeTest 64 place room ts words ∧ r.LeadsTo position (elseWord :: ts) (1 + words) := by
  unfold alternative at h
  obtain ⟨t, ht, h⟩ := h.current hr
  split at h
  · rename_i helse
    obtain ⟨r₁, p₁, h⟩ := h.advance hr ht (by rw [helse]; decide)
    obtain ⟨r₂, p₂, h⟩ := h.reserve (p₁.regular hr)
    have p := p₁.trans p₂
    have hr₂ := p.regular hr
    obtain ⟨u, hu, h⟩ := h.current hr₂
    split at h
    · rcases tooComplex_bind.1 h with h | ⟨⟨otherwise, final⟩, r₃, -, h⟩
      · obtain ⟨ts, words, hahead, hts⟩ := hblock _ _ hr₂ h
        exact ⟨t, .block, ts, words, helse, .inl rfl, hts, p.leadsTo hahead⟩
      · exact absurd h not_tooComplex_pure
    · rename_i hif
      rcases tooComplex_bind.1 h with h | ⟨otherwise, r₃, -, h⟩
      · obtain ⟨ts, words, hahead, hts⟩ := hfurther _ _ _ hr₂ hu hif h
        exact ⟨t, .conditional, ts, words, helse, .inr rfl, hts, p.leadsTo hahead⟩
      · exact absurd h not_tooComplex_pure
    · cases problem_of_refuse hr₂ h
  · exact absurd h not_tooComplex_pure

variable (hsound : Sound block (·.1.size) (IsBlock room)) (hblock : Refuses block (Grammar.BeforeTest 64 .block room))
include hsound hblock

/-- Where a keyword, a test and a block are read one behind the other, the test is refused, the block, or what follows them. -/
theorem guarded_refuses {f : Token → Condition → Block → Parser β} (hr : r.Regular) (hn : r.next? = some t)
    (ht : t.kind ≠ .endOfInput)
    (h : TooComplex (advance >>= fun keyword => test room >>= fun c => reserve >>= fun _ => block >>= f keyword c) r position) :
    (∃ opening us words, opening.kind = .openingParen ∧ Grammar.BeforeSensor .disjunction room 0 us words 64 ∧
        r.LeadsTo position (t :: opening :: us) words) ∨
      ∃ c ts, IsTest room c ts ∧
        ((∃ us words, Grammar.BeforeTest 64 .block room us words ∧ r.LeadsTo position (t :: ts ++ us) (c.size + 1 + words)) ∨
          ∃ b us r', IsBlock room b us ∧ r.Passes (t :: ts ++ us) (c.size + 1 + b.1.size) r' ∧
            TooComplex (f t c b) r' position) := by
  obtain ⟨r₁, p₁, h⟩ := h.advance hr hn ht
  have hr₁ := p₁.regular hr
  rcases tooComplex_bind.1 h with h | ⟨c, r₂, h₂, h⟩
  · obtain ⟨_, words, hahead, opening, us, rfl, ho, hus⟩ := test_refuses room _ _ hr₁ h
    refine .inl ⟨opening, us, words, ho, hus, ?_⟩
    simpa using p₁.leadsTo hahead
  obtain ⟨ts, p₂, htest⟩ := test_sound room _ _ _ hr₁.closed h₂
  have p₂ := p₁.trans p₂
  obtain ⟨r₃, p₃, h⟩ := h.reserve (p₂.regular hr)
  have p₃ := p₂.trans p₃
  have hr₃ := p₃.regular hr
  refine .inr ⟨c, ts, htest, ?_⟩
  rcases tooComplex_bind.1 h with h | ⟨b, r₄, h₄, h⟩
  · obtain ⟨us, words, hahead, hus⟩ := hblock _ _ hr₃ h
    refine .inl ⟨us, words, hus, ?_⟩
    simpa using p₃.leadsTo hahead
  · obtain ⟨us, p₄, hbody⟩ := hsound _ _ _ hr₃.closed h₄
    refine .inr ⟨b, us, r₄, hbody, ?_, h⟩
    simpa using p₃.trans p₄

/-- A conditional is refused in its test, in its block or in what is to be done otherwise. -/
theorem conditionalThen_refuses (hfurther : RefusesConditional room further) :
    RefusesConditional room (conditionalThen room block further) := by
  intro r t position hr hn hk h
  rcases guarded_refuses hsound hblock hr hn (by rw [hk]; decide) h with
    ⟨opening, us, words, ho, hus, hahead⟩ | ⟨test, ts, htest, ⟨us, words, hus, hahead⟩ | ⟨⟨body, closing⟩, us, r', hbody, p, h⟩⟩
  · exact ⟨_, _, hahead, .ifTest hk ho hus⟩
  · exact ⟨_, _, hahead, .ifBody hk htest hus⟩
  · rcases tooComplex_bind.1 h with h | ⟨other, r₅, -, h⟩
    · obtain ⟨elseWord, place, vs, words, helse, hplace, hvs, hahead⟩ := alternative_refuses hblock hfurther (p.regular hr) h
      refine ⟨_, _, ?_, .otherwise hk htest hbody helse hplace hvs⟩
      simpa [Nat.add_assoc] using p.leadsTo hahead
    · split at h <;> exact absurd h not_tooComplex_pure

/-- The induction is on the fuel, which is one less for each `else if`. -/
theorem conditional_refuses : RefusesConditional room (conditional room block fuel) := by
  induction fuel with
  | zero =>
    refine conditionalThen_refuses hsound hblock ?_
    intro r t position hr _ _ h
    cases problem_of_refuse hr h
  | succ fuel ih => exact conditionalThen_refuses hsound hblock ih

/-- A loop on a condition is refused in its test or in its block. -/
theorem whileLoop_refuses (hr : r.Regular) (hn : r.next? = some t) (hk : t.kind = .whileWord)
    (h : TooComplex (whileLoop room block) r position) :
    ∃ ts words, r.LeadsTo position ts words ∧ Grammar.BeforeTest 64 .statement room ts words := by
  rcases guarded_refuses hsound hblock hr hn (by rw [hk]; decide) h with
    ⟨opening, us, words, ho, hus, hahead⟩ | ⟨test, ts, htest, ⟨us, words, hus, hahead⟩ | ⟨b, us, r', -, p, h⟩⟩
  · exact ⟨_, _, hahead, .whileTest hk ho hus⟩
  · exact ⟨_, _, hahead, .whileBody hk htest hus⟩
  · obtain ⟨r₅, -, h⟩ := h.reserve (p.regular hr)
    exact absurd h not_tooComplex_pure

/-- A repeat is refused in its block. -/
theorem repeatLoop_refuses (hr : r.Regular) (hn : r.next? = some t) (hk : t.kind = .repeatWord)
    (h : TooComplex (repeatLoop block) r position) :
    ∃ ts words, r.LeadsTo position ts words ∧ Grammar.BeforeTest 64 .statement room ts words := by
  unfold repeatLoop at h
  obtain ⟨r₁, p₁, h⟩ := h.advance hr hn (by rw [hk]; decide)
  obtain ⟨opening, r₂, ho, p₂, h⟩ := h.expect (p₁.regular hr) (by decide)
  have p₂ := p₁.trans p₂
  obtain ⟨number, r₃, hnumber, p₃, h⟩ := h.expect (p₂.regular hr) (by decide)
  have p₃ := p₂.trans p₃
  split at h
  · exact absurd h (not_tooComplex_throw nofun)
  · rename_i count hcount
    obtain ⟨hvalue, hrange⟩ := repeatCount?_eq_some.1 hcount
    obtain ⟨closing, r₄, hc, p₄, h⟩ := h.expect (p₃.regular hr) (by decide)
    have p₄ := p₃.trans p₄
    obtain ⟨r₅, p₅, h⟩ := h.reserve (p₄.regular hr)
    have p₅ := p₄.trans p₅
    have hr₅ := p₅.regular hr
    rcases tooComplex_bind.1 h with h | ⟨⟨body, final⟩, r₆, h₆, h⟩
    · obtain ⟨us, words, hahead, hus⟩ := hblock _ _ hr₅ h
      refine ⟨_, _, ?_, .repeatBody hk ho hnumber hvalue hrange hc hus⟩
      simpa using p₅.leadsTo hahead
    · obtain ⟨us, p₆, -⟩ := hsound _ _ _ hr₅.closed h₆
      obtain ⟨r₇, -, h⟩ := h.reserve (p₆.regular hr₅)
      exact absurd h not_tooComplex_pure

/-- A statement is refused where a test of it is, if this is so for blocks. -/
theorem statement_refuses : Refuses (statement room block) (Grammar.BeforeTest 64 .statement room) := by
  intro r position hr h
  unfold statement at h
  obtain ⟨t, ht, h⟩ := h.current hr
  split at h
  · rename_i hk
    exact absurd h (not_tooComplex_call hr ht hk)
  · rename_i hk
    obtain ⟨ts, words, hahead, hts⟩ := conditional_refuses hsound hblock _ _ _ hr ht hk h
    exact ⟨ts, words, hahead, .conditional hts⟩
  · rename_i hk
    exact whileLoop_refuses hsound hblock hr ht hk h
  · rename_i hk
    exact repeatLoop_refuses hsound hblock hr ht hk h
  · cases problem_of_refuse hr h

end Statements

/-- Of the statements of a block one is refused, behind others that are read; the induction is on the fuel. -/
theorem statements_refuses {room fuel : Nat} {statement : Parser Statement}
    (hsound : Sound statement Statement.size (IsStatement .statement room))
    (hstatement : Refuses statement (Grammar.BeforeTest 64 .statement room)) :
    Refuses (statements statement fuel) fun ts words => ∃ s us vs n, IsStatement .body room s us ∧
      Grammar.BeforeTest 64 .statement room vs n ∧ ts = us ++ vs ∧ words = s.size + n := by
  induction fuel using Nat.strongRecOn with
  | _ fuel ih =>
    intro r position hr h
    unfold statements at h
    obtain ⟨t, ht, h⟩ := h.current hr
    split at h
    · rename_i hk
      obtain ⟨r₁, -, h⟩ := h.advance hr ht (by rw [hk]; decide)
      exact absurd h not_tooComplex_pure
    · cases problem_of_refuse hr h
    · cases problem_of_refuse hr h
    · split at h
      · cases problem_of_refuse hr h
      · rename_i fuel _
        rcases tooComplex_bind.1 h with h | ⟨first, r₁, h₁, h⟩
        · obtain ⟨vs, n, hahead, hvs⟩ := hstatement _ _ hr h
          exact ⟨vs, n, hahead, .nothing, [], vs, n, ⟨0, .nothing, Nat.zero_le _, .nothing⟩, hvs, rfl, (Nat.zero_add n).symm⟩
        · obtain ⟨ts, p₁, d, hfirst, hd, hproper⟩ := hsound _ _ _ hr.closed h₁
          rcases tooComplex_bind.1 h with h | ⟨⟨rest, closing⟩, r₂, -, h⟩
          · obtain ⟨_, _, hahead, s, us, vs, n, ⟨e, hs, he, hproper'⟩, hvs, rfl, rfl⟩ :=
              ih fuel (Nat.lt_succ_self _) _ _ (p₁.regular hr) h
            refine ⟨_, _, p₁.leadsTo hahead, .andThen first s, ts ++ us, vs, n, ?_, hvs, ?_, ?_⟩
            · exact ⟨max d e, .andThen hfirst hs, by omega, Statement.Proper.andThen_iff.2 ⟨hproper, hproper'⟩⟩
            · rw [List.append_assoc]
            · rw [Statement.size, Nat.add_assoc]
          · exact absurd h not_tooComplex_pure

/-- The induction is on the levels of nesting that are left. -/
theorem block_refuses (room : Nat) : Refuses (block room) (Grammar.BeforeTest 64 .block room) := by
  induction room with
  | zero =>
    intro r position hr h
    obtain ⟨opening, r₁, -, p₁, h⟩ := TooComplex.expect hr h (by decide)
    cases problem_of_refuse (p₁.regular hr) h
  | succ room ih =>
    intro r position hr h
    obtain ⟨opening, r₁, ho, p₁, h⟩ := TooComplex.expect hr h (by decide)
    have hsound := block_sound room
    obtain ⟨_, _, hahead, s, us, vs, n, hs, hvs, rfl, rfl⟩ :=
      statements_refuses (statement_sound hsound) (statement_refuses hsound ih) _ _ (p₁.regular hr) h
    refine ⟨_, _, ?_, .block ho hs hvs⟩
    simpa using p₁.leadsTo hahead

/-! ## Commands that lead to a refusal -/

/-- A declaration is refused in its body. -/
theorem declaration_refuses {declared : List Declaration} {r : Reading} {t : Token} {position : Nat} (hr : r.Regular)
    (hn : r.next? = some t) (hk : t.kind = .voidWord) (h : TooComplex (declaration declared) r position) :
    ∃ ts words, r.LeadsTo position ts words ∧ Grammar.BeginsCommand 64 (declared.map (·.name)) ts words := by
  unfold declaration at h
  obtain ⟨r₁, p₁, h⟩ := h.advance hr hn (by rw [hk]; decide)
  obtain ⟨name, r₂, hname, p₂, h⟩ := h.expect (p₁.regular hr) (by decide)
  have p₂ := p₁.trans p₂
  dsimp only at h
  split at h
  · obtain ⟨_, _, h₃, -⟩ := h.behind (not_tooComplex_throw nofun)
    exact absurd h₃ reads_throw
  · rename_i hfresh
    obtain ⟨_, r₃, h₃, h⟩ := h.behind (not_tooComplex_emptyParens (p₂.regular hr))
    obtain ⟨opening, closing, ho, hc, p₃⟩ := passes_emptyParens (p₂.closed hr.closed) h₃
    have p₃ := p₂.trans p₃
    have hr₃ := p₃.regular hr
    split at h
    · obtain ⟨_, _, h₄, -⟩ := h.behind (not_tooComplex_throw nofun)
      exact absurd h₄ reads_throw
    · rename_i hnew
      rcases tooComplex_bind.1 h with h | ⟨⟨body, final⟩, r₄, h₄, h⟩
      · obtain ⟨ts, words, hahead, hts⟩ := block_refuses nestingLimit _ _ hr₃ h
        refine ⟨t :: name :: opening :: closing :: ts, words, ?_,
          .void hk hname ho hc (isBuiltin_eq_false.1 (Bool.not_eq_true _ ▸ hfresh)) ?_ hts⟩
        · simpa using p₃.leadsTo hahead
        · intro hmem
          obtain ⟨d, hd, he⟩ := List.mem_map.1 hmem
          exact hnew (List.any_eq_true.2 ⟨d, hd, beq_iff_eq.2 he⟩)
      · obtain ⟨us, p₄, -⟩ := block_sound nestingLimit _ _ _ hr₃.closed h₄
        obtain ⟨r₅, -, h⟩ := h.reserve (p₄.regular hr₃)
        exact absurd h not_tooComplex_pure

/-- Of the declarations one is refused, behind others that are read; the induction is on the fuel. -/
theorem declarations_refuses {fuel : Nat} {declared : List Declaration} {r : Reading} {position : Nat} (hr : r.Regular)
    (hdistinct : (declared.map (·.name)).Nodup) (h : TooComplex (declarations fuel declared) r position) :
    ∃ ds ts us words, r.LeadsTo position (ts ++ us) (Declaration.sizeAll ds + words) ∧
      Grammar.Commands (declared.map (·.name)) ds ts ∧
      Grammar.BeginsCommand 64 ((declared ++ ds).map (·.name)) us words := by
  induction fuel using Nat.strongRecOn generalizing declared r with
  | _ fuel ih =>
    unfold declarations at h
    obtain ⟨t, ht, h⟩ := h.current hr
    split at h
    · exact absurd h not_tooComplex_pure
    · rename_i hk
      split at h
      · cases problem_of_refuse hr h
      · rename_i fuel _
        rcases tooComplex_bind.1 h with h | ⟨d, r₁, h₁, h⟩
        · obtain ⟨us, words, hahead, hus⟩ := declaration_refuses hr ht hk h
          refine ⟨[], [], us, words, ?_, .nil hdistinct, ?_⟩
          · rwa [Declaration.sizeAll, Nat.zero_add]
          · rwa [List.append_nil]
        · obtain ⟨vs, e, p, hd, he, hproper, hfresh, hnew⟩ := declaration_passes hr.closed ht hk h₁
          have hdistinct' : ((declared ++ [d]).map (·.name)).Nodup := by
            rw [List.map_append, List.nodup_append]
            refine ⟨hdistinct, by simp, ?_⟩
            rintro a ha b hb rfl
            rw [List.map_singleton, List.mem_singleton] at hb
            exact hnew (hb ▸ ha)
          obtain ⟨ds, ts, us, words, hahead, hcommands, hus⟩ := ih fuel (Nat.lt_succ_self _) (p.regular hr) hdistinct' h
          rw [List.map_append] at hcommands
          rw [List.append_assoc, List.singleton_append] at hus
          refine ⟨d :: ds, vs ++ ts, us, words, ?_, .cons hd he hproper hfresh hcommands, hus⟩
          rw [List.append_assoc, Declaration.sizeAll, Nat.add_assoc]
          exact p.leadsTo hahead
    · cases problem_of_refuse hr h
    · cases problem_of_refuse hr h

end Parser

end GridRobot

import GridRobot.Language.Parser

/-!
# What a parser reads

`Reads p r a r'` says that a parser makes `a` of a reading and leaves another. For the parsers that take single tokens this is
spelled out here, and for two parsers in a row it is said by `reads_bind`; the laws of the grammar are derived from these alone.
-/

namespace GridRobot

/-- The token ahead, unless there is a lexical error in its place. -/
def Reading.next? (r : Reading) : Option Token :=
  match r.tokens, r.ending with
  | token :: _, _ => some token
  | [], .endOfInput token => some token
  | [], .error _ => none

/-- The reading behind the token ahead. -/
def Reading.behind (r : Reading) : Reading := { r with tokens := r.tokens.tail }

/-- A text at its beginning. -/
def Reading.ofText (source : String) : Reading := ⟨(Scan.of source).tokens, (Scan.of source).ending, Parser.headerSize⟩

namespace Parser

variable {α β : Type}

/-- A parser makes a value of a reading, and leaves the rest of it. -/
def Reads (p : Parser α) (r : Reading) (a : α) (r' : Reading) : Prop := p r = .ok (a, r')

/-! ## Parsers in a row -/

/-- What is given without reading takes nothing. -/
theorem reads_pure {a b : α} {r r' : Reading} : Reads (pure a) r b r' ↔ b = a ∧ r' = r := by
  change Except.ok (a, r) = Except.ok (b, r') ↔ _
  rw [Except.ok.injEq, Prod.mk.injEq]
  exact ⟨fun ⟨h₁, h₂⟩ => ⟨h₁.symm, h₂.symm⟩, fun ⟨h₁, h₂⟩ => ⟨h₁.symm, h₂.symm⟩⟩

/-- Two parsers in a row read what the first makes of the reading, and then what the second makes of the rest. -/
theorem reads_bind {p : Parser α} {f : α → Parser β} {r r'' : Reading} {b : β} :
    Reads (p >>= f) r b r'' ↔ ∃ a r', Reads p r a r' ∧ Reads (f a) r' b r'' := by
  change (p r >>= fun x => f x.1 x.2) = _ ↔ _
  cases h : p r with
  | error e =>
    constructor
    · intro hr
      nomatch hr
    · rintro ⟨a, r', ha, _⟩
      rw [Reads, h] at ha
      nomatch ha
  | ok x =>
    constructor
    · intro hr
      exact ⟨x.1, x.2, h, hr⟩
    · rintro ⟨a, r', ha, hf⟩
      rw [Reads, h, Except.ok.injEq] at ha
      subst ha
      exact hf

/-- Where the first of two parsers has read, the second one decides. -/
theorem bind_of_reads {p : Parser α} {f : α → Parser β} {r r' : Reading} {a : α} (h : Reads p r a r') :
    (p >>= f) r = f a r' := by
  change (p r >>= fun x => f x.1 x.2) = _
  rw [show p r = _ from h]
  rfl

theorem reads_throw {e : SourceError} {r r' : Reading} {a : α} : ¬Reads (throw e : Parser α) r a r' := by
  intro h
  nomatch h

/-! ## Single tokens -/

/-- Looking at the token ahead takes nothing, and is possible unless there is a lexical error in its place. -/
theorem reads_current {r r' : Reading} {t : Token} : Reads current r t r' ↔ r.next? = some t ∧ r' = r := by
  rcases r with ⟨_ | ⟨first, rest⟩, ending, words⟩
  · cases ending with
    | endOfInput token =>
      change Except.ok (token, _) = Except.ok (t, r') ↔ _
      simp only [Reading.next?, Except.ok.injEq, Prod.mk.injEq, Option.some.injEq, eq_comm]
    | error e =>
      change Except.error e = Except.ok (t, r') ↔ _
      simp [Reading.next?]
  · change Except.ok (first, _) = Except.ok (t, r') ↔ _
    simp only [Reading.next?, Except.ok.injEq, Prod.mk.injEq, Option.some.injEq, eq_comm]

/-- What depends on the token ahead reads as it does for that token. -/
theorem reads_current_bind {f : Token → Parser β} {r r' : Reading} {b : β} :
    Reads (current >>= f) r b r' ↔ ∃ t, r.next? = some t ∧ Reads (f t) r b r' := by
  rw [reads_bind]
  constructor
  · rintro ⟨t, _, hc, h⟩
    obtain ⟨ht, rfl⟩ := reads_current.1 hc
    exact ⟨t, ht, h⟩
  · rintro ⟨t, ht, h⟩
    exact ⟨t, r, reads_current.2 ⟨ht, rfl⟩, h⟩

/-- A parser that refuses reads nothing. -/
theorem not_reads_refuse {problem : Problem} {r r' : Reading} {a : α} : ¬Reads (refuse problem : Parser α) r a r' := by
  intro h
  obtain ⟨t, _, ht⟩ := reads_current_bind.1 h
  exact reads_throw ht

/-- A token is taken if the next one can be looked at: a lexical error behind it is met before it is taken. -/
theorem reads_advance {r r' : Reading} {t : Token} :
    Reads advance r t r' ↔ r.next? = some t ∧ r' = r.behind ∧ r'.next?.isSome := by
  have hm : ∀ {r₁ r₂ : Reading} {u : PUnit},
      Reads (modify fun reading : Reading => { reading with tokens := reading.tokens.tail }) r₁ u r₂ ↔ r₂ = r₁.behind := by
    intro r₁ r₂ u
    change Except.ok (PUnit.unit, r₁.behind) = Except.ok (u, r₂) ↔ _
    simp only [Except.ok.injEq, Prod.mk.injEq, true_and, eq_comm]
  unfold advance
  constructor
  · intro h
    obtain ⟨t', ht, h⟩ := reads_current_bind.1 h
    obtain ⟨_, r₁, h₁, h⟩ := reads_bind.1 h
    obtain rfl := hm.1 h₁
    obtain ⟨u, hu, h⟩ := reads_current_bind.1 h
    obtain ⟨rfl, rfl⟩ := reads_pure.1 h
    exact ⟨ht, rfl, by rw [hu]; rfl⟩
  · rintro ⟨ht, rfl, hs⟩
    obtain ⟨u, hu⟩ := Option.isSome_iff_exists.1 hs
    exact reads_current_bind.2 ⟨t, ht, reads_bind.2 ⟨⟨⟩, _, hm.2 rfl,
      reads_current_bind.2 ⟨u, hu, reads_pure.2 ⟨rfl, rfl⟩⟩⟩⟩

/-- A token that must be of a kind is taken if it is. -/
theorem reads_expect {kind : Kind} {r r' : Reading} {t : Token} :
    Reads (expect kind) r t r' ↔ t.kind = kind ∧ Reads advance r t r' := by
  unfold expect
  rw [reads_current_bind]
  constructor
  · rintro ⟨t', ht', h⟩
    split at h
    · rename_i hk
      obtain ⟨ht, _, _⟩ := reads_advance.1 h
      rw [ht, Option.some.injEq] at ht'
      subst ht'
      exact ⟨hk, h⟩
    · exact absurd h not_reads_refuse
  · rintro ⟨hk, h⟩
    refine ⟨t, (reads_advance.1 h).1, ?_⟩
    rwa [if_pos hk]

/-- A word of code is counted as long as memory has room for it. -/
theorem reads_reserve {r r' : Reading} {u : Unit} :
    Reads reserve r u r' ↔ r.words < memorySize ∧ r' = { r with words := r.words + 1 } := by
  unfold reserve
  by_cases hw : r.words < memorySize
  · change (if r.words < memorySize then _ else _ : Parser Unit) r = _ ↔ _
    rw [if_pos hw]
    change Except.ok ((), _) = Except.ok (u, r') ↔ _
    simp only [Except.ok.injEq, Prod.mk.injEq, true_and, hw, eq_comm]
  · change (if r.words < memorySize then _ else _ : Parser Unit) r = _ ↔ _
    rw [if_neg hw]
    exact ⟨fun h => absurd h not_reads_refuse, fun h => absurd h.1 hw⟩

theorem reads_remaining_bind {f : Nat → Parser β} {r r' : Reading} {b : β} :
    Reads (remaining >>= f) r b r' ↔ Reads (f r.tokens.length) r b r' := Iff.rfl

end Parser

/-- A text is read as the declarations that are read from its beginning on. -/
theorem parse_eq_ok_iff {source : String} {ds : List Declaration} :
    parse source = .ok ds ↔ ∃ r', Parser.Reads
      (Parser.declarations (Reading.ofText source).tokens.length []) (Reading.ofText source) ds r' := by
  change (Prod.fst <$> Parser.declarations (Reading.ofText source).tokens.length [] (Reading.ofText source)) = _ ↔ _
  unfold Parser.Reads
  cases Parser.declarations (Reading.ofText source).tokens.length [] (Reading.ofText source) with
  | error e =>
    constructor
    · intro h
      nomatch h
    · rintro ⟨_, h⟩
      nomatch h
  | ok x =>
    constructor
    · intro h
      exact ⟨x.2, by rw [← Except.ok.inj h]⟩
    · rintro ⟨r', h⟩
      rw [Except.ok.inj h]
      rfl

end GridRobot

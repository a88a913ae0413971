import GridRobot.Proofs.Language.Soundness

/-!
# Sensors in front of which results are pending

The results that are pending at a sensor are counted by the grammar alone: each further operand of an operator is worked out with one
more result pending than the operator itself. `Grammar.Pending` is what may be in front of a sensor where so many results are
pending, in a text that is as it should be up to there. A program that is as it should be apart from a test that needs too much has
such a sensor (`Grammar.Ordinary.pending`).
-/

namespace GridRobot

/-! ## What is in front of a sensor -/

namespace Grammar

/-- Tokens in front of a sensor in a condition of a layer, which is read with `room` levels of nesting left and `pending` results
pending: so many words are counted for them, and at the sensor `reached` results are pending. -/
inductive BeforeSensor : Layer → (room pending : Nat) → List Token → (words reached : Nat) → Prop where
  | here (room pending : Nat) : BeforeSensor .part room pending [] 0 pending
  | negation {bang : Token} {room pending words reached : Nat} {ts : List Token} :
      bang.kind = .bang → BeforeSensor .part room pending ts words reached →
      BeforeSensor .part (room + 1) pending (bang :: ts) words reached
  | group {opening : Token} {room pending words reached : Nat} {ts : List Token} :
      opening.kind = .openingParen → BeforeSensor .disjunction room pending ts words reached →
      BeforeSensor .part (room + 1) pending (opening :: ts) words reached
  | single {room pending words reached : Nat} {ts : List Token} :
      BeforeSensor .part room pending ts words reached → BeforeSensor .conjunction room pending ts words reached
  | and {operator : Token} {left : Condition} {room pending words reached : Nat} {ts us : List Token} :
      Parser.IsCondition .conjunction room pending left ts → operator.kind = .doubleAmpersand →
      BeforeSensor .part room (pending + 1) us words reached →
      BeforeSensor .conjunction room pending (ts ++ operator :: us) (left.size + words) reached
  | only {room pending words reached : Nat} {ts : List Token} :
      BeforeSensor .conjunction room pending ts words reached → BeforeSensor .disjunction room pending ts words reached
  | or {operator : Token} {left : Condition} {room pending words reached : Nat} {ts us : List Token} :
      Parser.IsCondition .disjunction room pending left ts → operator.kind = .doubleBar →
      BeforeSensor .conjunction room (pending + 1) us words reached →
      BeforeSensor .disjunction room pending (ts ++ operator :: us) (left.size + words) reached

/-- No more results are pending at a sensor than may be. -/
theorem BeforeSensor.reached_le {layer : Layer} {room pending words reached : Nat} {ts : List Token}
    (h : BeforeSensor layer room pending ts words reached) (hp : pending ≤ 64) : reached ≤ 64 := by
  induction h with
  | here => exact hp
  | negation _ _ ih | group _ _ ih | single _ ih | only _ ih => exact ih hp
  | @and _ left _ _ _ _ _ _ hleft _ _ ih | @or _ left _ _ _ _ _ _ hleft _ _ ih =>
    obtain ⟨-, -, -, hneed⟩ := hleft
    have := left.need_pos
    exact ih (by omega)

/-- What the tokens in front of a sensor begin: a statement, a conditional in particular, or a block. -/
inductive Place where
  | statement | conditional | block
  deriving DecidableEq

/-- Tokens in front of a sensor with `pending` results pending in a statement or a block, which is read with `room` levels of nesting
left; so many words are counted for them. -/
inductive BeforeTest (pending : Nat) : Place → (room : Nat) → List Token → (words : Nat) → Prop where
  | ifTest {keyword opening : Token} {room words : Nat} {ts : List Token} :
      keyword.kind = .ifWord → opening.kind = .openingParen → BeforeSensor .disjunction room 0 ts words pending →
      BeforeTest pending .conditional room (keyword :: opening :: ts) words
  | ifBody {keyword : Token} {test : Condition} {room words : Nat} {ts us : List Token} :
      keyword.kind = .ifWord → Parser.IsTest room test ts → BeforeTest pending .block room us words →
      BeforeTest pending .conditional room (keyword :: ts ++ us) (test.size + 1 + words)
  | otherwise {keyword closing elseWord : Token} {test : Condition} {body : Statement} {place : Place} {room words : Nat}
      {ts us vs : List Token} :
      keyword.kind = .ifWord → Parser.IsTest room test ts → Parser.IsStatement (.block closing) room body us →
      elseWord.kind = .elseWord → place = .block ∨ place = .conditional → BeforeTest pending place room vs words →
      BeforeTest pending .conditional room (keyword :: ts ++ us ++ elseWord :: vs)
        (test.size + 1 + body.size + 1 + words)
  | conditional {room words : Nat} {ts : List Token} :
      BeforeTest pending .conditional room ts words → BeforeTest pending .statement room ts words
  | whileTest {keyword opening : Token} {room words : Nat} {ts : List Token} :
      keyword.kind = .whileWord → opening.kind = .openingParen → BeforeSensor .disjunction room 0 ts words pending →
      BeforeTest pending .statement room (keyword :: opening :: ts) words
  | whileBody {keyword : Token} {test : Condition} {room words : Nat} {ts us : List Token} :
      keyword.kind = .whileWord → Parser.IsTest room test ts → BeforeTest pending .block room us words →
      BeforeTest pending .statement room (keyword :: ts ++ us) (test.size + 1 + words)
  | repeatBody {keyword opening number closing : Token} {count room words : Nat} {ts : List Token} :
      keyword.kind = .repeatWord → opening.kind = .openingParen → number.kind = .number →
      Text.decimal? number.text.toList = some count → 2 ≤ count ∧ count ≤ 4095 → closing.kind = .closingParen →
      BeforeTest pending .block room ts words →
      BeforeTest pending .statement room (keyword :: opening :: number :: closing :: ts) (1 + words)
  | block {opening : Token} {s : Statement} {room words : Nat} {ts us : List Token} :
      opening.kind = .openingBrace → Parser.IsStatement .body room s ts → BeforeTest pending .statement room us words →
      BeforeTest pending .block (room + 1) (opening :: ts ++ us) (s.size + words)

/-- Tokens that spell whole commands behind those whose names are taken, all of them as they should be. -/
structure Commands (taken : List String) (declared : List Declaration) (ts : List Token) : Prop where
  spelled : ∃ depth, SpellsProgram declared ts depth ∧ depth ≤ 256
  proper : ∀ d ∈ declared, d.body.Proper
  fresh : ∀ d ∈ declared, Action.ofName? d.name = none ∧ Sensor.ofName? d.name = none
  distinct : (taken ++ declared.map (·.name)).Nodup

theorem Commands.nil {taken : List String} (h : taken.Nodup) : Commands taken [] [] :=
  ⟨⟨0, .nil, Nat.zero_le _⟩, List.forall_mem_nil _, List.forall_mem_nil _, by rwa [List.map_nil, List.append_nil]⟩

/-- One more command in front of others, the names of which are not its own. -/
theorem Commands.cons {taken : List String} {first : Declaration} {rest : List Declaration} {ts us : List Token} {d : Nat}
    (hfirst : SpellsDeclaration first ts d) (hd : d ≤ 256) (hproper : first.body.Proper)
    (hfresh : Action.ofName? first.name = none ∧ Sensor.ofName? first.name = none)
    (hrest : Commands (taken ++ [first.name]) rest us) : Commands taken (first :: rest) (ts ++ us) := by
  obtain ⟨⟨e, hspells, he⟩, hpropers, hfreshes, hdistinct⟩ := hrest
  rw [List.append_assoc, List.singleton_append] at hdistinct
  exact ⟨⟨max d e, .cons hfirst hspells, by omega⟩, List.forall_mem_cons.2 ⟨hproper, hpropers⟩,
    List.forall_mem_cons.2 ⟨hfresh, hfreshes⟩, hdistinct⟩

/-- Tokens in front of a sensor with `pending` results pending in a command whose name is not taken. -/
inductive BeginsCommand (pending : Nat) (taken : List String) : List Token → (words : Nat) → Prop where
  | void {voidWord name opening closing : Token} {ts : List Token} {words : Nat} :
      voidWord.kind = .voidWord → name.kind = .identifier → opening.kind = .openingParen → closing.kind = .closingParen →
      Action.ofName? name.text = none ∧ Sensor.ofName? name.text = none → name.text ∉ taken →
      BeforeTest pending .block 256 ts words →
      BeginsCommand pending taken (voidWord :: name :: opening :: closing :: ts) words

/-- The tokens of a text up to a sensor with `pending` results pending, all of them as they should be: whole commands, and the
beginning of another one. -/
inductive Pending (pending : Nat) : List Token → Prop where
  | behind {declared : List Declaration} {ts us : List Token} {words : Nat} :
      Commands [] declared ts → BeginsCommand pending (declared.map (·.name)) us words →
      2 + (Declaration.sizeAll declared + words) ≤ 4096 → Pending pending (ts ++ us)

/-! ## Where too much is needed -/

/-- What is asked of declarations that nest `depth` deep, beyond the grammar and apart from how complex their tests are. -/
structure Ordinary (declared : List Declaration) (depth : Nat) : Prop where
  /-- No command takes the name of an action or a sensor. -/
  fresh : ∀ d ∈ declared, Action.ofName? d.name = none ∧ Sensor.ofName? d.name = none
  /-- No two commands have one name. -/
  distinct : (declared.map (·.name)).Nodup
  /-- Every repeat count is at least two and fits into twelve bits. -/
  counted : ∀ d ∈ declared, ∀ n ∈ d.body.counts, 2 ≤ n ∧ n ≤ 4095
  /-- No sensor is called as a command. -/
  calls : ∀ d ∈ declared, ∀ c ∈ d.body.calls, Sensor.ofName? c.1 = none
  /-- Blocks, negations and groups nest no more than 256 deep altogether. -/
  shallow : depth ≤ 256
  /-- The code of the commands fits into memory behind the two words in front of it. -/
  fits : 2 + Declaration.sizeAll declared ≤ 4096

/-- Among some tokens there is a sensor, and what is in front of it has a property, with no more words counted than `limit`. -/
def Meets (ts : List Token) (limit : Nat) (P : List Token → Nat → Prop) : Prop :=
  ∃ us sensor vs words, ts = us ++ sensor :: vs ∧ sensor.kind = .identifier ∧ (Sensor.ofName? sensor.text).isSome ∧
    words ≤ limit ∧ P us words

/-- A sensor among some tokens is among more of them. -/
theorem Meets.within {ts whole : List Token} {limit limit' : Nat} {P Q : List Token → Nat → Prop} (h : Meets ts limit P)
    (pre post : List Token) (n : Nat) (hwhole : whole = pre ++ ts ++ post) (hle : n + limit ≤ limit')
    (hQ : ∀ us words, P us words → Q (pre ++ us) (n + words)) : Meets whole limit' Q := by
  obtain ⟨us, sensor, vs, words, rfl, hk, hs, hw, hP⟩ := h
  refine ⟨pre ++ us, sensor, vs ++ post, n + words, ?_, hk, hs, by omega, hQ us words hP⟩
  rw [hwhole]
  simp

theorem Meets.imp {ts : List Token} {limit : Nat} {P Q : List Token → Nat → Prop} (h : Meets ts limit P)
    (hQ : ∀ us words, P us words → Q us words) : Meets ts limit Q := by
  obtain ⟨us, sensor, vs, words, hts, hk, hs, hw, hP⟩ := h
  exact ⟨us, sensor, vs, words, hts, hk, hs, hw, hQ us words hP⟩

/-- Of the operands of an operator the left one needs too much, or the right one does with one more result pending. -/
theorem meets_operand {layer inner : Layer} {left right : Condition} {operator : Token} {ts us : List Token}
    {room pending : Nat} (hneed : 64 < max left.need (right.need + 1) + pending)
    (hleft : 64 < left.need + pending → Meets ts left.size (BeforeSensor layer room pending · · 64))
    (hright : pending + 1 ≤ 64 → 64 < right.need + (pending + 1) →
      Meets us right.size (BeforeSensor inner room (pending + 1) · · 64))
    (hjoin : left.need + pending ≤ 64 → ∀ {vs words}, BeforeSensor inner room (pending + 1) vs words 64 →
      BeforeSensor layer room pending (ts ++ operator :: vs) (left.size + words) 64) :
    Meets (ts ++ operator :: us) (left.size + right.size + 1) (BeforeSensor layer room pending · · 64) := by
  rcases Nat.lt_or_ge 64 (left.need + pending) with hlt | hle
  · refine (hleft hlt).within [] (operator :: us) 0 rfl (by omega) ?_
    intro vs words hvs
    rwa [List.nil_append, Nat.zero_add]
  · have hpos := left.need_pos
    refine (hright (by omega) (by omega)).within (ts ++ [operator]) [] left.size (by simp) (by omega) ?_
    intro vs words hvs
    rw [List.append_assoc, List.singleton_append]
    exact hjoin hle hvs

/-- In a condition that needs more than there is left, the 65th result would be pending behind one of the sensors. -/
theorem SpellsCondition.meets {layer : Layer} {c : Condition} {ts : List Token} {d room pending : Nat}
    (h : SpellsCondition layer c ts d) (hd : d ≤ room) (hp : pending ≤ 64) (hneed : 64 < c.need + pending) :
    Meets ts c.size (BeforeSensor layer room pending · · 64) := by
  induction h generalizing room pending with
  | @sensor name opening closing s hk hs =>
    obtain rfl : pending = 64 := by
      rw [Condition.need] at hneed
      omega
    exact ⟨[], name, [opening, closing], 0, rfl, hk, by rw [hs]; rfl, Nat.zero_le _, .here room 64⟩
  | @negation bang c ts d hbang _ ih =>
    obtain ⟨room, rfl⟩ := Nat.exists_eq_add_of_le' (Nat.one_le_of_lt hd)
    refine (ih (Nat.le_of_succ_le_succ hd) hp hneed).within [bang] [] 0 (by simp) (by simp [Condition.size]) ?_
    intro us words hus
    simpa using hus.negation hbang
  | @group opening closing c ts d ho _ hc ih =>
    obtain ⟨room, rfl⟩ := Nat.exists_eq_add_of_le' (Nat.one_le_of_lt hd)
    refine (ih (Nat.le_of_succ_le_succ hd) hp hneed).within [opening] [closing] 0 rfl (by simp) ?_
    intro us words hus
    simpa using hus.group ho
  | single _ ih => exact (ih hd hp hneed).imp fun _ _ => .single
  | @and operator left right ts us d e hleft hk _ ihl ihr =>
    have hd' : d ≤ room := by omega
    exact meets_operand hneed (ihl hd' hp) (ihr (by omega)) fun hle => .and ⟨d, hleft, hd', hle⟩ hk
  | only _ ih => exact (ih hd hp hneed).imp fun _ _ => .only
  | @or operator left right ts us d e hleft hk _ ihl ihr =>
    have hd' : d ≤ room := by omega
    exact meets_operand hneed (ihl hd' hp) (ihr (by omega)) fun hle => .or ⟨d, hleft, hd', hle⟩ hk

theorem SpellsTest.meets {c : Condition} {ts : List Token} {d room : Nat} (h : SpellsTest c ts d) (hd : d ≤ room)
    (hneed : ¬ c.need ≤ 64) :
    Meets ts c.size fun us words => ∃ opening vs, us = opening :: vs ∧ opening.kind = .openingParen ∧
      BeforeSensor .disjunction room 0 vs words 64 := by
  cases h with
  | @parens opening closing c ts d ho hc _ =>
    refine (hc.meets hd (Nat.zero_le 64) (Nat.lt_of_not_le hneed)).within [opening] [closing] 0 rfl (by simp) ?_
    intro us words hus
    exact ⟨opening, us, rfl, ho, by rwa [Nat.zero_add]⟩

/-- Tokens in front of a sensor with `pending` results pending in a statement in a form: in a body, whole statements come first. -/
def BeforeForm (pending room : Nat) : Form → List Token → (words : Nat) → Prop
  | .statement => BeforeTest pending .statement room
  | .conditional => BeforeTest pending .conditional room
  | .block _ => BeforeTest pending .block room
  | .body => fun ts words => ∃ s us vs n, Parser.IsStatement .body room s us ∧ BeforeTest pending .statement room vs n ∧
    ts = us ++ vs ∧ words = s.size + n

/-- Of a conditional with something to be done otherwise the test is too complex, or one in its block, or one behind `else`. -/
theorem meets_otherwise {place : Place} {keyword closing elseWord : Token} {test : Condition} {body otherwise : Statement}
    {ts us vs : List Token} {d e room : Nat} (hplace : place = .block ∨ place = .conditional) (hif : keyword.kind = .ifWord)
    (htest : SpellsTest test ts d) (hd : d ≤ room) (hbody : SpellsStatement (.block closing) body us e) (he : e ≤ room)
    (helse : elseWord.kind = .elseWord) (hcounts : ∀ n ∈ body.counts, 2 ≤ n ∧ n ≤ 4095)
    (hcalls : ∀ c ∈ body.calls, Sensor.ofName? c.1 = none)
    (hus : (¬ ∀ c ∈ body.tests, c.need ≤ 64) → Meets us body.size (BeforeTest 64 .block room))
    (hvs : (¬ ∀ c ∈ otherwise.tests, c.need ≤ 64) → Meets vs otherwise.size (BeforeTest 64 place room))
    (hcomplex : ¬ ∀ c ∈ test :: (body.tests ++ otherwise.tests), c.need ≤ 64) :
    Meets (keyword :: ts ++ us ++ elseWord :: vs) (test.size + 1 + body.size + 1 + otherwise.size)
      (BeforeTest 64 .conditional room) := by
  by_cases hsimple : test.need ≤ 64
  · by_cases hbodies : ∀ c ∈ body.tests, c.need ≤ 64
    · have hother : ¬ ∀ c ∈ otherwise.tests, c.need ≤ 64 :=
        fun h => hcomplex (List.forall_mem_cons.2 ⟨hsimple, List.forall_mem_append.2 ⟨hbodies, h⟩⟩)
      refine (hvs hother).within (keyword :: ts ++ us ++ [elseWord]) [] (test.size + 1 + body.size + 1) (by simp)
        (Nat.le_refl _) ?_
      intro ws words hws
      rw [List.append_assoc _ [elseWord]]
      exact .otherwise hif ⟨d, htest, hd, hsimple⟩ ⟨e, hbody, he, ⟨hbodies, hcounts⟩, hcalls⟩ helse hplace hws
    · exact (hus hbodies).within (keyword :: ts) (elseWord :: vs) (test.size + 1) rfl (by omega)
        fun ws words hws => .ifBody hif ⟨d, htest, hd, hsimple⟩ hws
  · refine (htest.meets hd hsimple).within [keyword] (us ++ elseWord :: vs) 0 (by simp) (by omega) ?_
    rintro _ words ⟨opening, ws, rfl, ho, hws⟩
    rw [Nat.zero_add]
    exact .ifTest hif ho hws

/-- In a statement with a test that is too complex, one of the sensors in its tests would be the 65th result. -/
theorem SpellsStatement.meets {form : Form} {s : Statement} {ts : List Token} {d room : Nat} (h : SpellsStatement form s ts d)
    (hd : d ≤ room) (hcounts : ∀ n ∈ s.counts, 2 ≤ n ∧ n ≤ 4095) (hcalls : ∀ c ∈ s.calls, Sensor.ofName? c.1 = none)
    (hcomplex : ¬ ∀ c ∈ s.tests, c.need ≤ 64) : Meets ts s.size (BeforeForm 64 room form) := by
  induction h generalizing room with
  | nothing | act | call => exact absurd nofun hcomplex
  | @andThen first rest ts us d e hfirst _ ih₁ ih₂ =>
    obtain ⟨hcounts₁, hcounts₂⟩ := List.forall_mem_append.1 hcounts
    obtain ⟨hcalls₁, hcalls₂⟩ := List.forall_mem_append.1 hcalls
    by_cases hsimple : ∀ c ∈ first.tests, c.need ≤ 64
    · have hrest : ¬ ∀ c ∈ rest.tests, c.need ≤ 64 := fun h => hcomplex (List.forall_mem_append.2 ⟨hsimple, h⟩)
      refine (ih₂ (show e ≤ room by omega) hcounts₂ hcalls₂ hrest).within ts [] first.size (by simp) (Nat.le_refl _) ?_
      rintro _ _ ⟨s, us, vs, n, ⟨e', hs, he', hproper⟩, hvs, rfl, rfl⟩
      refine ⟨.andThen first s, ts ++ us, vs, n, ⟨max d e', .andThen hfirst hs, by omega, ?_⟩, hvs, ?_, ?_⟩
      · exact Statement.Proper.andThen_iff.2 ⟨⟨⟨hsimple, hcounts₁⟩, hcalls₁⟩, hproper⟩
      · rw [List.append_assoc]
      · rw [Statement.size, Nat.add_assoc]
    · refine (ih₁ (show d ≤ room by omega) hcounts₁ hcalls₁ hsimple).within [] us 0 rfl (by rw [Statement.size]; omega) ?_
      intro vs words hvs
      exact ⟨.nothing, [], vs, words, ⟨0, .nothing, Nat.zero_le _, .nothing⟩, hvs, rfl, rfl⟩
  | @block opening closing s ts d ho _ hc ih =>
    obtain ⟨room, rfl⟩ := Nat.exists_eq_add_of_le' (Nat.one_le_of_lt hd)
    refine (ih (Nat.le_of_succ_le_succ hd) hcounts hcalls hcomplex).within [opening] [closing] 0 rfl (by simp) ?_
    rintro _ _ ⟨s, us, vs, n, hs, hvs, rfl, rfl⟩
    rw [Nat.zero_add]
    exact show BeforeTest 64 .block (room + 1) (opening :: us ++ vs) _ from .block ho hs hvs
  | conditional _ ih => exact (ih hd hcounts hcalls hcomplex).imp fun _ _ => .conditional
  | @ifThen keyword closing test body ts us d e hif htest _ ih =>
    by_cases hsimple : test.need ≤ 64
    · have hbody : ¬ ∀ c ∈ body.tests, c.need ≤ 64 := fun h => hcomplex (List.forall_mem_cons.2 ⟨hsimple, h⟩)
      exact (ih (show e ≤ room by omega) hcounts hcalls hbody).within (keyword :: ts) [] (test.size + 1) (by simp)
        (Nat.le_refl _) fun vs words hvs => .ifBody hif ⟨d, htest, by omega, hsimple⟩ hvs
    · refine (htest.meets (show d ≤ room by omega) hsimple).within [keyword] us 0 rfl (by rw [Statement.size]; omega) ?_
      rintro _ words ⟨opening, vs, rfl, ho, hvs⟩
      rw [Nat.zero_add]
      exact .ifTest hif ho hvs
  | @ifElse keyword closing elseWord final test body otherwise ts us vs d e f hif htest hbody helse _ ih₁ ih₂ =>
    obtain ⟨hcounts₁, hcounts₂⟩ := List.forall_mem_append.1 hcounts
    obtain ⟨hcalls₁, hcalls₂⟩ := List.forall_mem_append.1 hcalls
    exact meets_otherwise (.inl rfl) hif htest (by omega) hbody (by omega) helse hcounts₁ hcalls₁
      (ih₁ (show e ≤ room by omega) hcounts₁ hcalls₁) (ih₂ (show f ≤ room by omega) hcounts₂ hcalls₂) hcomplex
  | @elseIf keyword closing elseWord test body otherwise ts us vs d e f hif htest hbody helse _ ih₁ ih₂ =>
    obtain ⟨hcounts₁, hcounts₂⟩ := List.forall_mem_append.1 hcounts
    obtain ⟨hcalls₁, hcalls₂⟩ := List.forall_mem_append.1 hcalls
    exact meets_otherwise (.inr rfl) hif htest (by omega) hbody (by omega) helse hcounts₁ hcalls₁
      (ih₁ (show e ≤ room by omega) hcounts₁ hcalls₁) (ih₂ (show f ≤ room by omega) hcounts₂ hcalls₂) hcomplex
  | @whileDo keyword closing test body ts us d e hwhile htest _ ih =>
    by_cases hsimple : test.need ≤ 64
    · have hbody : ¬ ∀ c ∈ body.tests, c.need ≤ 64 := fun h => hcomplex (List.forall_mem_cons.2 ⟨hsimple, h⟩)
      exact (ih (show e ≤ room by omega) hcounts hcalls hbody).within (keyword :: ts) [] (test.size + 1) (by simp)
        (Nat.le_add_right _ _) fun vs words hvs => .whileBody hwhile ⟨d, htest, by omega, hsimple⟩ hvs
    · refine (htest.meets (show d ≤ room by omega) hsimple).within [keyword] us 0 rfl (by rw [Statement.size]; omega) ?_
      rintro _ words ⟨opening, vs, rfl, ho, hvs⟩
      rw [Nat.zero_add]
      exact .whileTest hwhile ho hvs
  | @repeatTimes keyword opening number closing final count body ts d hrepeat ho hnumber hvalue hc _ ih =>
    obtain ⟨hrange, hcounts⟩ := List.forall_mem_cons.1 hcounts
    exact (ih hd hcounts hcalls hcomplex).within [keyword, opening, number, closing] [] 1 (by simp)
      (Nat.le_add_right _ _) fun vs words hvs => .repeatBody hrepeat ho hnumber hvalue hrange hc hvs

/-- Of commands that are ordinary otherwise, behind those whose names are taken, one with a test that is too complex is met. -/
theorem SpellsProgram.meets {ds : List Declaration} {ts : List Token} {depth : Nat} (taken : List String)
    (h : SpellsProgram ds ts depth) (hshallow : depth ≤ 256)
    (hfresh : ∀ d ∈ ds, Action.ofName? d.name = none ∧ Sensor.ofName? d.name = none)
    (hdistinct : (taken ++ ds.map (·.name)).Nodup) (hcounts : ∀ d ∈ ds, ∀ n ∈ d.body.counts, 2 ≤ n ∧ n ≤ 4095)
    (hcalls : ∀ d ∈ ds, ∀ c ∈ d.body.calls, Sensor.ofName? c.1 = none)
    (hcomplex : ¬ ∀ d ∈ ds, ∀ c ∈ d.body.tests, c.need ≤ 64) :
    Meets ts (Declaration.sizeAll ds) fun us words => ∃ ds₁ ts₁ ts₂ n, Commands taken ds₁ ts₁ ∧
      BeginsCommand 64 (taken ++ ds₁.map (·.name)) ts₂ n ∧ us = ts₁ ++ ts₂ ∧ words = Declaration.sizeAll ds₁ + n := by
  induction h generalizing taken with
  | nil => exact absurd (List.forall_mem_nil _) hcomplex
  | @cons first rest ts us d e hfirst _ ih =>
    obtain ⟨hfresh₁, hfresh₂⟩ := List.forall_mem_cons.1 hfresh
    obtain ⟨hcounts₁, hcounts₂⟩ := List.forall_mem_cons.1 hcounts
    obtain ⟨hcalls₁, hcalls₂⟩ := List.forall_mem_cons.1 hcalls
    have hnew : first.name ∉ taken := by
      intro hmem
      exact (List.nodup_append.1 hdistinct).2.2 _ hmem _ List.mem_cons_self rfl
    rw [List.map_cons, ← List.singleton_append, ← List.append_assoc] at hdistinct
    by_cases hsimple : ∀ c ∈ first.body.tests, c.need ≤ 64
    · have hrest : ¬ ∀ d ∈ rest, ∀ c ∈ d.body.tests, c.need ≤ 64 :=
        fun h => hcomplex (List.forall_mem_cons.2 ⟨hsimple, h⟩)
      refine (ih _ (show e ≤ 256 by omega) hfresh₂ hdistinct hcounts₂ hcalls₂ hrest).within ts [] first.size (by simp)
        (Nat.le_refl _) ?_
      rintro _ _ ⟨ds₁, ts₁, ts₂, n, hcommands, hts₂, rfl, rfl⟩
      rw [List.append_assoc, List.singleton_append] at hts₂
      have hproper : first.body.Proper := ⟨⟨hsimple, hcounts₁⟩, hcalls₁⟩
      refine ⟨first :: ds₁, ts ++ ts₁, ts₂, n, .cons hfirst (by omega) hproper hfresh₁ hcommands, hts₂, ?_, ?_⟩
      · rw [List.append_assoc]
      · rw [Declaration.sizeAll, Nat.add_assoc]
    · cases hfirst with
      | @void voidWord name opening closing final body ts _ hvoid hname ho hc hbody =>
      refine (hbody.meets (show d ≤ 256 by omega) hcounts₁ hcalls₁ hsimple).within [voidWord, name, opening, closing] us 0
        (by simp) ?_ ?_
      · change 0 + body.size ≤ body.size + 1 + Declaration.sizeAll rest
        omega
      · intro vs words hvs
        have htaken : taken.Nodup := (List.nodup_append.1 (List.nodup_append.1 hdistinct).1).1
        refine ⟨[], [], voidWord :: name :: opening :: closing :: vs, words, .nil htaken, ?_, rfl, rfl⟩
        rw [List.map_nil, List.append_nil]
        exact .void hvoid hname ho hc hfresh₁ hnew hvs

/-- In a program that is ordinary otherwise and has a test that is too complex, the 65th result would be pending behind a sensor. -/
theorem Ordinary.pending {ds : List Declaration} {ts : List Token} {depth : Nat} (h : Ordinary ds depth)
    (hs : SpellsProgram ds ts depth) (hcomplex : ¬ ∀ d ∈ ds, ∀ c ∈ d.body.tests, c.need ≤ 64) :
    ∃ before sensor after, ts = before ++ sensor :: after ∧ sensor.kind = .identifier ∧
      (Sensor.ofName? sensor.text).isSome ∧ Pending 64 before := by
  obtain ⟨_, sensor, after, words, rfl, hk, hsensor, hle, ds₁, ts₁, ts₂, n, hcommands, hbegins, rfl, rfl⟩ :=
    hs.meets [] h.shallow h.fresh h.distinct h.counted h.calls hcomplex
  have := h.fits
  exact ⟨ts₁ ++ ts₂, sensor, after, rfl, hk, hsensor, .behind hcommands hbegins (by omega)⟩

end Grammar

end GridRobot

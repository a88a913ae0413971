import GridRobot.Language.Code
import GridRobot.Language.Lexer
import GridRobot.Language.Parser

/-!
# The grammar of the language

Which tokens spell which conditions, statements and programs, rule by rule and without a parser. Each rule also says how deep
blocks, negations and groups in parentheses are nested in what it spells; the parentheses around the test of a statement are
not counted.

`Admissible` is what is asked of a program beyond its grammar: the names, the repeat counts, the nesting, the results a
condition leaves pending, and the room its code takes.
-/

namespace GridRobot

/-- The number of results that are pending at once, at most, while a condition is worked out from left to right. -/
def Condition.need : Condition → Nat
  | sense _ _ => 1
  | not c _ => c.need
  | and left right _ | or left right _ => max left.need (right.need + 1)

/-- Every condition leaves a result. -/
theorem Condition.need_pos (c : Condition) : 0 < c.need := by
  induction c with
  | sense => exact Nat.one_pos
  | not c _ ih => exact ih
  | and left right _ ihl _ | or left right _ ihl _ => exact Nat.lt_of_lt_of_le ihl (Nat.le_max_left _ _)

/-- The tests in a statement. -/
def Statement.tests : Statement → List Condition
  | nothing | act _ _ | call _ _ _ => []
  | andThen first rest => first.tests ++ rest.tests
  | ifThen test _ body | whileDo test _ body => test :: body.tests
  | ifElse test _ body otherwise => test :: (body.tests ++ otherwise.tests)
  | repeatTimes _ _ body _ => body.tests

/-- The repeat counts in a statement. -/
def Statement.counts : Statement → List Nat
  | nothing | act _ _ | call _ _ _ => []
  | andThen first rest => first.counts ++ rest.counts
  | ifThen _ _ body | whileDo _ _ body => body.counts
  | ifElse _ _ body otherwise => body.counts ++ otherwise.counts
  | repeatTimes count _ body _ => count :: body.counts

/-- What is asked of the tests and the repeat counts in a statement. -/
structure Statement.Bounded (s : Statement) : Prop where
  /-- No test leaves more than 64 results pending. -/
  simple : ∀ c ∈ s.tests, c.need ≤ 64
  /-- Every repeat count is at least two and fits into twelve bits. -/
  counted : ∀ n ∈ s.counts, 2 ≤ n ∧ n ≤ 4095

namespace Statement.Bounded

theorem nothing : Bounded .nothing := ⟨by simp [tests], by simp [counts]⟩

theorem act {a : Action} {line : Nat} : Bounded (.act a line) := ⟨by simp [tests], by simp [counts]⟩

theorem call {name : String} {line position : Nat} : Bounded (.call name line position) :=
  ⟨by simp [tests], by simp [counts]⟩

/-- A statement in front of others is within the bounds if all of them are. -/
theorem andThen_iff {s t : Statement} : Bounded (.andThen s t) ↔ s.Bounded ∧ t.Bounded := by
  constructor
  · intro h
    exact ⟨⟨fun c hc => h.simple c (List.mem_append_left _ hc), fun n hn => h.counted n (List.mem_append_left _ hn)⟩,
      ⟨fun c hc => h.simple c (List.mem_append_right _ hc), fun n hn => h.counted n (List.mem_append_right _ hn)⟩⟩
  · rintro ⟨h₁, h₂⟩
    exact ⟨fun c hc => (List.mem_append.1 hc).elim (h₁.simple c) (h₂.simple c),
      fun n hn => (List.mem_append.1 hn).elim (h₁.counted n) (h₂.counted n)⟩

/-- A conditional is within the bounds if its test is and its block is. -/
theorem ifThen_iff {test : Condition} {line : Nat} {body : Statement} :
    Bounded (.ifThen test line body) ↔ test.need ≤ 64 ∧ body.Bounded := by
  constructor
  · intro h
    exact ⟨h.simple test List.mem_cons_self, fun c hc => h.simple c (List.mem_cons_of_mem _ hc), h.counted⟩
  · rintro ⟨ht, h⟩
    exact ⟨List.forall_mem_cons.2 ⟨ht, h.simple⟩, h.counted⟩

/-- A loop on a condition is within the bounds if its test is and its block is. -/
theorem whileDo_iff {test : Condition} {line : Nat} {body : Statement} :
    Bounded (.whileDo test line body) ↔ test.need ≤ 64 ∧ body.Bounded := by
  constructor
  · intro h
    exact ⟨h.simple test List.mem_cons_self, fun c hc => h.simple c (List.mem_cons_of_mem _ hc), h.counted⟩
  · rintro ⟨ht, h⟩
    exact ⟨List.forall_mem_cons.2 ⟨ht, h.simple⟩, h.counted⟩

/-- A conditional with an alternative is within the bounds if its test is and both blocks are. -/
theorem ifElse_iff {test : Condition} {line : Nat} {body otherwise : Statement} :
    Bounded (.ifElse test line body otherwise) ↔ test.need ≤ 64 ∧ body.Bounded ∧ otherwise.Bounded := by
  rw [← andThen_iff]
  constructor
  · intro h
    exact ⟨h.simple test List.mem_cons_self, fun c hc => h.simple c (List.mem_cons_of_mem _ hc), h.counted⟩
  · rintro ⟨ht, h⟩
    exact ⟨List.forall_mem_cons.2 ⟨ht, h.simple⟩, h.counted⟩

/-- A repeat is within the bounds if its count is and its block is. -/
theorem repeatTimes_iff {count line closing : Nat} {body : Statement} :
    Bounded (.repeatTimes count line body closing) ↔ (2 ≤ count ∧ count ≤ 4095) ∧ body.Bounded := by
  constructor
  · intro h
    exact ⟨h.counted count List.mem_cons_self, h.simple, fun n hn => h.counted n (List.mem_cons_of_mem _ hn)⟩
  · rintro ⟨hc, h⟩
    exact ⟨h.simple, List.forall_mem_cons.2 ⟨hc, h.counted⟩⟩

end Statement.Bounded

/-- What is asked of a statement on its own: it is within its bounds, and calls no sensor as a command. -/
structure Statement.Proper (s : Statement) : Prop where
  bounded : s.Bounded
  calls : ∀ c ∈ s.calls, Sensor.ofName? c.1 = none

namespace Statement.Proper

theorem nothing : Proper .nothing := ⟨.nothing, nofun⟩

theorem act {a : Action} {line : Nat} : Proper (.act a line) := ⟨.act, nofun⟩

/-- A call is proper if its name is not that of a sensor. -/
theorem call {name : String} {line position : Nat} (h : Sensor.ofName? name = none) : Proper (.call name line position) :=
  ⟨.call, List.forall_mem_singleton.2 h⟩

/-- A statement in front of others is proper if all of them are. -/
theorem andThen_iff {s t : Statement} : Proper (.andThen s t) ↔ s.Proper ∧ t.Proper := by
  constructor
  · rintro ⟨hb, hc⟩
    obtain ⟨hb₁, hb₂⟩ := Bounded.andThen_iff.1 hb
    obtain ⟨hc₁, hc₂⟩ := List.forall_mem_append.1 hc
    exact ⟨⟨hb₁, hc₁⟩, ⟨hb₂, hc₂⟩⟩
  · rintro ⟨h₁, h₂⟩
    exact ⟨Bounded.andThen_iff.2 ⟨h₁.bounded, h₂.bounded⟩, List.forall_mem_append.2 ⟨h₁.calls, h₂.calls⟩⟩

/-- A conditional is proper if its test is within its bound and its block is proper. -/
theorem ifThen_iff {test : Condition} {line : Nat} {body : Statement} :
    Proper (.ifThen test line body) ↔ test.need ≤ 64 ∧ body.Proper := by
  constructor
  · rintro ⟨hb, hc⟩
    obtain ⟨hn, hb⟩ := Bounded.ifThen_iff.1 hb
    exact ⟨hn, hb, hc⟩
  · rintro ⟨hn, h⟩
    exact ⟨Bounded.ifThen_iff.2 ⟨hn, h.bounded⟩, h.calls⟩

/-- A loop on a condition is proper if its test is within its bound and its block is proper. -/
theorem whileDo_iff {test : Condition} {line : Nat} {body : Statement} :
    Proper (.whileDo test line body) ↔ test.need ≤ 64 ∧ body.Proper := by
  constructor
  · rintro ⟨hb, hc⟩
    obtain ⟨hn, hb⟩ := Bounded.whileDo_iff.1 hb
    exact ⟨hn, hb, hc⟩
  · rintro ⟨hn, h⟩
    exact ⟨Bounded.whileDo_iff.2 ⟨hn, h.bounded⟩, h.calls⟩

/-- A conditional with an alternative is proper if its test is within its bound and both blocks are proper. -/
theorem ifElse_iff {test : Condition} {line : Nat} {body otherwise : Statement} :
    Proper (.ifElse test line body otherwise) ↔ test.need ≤ 64 ∧ body.Proper ∧ otherwise.Proper := by
  rw [← andThen_iff]
  constructor
  · rintro ⟨hb, hc⟩
    obtain ⟨hn, hb⟩ := Bounded.ifElse_iff.1 hb
    exact ⟨hn, Bounded.andThen_iff.2 hb, hc⟩
  · rintro ⟨hn, h⟩
    exact ⟨Bounded.ifElse_iff.2 ⟨hn, Bounded.andThen_iff.1 h.bounded⟩, h.calls⟩

/-- A repeat is proper if its count is within its bounds and its block is proper. -/
theorem repeatTimes_iff {count line closing : Nat} {body : Statement} :
    Proper (.repeatTimes count line body closing) ↔ (2 ≤ count ∧ count ≤ 4095) ∧ body.Proper := by
  constructor
  · rintro ⟨hb, hc⟩
    obtain ⟨hcount, hb⟩ := Bounded.repeatTimes_iff.1 hb
    exact ⟨hcount, hb, hc⟩
  · rintro ⟨hcount, h⟩
    exact ⟨Bounded.repeatTimes_iff.2 ⟨hcount, h.bounded⟩, h.calls⟩

end Statement.Proper

/-- The number of instructions of commands. -/
def Declaration.sizeAll : List Declaration → Nat
  | [] => 0
  | d :: rest => d.size + sizeAll rest

/-- The sizes of commands add up. -/
@[simp] theorem Declaration.sizeAll_append (ds es : List Declaration) : sizeAll (ds ++ es) = sizeAll ds + sizeAll es := by
  induction ds with
  | nil => simp [sizeAll]
  | cons d rest ih => simp [sizeAll, ih, Nat.add_assoc]

namespace Grammar

/-! ## Conditions -/

/-- How loosely the parts of a condition are bound: operands of `||`, operands of `&&`, and what stands on its own. -/
inductive Layer where
  | disjunction | conjunction | part
  deriving DecidableEq

/-- Tokens that spell a condition of a layer, and how deep it nests. Both operators group to the left. -/
inductive SpellsCondition : Layer → Condition → List Token → (depth : Nat) → Prop where
  | sensor {name opening closing : Token} {s : Sensor} :
      name.kind = .identifier → Sensor.ofName? name.text = some s →
      opening.kind = .openingParen → closing.kind = .closingParen →
      SpellsCondition .part (.sense s name.line) [name, opening, closing] 0
  | negation {bang : Token} {c : Condition} {ts : List Token} {d : Nat} :
      bang.kind = .bang → SpellsCondition .part c ts d →
      SpellsCondition .part (.not c bang.line) (bang :: ts) (d + 1)
  | group {opening closing : Token} {c : Condition} {ts : List Token} {d : Nat} :
      opening.kind = .openingParen → SpellsCondition .disjunction c ts d → closing.kind = .closingParen →
      SpellsCondition .part c (opening :: ts ++ [closing]) (d + 1)
  | single {c : Condition} {ts : List Token} {d : Nat} :
      SpellsCondition .part c ts d → SpellsCondition .conjunction c ts d
  | and {operator : Token} {left right : Condition} {ts us : List Token} {d e : Nat} :
      SpellsCondition .conjunction left ts d → operator.kind = .doubleAmpersand → SpellsCondition .part right us e →
      SpellsCondition .conjunction (.and left right operator.line) (ts ++ operator :: us) (max d e)
  | only {c : Condition} {ts : List Token} {d : Nat} :
      SpellsCondition .conjunction c ts d → SpellsCondition .disjunction c ts d
  | or {operator : Token} {left right : Condition} {ts us : List Token} {d e : Nat} :
      SpellsCondition .disjunction left ts d → operator.kind = .doubleBar → SpellsCondition .conjunction right us e →
      SpellsCondition .disjunction (.or left right operator.line) (ts ++ operator :: us) (max d e)

/-- Tokens that spell the test of a statement: a condition in parentheses, which do not count as nesting. -/
inductive SpellsTest : Condition → List Token → (depth : Nat) → Prop where
  | parens {opening closing : Token} {c : Condition} {ts : List Token} {d : Nat} :
      opening.kind = .openingParen → SpellsCondition .disjunction c ts d → closing.kind = .closingParen →
      SpellsTest c (opening :: ts ++ [closing]) d

/-! ## Statements -/

/-- What is spelled: a statement, a conditional in particular, the statements of a block, or a block with its closing brace. -/
inductive Form where
  | statement
  | conditional
  | body
  | block (closing : Token)

/-- Tokens that spell a statement in a form, and how deep it nests. -/
inductive SpellsStatement : Form → Statement → List Token → (depth : Nat) → Prop where
  | nothing : SpellsStatement .body .nothing [] 0
  | andThen {first rest : Statement} {ts us : List Token} {d e : Nat} :
      SpellsStatement .statement first ts d → SpellsStatement .body rest us e →
      SpellsStatement .body (.andThen first rest) (ts ++ us) (max d e)
  | block {opening closing : Token} {s : Statement} {ts : List Token} {d : Nat} :
      opening.kind = .openingBrace → SpellsStatement .body s ts d → closing.kind = .closingBrace →
      SpellsStatement (.block closing) s (opening :: ts ++ [closing]) (d + 1)
  | act {name opening closing semicolon : Token} {a : Action} :
      name.kind = .identifier → Action.ofName? name.text = some a →
      opening.kind = .openingParen → closing.kind = .closingParen → semicolon.kind = .semicolon →
      SpellsStatement .statement (.act a name.line) [name, opening, closing, semicolon] 0
  | call {name opening closing semicolon : Token} :
      name.kind = .identifier → Action.ofName? name.text = none →
      opening.kind = .openingParen → closing.kind = .closingParen → semicolon.kind = .semicolon →
      SpellsStatement .statement (.call name.text name.line name.position) [name, opening, closing, semicolon] 0
  | conditional {s : Statement} {ts : List Token} {d : Nat} :
      SpellsStatement .conditional s ts d → SpellsStatement .statement s ts d
  | ifThen {keyword closing : Token} {test : Condition} {body : Statement} {ts us : List Token} {d e : Nat} :
      keyword.kind = .ifWord → SpellsTest test ts d → SpellsStatement (.block closing) body us e →
      SpellsStatement .conditional (.ifThen test keyword.line body) (keyword :: ts ++ us) (max d e)
  | ifElse {keyword closing elseWord final : Token} {test : Condition} {body otherwise : Statement}
      {ts us vs : List Token} {d e f : Nat} :
      keyword.kind = .ifWord → SpellsTest test ts d → SpellsStatement (.block closing) body us e →
      elseWord.kind = .elseWord → SpellsStatement (.block final) otherwise vs f →
      SpellsStatement .conditional (.ifElse test keyword.line body otherwise) (keyword :: ts ++ us ++ elseWord :: vs)
        (max (max d e) f)
  | elseIf {keyword closing elseWord : Token} {test : Condition} {body otherwise : Statement}
      {ts us vs : List Token} {d e f : Nat} :
      keyword.kind = .ifWord → SpellsTest test ts d → SpellsStatement (.block closing) body us e →
      elseWord.kind = .elseWord → SpellsStatement .conditional otherwise vs f →
      SpellsStatement .conditional (.ifElse test keyword.line body otherwise) (keyword :: ts ++ us ++ elseWord :: vs)
        (max (max d e) f)
  | whileDo {keyword closing : Token} {test : Condition} {body : Statement} {ts us : List Token} {d e : Nat} :
      keyword.kind = .whileWord → SpellsTest test ts d → SpellsStatement (.block closing) body us e →
      SpellsStatement .statement (.whileDo test keyword.line body) (keyword :: ts ++ us) (max d e)
  | repeatTimes {keyword opening number closing final : Token} {count : Nat} {body : Statement} {ts : List Token}
      {d : Nat} :
      keyword.kind = .repeatWord → opening.kind = .openingParen →
      number.kind = .number → Text.decimal? number.text.toList = some count →
      closing.kind = .closingParen → SpellsStatement (.block final) body ts d →
      SpellsStatement .statement (.repeatTimes count keyword.line body final.line)
        (keyword :: opening :: number :: closing :: ts) d

/-! ## Programs -/

/-- Tokens that spell the declaration of a command. -/
inductive SpellsDeclaration : Declaration → List Token → (depth : Nat) → Prop where
  | void {voidWord name opening closing final : Token} {body : Statement} {ts : List Token} {d : Nat} :
      voidWord.kind = .voidWord → name.kind = .identifier →
      opening.kind = .openingParen → closing.kind = .closingParen → SpellsStatement (.block final) body ts d →
      SpellsDeclaration ⟨name.text, body, final.line⟩ (voidWord :: name :: opening :: closing :: ts) d

/-- Tokens that spell declarations one behind the other. -/
inductive SpellsProgram : List Declaration → List Token → (depth : Nat) → Prop where
  | nil : SpellsProgram [] [] 0
  | cons {first : Declaration} {rest : List Declaration} {ts us : List Token} {d e : Nat} :
      SpellsDeclaration first ts d → SpellsProgram rest us e → SpellsProgram (first :: rest) (ts ++ us) (max d e)

/-- What is asked of declarations that nest `depth` deep, calls apart: of their names, their bounds and their size. -/
structure InBounds (declared : List Declaration) (depth : Nat) : Prop where
  /-- No command takes the name of an action or a sensor. -/
  fresh : ∀ d ∈ declared, Action.ofName? d.name = none ∧ Sensor.ofName? d.name = none
  /-- No two commands have one name. -/
  distinct : (declared.map (·.name)).Nodup
  /-- The tests and the repeat counts of every command are within their bounds. -/
  bounded : ∀ d ∈ declared, d.body.Bounded
  /-- Blocks, negations and groups nest no more than 256 deep altogether. -/
  shallow : depth ≤ 256
  /-- The code of the commands fits into memory behind the two words in front of it. -/
  fits : 2 + Declaration.sizeAll declared ≤ 4096

/-- What is asked of declarations that nest `depth` deep, beyond the grammar. -/
structure Admissible (declared : List Declaration) (depth : Nat) : Prop extends InBounds declared depth where
  /-- Every command that is called is declared, before the call or behind it. -/
  defined : ∀ d ∈ declared, ∀ c ∈ d.body.calls, c.1 ∈ declared.map (·.name)

end Grammar

end GridRobot

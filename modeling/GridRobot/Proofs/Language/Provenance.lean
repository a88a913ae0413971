import Mathlib.Data.List.Forall2
import GridRobot.Proofs.Language.Acceptance
import GridRobot.Proofs.Machine.Coding
import GridRobot.Proofs.Text.Rows

/-!
# What instructions are made for

Each instruction of a command is made for one token, and has the line of that token; only jumps are made for none. `Origin` says
in which role, and `Makes` which operations a role has. The grammar is gone through once more with the origins of the instructions
in place of the tree (`TracesProgram`): a sign comes behind the origins of its operands, a keyword behind those of its test, and
a closing brace behind those of its block. The code of what tokens spell is made for the origins that they trace, one by one.
-/

namespace GridRobot

open Text

/-! ## Origins -/

/-- What an instruction is made for. -/
inductive Origin where
  /-- The name of the action or the command in a call. -/
  | call (name : Token)
  /-- The name of a sensor. -/
  | sensor (name : Token)
  /-- The sign of a negation, of `&&` or of `||`. -/
  | sign (operator : Token)
  /-- The word `if` or `while` of a statement with a test. -/
  | test (keyword : Token)
  /-- The word `repeat`. -/
  | times (keyword : Token)
  /-- The closing brace of a block that is repeated. -/
  | again (brace : Token)
  /-- The closing brace of a command. -/
  | finish (brace : Token)
  /-- The way past the branch that comes next, or back to the test of a loop. -/
  | passage
  deriving DecidableEq, Repr

namespace Origin

/-- The token that an instruction is made for. -/
def token? : Origin → Option Token
  | call t | sensor t | sign t | test t | times t | again t | finish t => some t
  | passage => none

/-- The line of an instruction: that of its token, and 0 for none. -/
def line (o : Origin) : Nat := o.token?.elim 0 Token.line

/-- The operations that are made for an origin. -/
inductive Makes : Origin → Opcode → Prop where
  | act {name : Token} {a : Action} : Action.ofName? name.text = some a → Makes (.call name) (.act a)
  | call {name : Token} {target : Nat} : Action.ofName? name.text = none → Makes (.call name) (.call target)
  | sense {name : Token} {s : Sensor} : Sensor.ofName? name.text = some s → Makes (.sensor name) (.sense s)
  | not {sign : Token} : sign.kind = .bang → Makes (.sign sign) .not
  | and {sign : Token} : sign.kind = .doubleAmpersand → Makes (.sign sign) .and
  | or {sign : Token} : sign.kind = .doubleBar → Makes (.sign sign) .or
  | jumpUnless {keyword : Token} {target : Nat} :
      keyword.kind = .ifWord ∨ keyword.kind = .whileWord → Makes (.test keyword) (.jumpUnless target)
  | push {keyword : Token} {count : Nat} : keyword.kind = .repeatWord → Makes (.times keyword) (.push count)
  | loop {brace : Token} {target : Nat} : brace.kind = .closingBrace → Makes (.again brace) (.loop target)
  | ret {brace : Token} : brace.kind = .closingBrace → Makes (.finish brace) .ret
  | jump {target : Nat} : Makes .passage (.jump target)

/-- Whether an operation is made for an origin does not depend on its operand. -/
theorem Makes.narrow {o : Origin} {op : Opcode} (h : o.Makes op) : o.Makes op.narrow := by
  cases h with
  | act h => exact .act h
  | call h => exact .call h
  | sense h => exact .sense h
  | not h => exact .not h
  | and h => exact .and h
  | or h => exact .or h
  | jumpUnless h => exact .jumpUnless h
  | push h => exact .push h
  | loop h => exact .loop h
  | ret h => exact .ret h
  | jump => exact .jump

/-- Only jumps are made for no token. -/
theorem Makes.token?_eq_none_iff {o : Origin} {op : Opcode} (h : o.Makes op) :
    o.token? = none ↔ ∃ target, op = .jump target := by
  cases h <;> simp [token?]

end Origin

/-- An instruction is made for an origin: it has its line, and says an operation that is made for it. -/
structure Instruction.MadeFor (i : Instruction) (o : Origin) : Prop where
  line : i.line = o.line
  makes : ∃ op, i.decode = some op ∧ o.Makes op

/-- An instruction that is made of an origin has its line. -/
theorem Origin.Makes.madeFor {o : Origin} {op : Opcode} (h : o.Makes op) : (Instruction.of op o.line).MadeFor o :=
  ⟨rfl, op.narrow, op.decode_encode_narrow, h.narrow⟩

/-! ## The origins of a phrase -/

namespace Grammar

/-- Tokens that spell a condition of a layer, and what its instructions are made for. -/
inductive TracesCondition : Layer → List Token → List Origin → Prop where
  | sensor {name opening closing : Token} {s : Sensor} :
      name.kind = .identifier → Sensor.ofName? name.text = some s →
      opening.kind = .openingParen → closing.kind = .closingParen →
      TracesCondition .part [name, opening, closing] [.sensor name]
  | negation {bang : Token} {ts : List Token} {os : List Origin} :
      bang.kind = .bang → TracesCondition .part ts os → TracesCondition .part (bang :: ts) (os ++ [.sign bang])
  | group {opening closing : Token} {ts : List Token} {os : List Origin} :
      opening.kind = .openingParen → TracesCondition .disjunction ts os → closing.kind = .closingParen →
      TracesCondition .part (opening :: ts ++ [closing]) os
  | single {ts : List Token} {os : List Origin} : TracesCondition .part ts os → TracesCondition .conjunction ts os
  | and {operator : Token} {ts us : List Token} {os ps : List Origin} :
      TracesCondition .conjunction ts os → operator.kind = .doubleAmpersand → TracesCondition .part us ps →
      TracesCondition .conjunction (ts ++ operator :: us) (os ++ ps ++ [.sign operator])
  | only {ts : List Token} {os : List Origin} : TracesCondition .conjunction ts os → TracesCondition .disjunction ts os
  | or {operator : Token} {ts us : List Token} {os ps : List Origin} :
      TracesCondition .disjunction ts os → operator.kind = .doubleBar → TracesCondition .conjunction us ps →
      TracesCondition .disjunction (ts ++ operator :: us) (os ++ ps ++ [.sign operator])

/-- Tokens that spell the test of a statement, and what its instructions are made for. -/
inductive TracesTest : List Token → List Origin → Prop where
  | parens {opening closing : Token} {ts : List Token} {os : List Origin} :
      opening.kind = .openingParen → TracesCondition .disjunction ts os → closing.kind = .closingParen →
      TracesTest (opening :: ts ++ [closing]) os

/-- Tokens that spell a statement in a form, and what its instructions are made for. -/
inductive TracesStatement : Form → List Token → List Origin → Prop where
  | nothing : TracesStatement .body [] []
  | andThen {ts us : List Token} {os ps : List Origin} :
      TracesStatement .statement ts os → TracesStatement .body us ps → TracesStatement .body (ts ++ us) (os ++ ps)
  | block {opening closing : Token} {ts : List Token} {os : List Origin} :
      opening.kind = .openingBrace → TracesStatement .body ts os → closing.kind = .closingBrace →
      TracesStatement (.block closing) (opening :: ts ++ [closing]) os
  | call {name opening closing semicolon : Token} :
      name.kind = .identifier → opening.kind = .openingParen → closing.kind = .closingParen → semicolon.kind = .semicolon →
      TracesStatement .statement [name, opening, closing, semicolon] [.call name]
  | conditional {ts : List Token} {os : List Origin} :
      TracesStatement .conditional ts os → TracesStatement .statement ts os
  | ifThen {keyword closing : Token} {ts us : List Token} {os ps : List Origin} :
      keyword.kind = .ifWord → TracesTest ts os → TracesStatement (.block closing) us ps →
      TracesStatement .conditional (keyword :: ts ++ us) (os ++ .test keyword :: ps)
  | ifElse {keyword closing elseWord final : Token} {ts us vs : List Token} {os ps qs : List Origin} :
      keyword.kind = .ifWord → TracesTest ts os → TracesStatement (.block closing) us ps →
      elseWord.kind = .elseWord → TracesStatement (.block final) vs qs →
      TracesStatement .conditional (keyword :: ts ++ us ++ elseWord :: vs) (os ++ .test keyword :: ps ++ .passage :: qs)
  | elseIf {keyword closing elseWord : Token} {ts us vs : List Token} {os ps qs : List Origin} :
      keyword.kind = .ifWord → TracesTest ts os → TracesStatement (.block closing) us ps →
      elseWord.kind = .elseWord → TracesStatement .conditional vs qs →
      TracesStatement .conditional (keyword :: ts ++ us ++ elseWord :: vs) (os ++ .test keyword :: ps ++ .passage :: qs)
  | whileDo {keyword closing : Token} {ts us : List Token} {os ps : List Origin} :
      keyword.kind = .whileWord → TracesTest ts os → TracesStatement (.block closing) us ps →
      TracesStatement .statement (keyword :: ts ++ us) (os ++ .test keyword :: ps ++ [.passage])
  | repeatTimes {keyword opening number closing final : Token} {ts : List Token} {os : List Origin} :
      keyword.kind = .repeatWord → opening.kind = .openingParen → number.kind = .number →
      closing.kind = .closingParen → TracesStatement (.block final) ts os →
      TracesStatement .statement (keyword :: opening :: number :: closing :: ts) (.times keyword :: os ++ [.again final])

/-- Tokens that spell declarations one behind the other, and what their instructions are made for. -/
inductive TracesProgram : List Token → List Origin → Prop where
  | nil : TracesProgram [] []
  | cons {voidWord name opening closing final : Token} {ts us : List Token} {os ps : List Origin} :
      voidWord.kind = .voidWord → name.kind = .identifier →
      opening.kind = .openingParen → closing.kind = .closingParen → TracesStatement (.block final) ts os →
      TracesProgram us ps →
      TracesProgram (voidWord :: name :: opening :: closing :: ts ++ us) (os ++ [.finish final] ++ ps)

/-! ## Origins are tokens of the phrase -/

/-- The tokens of origins are among the tokens of a phrase. -/
def Within (os : List Origin) (ts : List Token) : Prop := ∀ o ∈ os, ∀ t, o.token? = some t → t ∈ ts

namespace Within

variable {ts us : List Token} {os ps : List Origin}

theorem nil : Within [] ts := nofun

/-- One more origin is within the tokens if its token is one of them. -/
theorem cons {o : Origin} {t : Token} (ho : o.token? = some t) (ht : t ∈ ts) (h : Within os ts) : Within (o :: os) ts := by
  refine List.forall_mem_cons.2 ⟨?_, h⟩
  intro t' ht'
  rw [ho] at ht'
  exact Option.some.inj ht' ▸ ht

/-- Words that no token stands for are within any tokens. -/
theorem passage (h : Within os ts) : Within (.passage :: os) ts := List.forall_mem_cons.2 ⟨nofun, h⟩

/-- Origins are within the tokens if those of both parts are. -/
theorem append (h : Within os ts) (h' : Within ps ts) : Within (os ++ ps) ts := List.forall_mem_append.2 ⟨h, h'⟩

/-- Origins stay within tokens when there is one more in front. -/
theorem behind {t : Token} (h : Within os ts) : Within os (t :: ts) :=
  fun o ho u hu => List.mem_cons_of_mem t (h o ho u hu)

/-- Origins stay within tokens when there are more behind. -/
theorem left (h : Within os ts) : Within os (ts ++ us) := fun o ho t ht => List.mem_append_left us (h o ho t ht)

/-- Origins stay within tokens when there are more in front. -/
theorem right (h : Within os us) : Within os (ts ++ us) := fun o ho t ht => List.mem_append_right ts (h o ho t ht)

/-- A statement with a test: the keyword is in front of the test and of what is guarded by it. -/
theorem guarded {keyword : Token} (h : Within os ts) (h' : Within ps us) :
    Within (os ++ .test keyword :: ps) (keyword :: ts ++ us) :=
  h.behind.left.append (.cons rfl List.mem_cons_self h'.right)

end Within

/-- The instructions of a condition are traced to tokens of it. -/
theorem TracesCondition.within {layer : Layer} {ts : List Token} {os : List Origin} (h : TracesCondition layer ts os) :
    Within os ts := by
  induction h with
  | sensor => exact .cons rfl List.mem_cons_self .nil
  | negation _ _ ih => exact ih.behind.append (.cons rfl List.mem_cons_self .nil)
  | group _ _ _ ih => exact ih.behind.left
  | single _ ih | only _ ih => exact ih
  | and _ _ _ ihl ihr | or _ _ _ ihl ihr =>
    exact (ihl.left.append ihr.behind.right).append (.cons rfl (by simp) .nil)

/-- The instructions of a test are traced to tokens of it. -/
theorem TracesTest.within {ts : List Token} {os : List Origin} (h : TracesTest ts os) : Within os ts := by
  obtain ⟨-, h, -⟩ := h
  exact h.within.behind.left

/-- A block ends with its closing brace. -/
theorem TracesStatement.closing_mem {closing : Token} {ts : List Token} {os : List Origin}
    (h : TracesStatement (.block closing) ts os) : closing ∈ ts ∧ closing.kind = .closingBrace := by
  obtain _ | _ | ⟨-, -, hclosing⟩ := h
  exact ⟨by simp, hclosing⟩

/-- The instructions of a statement are traced to tokens of it. -/
theorem TracesStatement.within {form : Form} {ts : List Token} {os : List Origin} (h : TracesStatement form ts os) :
    Within os ts := by
  induction h with
  | nothing => exact .nil
  | andThen _ _ ih₁ ih₂ => exact ih₁.left.append ih₂.right
  | block _ _ _ ih => exact ih.behind.left
  | call => exact .cons rfl List.mem_cons_self .nil
  | conditional _ ih => exact ih
  | ifThen _ ht _ ih => exact ht.within.guarded ih
  | ifElse _ ht _ _ _ ih₁ ih₂ | elseIf _ ht _ _ _ ih₁ ih₂ =>
    exact (ht.within.guarded ih₁).left.append ih₂.behind.right.passage
  | whileDo _ ht _ ih => exact (ht.within.guarded ih).append (.passage .nil)
  | repeatTimes _ _ _ _ hb ih =>
    have hbody := ih.append (.cons (o := .again _) rfl hb.closing_mem.1 .nil)
    exact .cons rfl List.mem_cons_self hbody.behind.behind.behind.behind

/-- The instructions of a program are traced to tokens of it. -/
theorem TracesProgram.within {ts : List Token} {os : List Origin} (h : TracesProgram ts os) : Within os ts := by
  induction h with
  | nil => exact .nil
  | cons _ _ _ _ hb _ ih =>
    have hcommand := hb.within.append (.cons (o := .finish _) rfl hb.closing_mem.1 .nil)
    exact hcommand.behind.behind.behind.behind.left.append ih.right

/-! ## Code is made for the origins of its phrase -/

/-- Tokens that spell a condition trace its code. -/
theorem SpellsCondition.traces {layer : Layer} {c : Condition} {ts : List Token} {depth : Nat}
    (h : SpellsCondition layer c ts depth) :
    ∃ os, TracesCondition layer ts os ∧ List.Forall₂ Instruction.MadeFor c.code os := by
  induction h with
  | sensor hname hs hopening hclosing =>
    exact ⟨_, .sensor hname hs hopening hclosing, .cons (Origin.Makes.sense hs).madeFor .nil⟩
  | negation hbang _ ih =>
    obtain ⟨os, ht, hmade⟩ := ih
    exact ⟨_, .negation hbang ht, List.rel_append hmade (.cons (Origin.Makes.not hbang).madeFor .nil)⟩
  | group hopening _ hclosing ih =>
    obtain ⟨os, ht, hmade⟩ := ih
    exact ⟨os, .group hopening ht hclosing, hmade⟩
  | single _ ih =>
    obtain ⟨os, ht, hmade⟩ := ih
    exact ⟨os, .single ht, hmade⟩
  | only _ ih =>
    obtain ⟨os, ht, hmade⟩ := ih
    exact ⟨os, .only ht, hmade⟩
  | and _ hoperator _ ihl ihr =>
    obtain ⟨os, ht, hmade⟩ := ihl
    obtain ⟨ps, ht', hmade'⟩ := ihr
    exact ⟨_, .and ht hoperator ht',
      List.rel_append (List.rel_append hmade hmade') (.cons (Origin.Makes.and hoperator).madeFor .nil)⟩
  | or _ hoperator _ ihl ihr =>
    obtain ⟨os, ht, hmade⟩ := ihl
    obtain ⟨ps, ht', hmade'⟩ := ihr
    exact ⟨_, .or ht hoperator ht',
      List.rel_append (List.rel_append hmade hmade') (.cons (Origin.Makes.or hoperator).madeFor .nil)⟩

/-- Tokens that spell a test trace the code of its condition. -/
theorem SpellsTest.traces {c : Condition} {ts : List Token} {depth : Nat} (h : SpellsTest c ts depth) :
    ∃ os, TracesTest ts os ∧ List.Forall₂ Instruction.MadeFor c.code os := by
  obtain ⟨hopening, hc, hclosing⟩ := h
  obtain ⟨os, ht, hmade⟩ := hc.traces
  exact ⟨os, .parens hopening ht hclosing, hmade⟩

/-- A test with what is guarded by it. -/
theorem madeFor_guarded {keyword : Token} {test is : List Instruction} {os ps : List Origin} {target : Nat}
    (hkeyword : keyword.kind = .ifWord ∨ keyword.kind = .whileWord) (h : List.Forall₂ Instruction.MadeFor test os)
    (h' : List.Forall₂ Instruction.MadeFor is ps) :
    List.Forall₂ Instruction.MadeFor (test ++ .of (.jumpUnless target) keyword.line :: is) (os ++ .test keyword :: ps) :=
  List.rel_append h (.cons (Origin.Makes.jumpUnless hkeyword).madeFor h')

/-- A test with what is guarded by it, the jump behind that, and what the test jumps to. -/
theorem madeFor_branches {keyword : Token} {test is js : List Instruction} {os ps qs : List Origin} {other target : Nat}
    (hkeyword : keyword.kind = .ifWord ∨ keyword.kind = .whileWord) (h : List.Forall₂ Instruction.MadeFor test os)
    (h' : List.Forall₂ Instruction.MadeFor is ps) (h'' : List.Forall₂ Instruction.MadeFor js qs) :
    List.Forall₂ Instruction.MadeFor
      (test ++ .of (.jumpUnless other) keyword.line :: is ++ .of (.jump target) 0 :: js)
      (os ++ .test keyword :: ps ++ .passage :: qs) :=
  List.rel_append (madeFor_guarded hkeyword h h') (.cons Origin.Makes.jump.madeFor h'')

/-- Tokens that spell a statement trace its code, wherever it begins. -/
theorem SpellsStatement.traces (address : String → Nat) {form : Form} {s : Statement} {ts : List Token} {depth : Nat}
    (h : SpellsStatement form s ts depth) :
    ∃ os, TracesStatement form ts os ∧ ∀ start, List.Forall₂ Instruction.MadeFor (s.code address start) os := by
  induction h with
  | nothing => exact ⟨[], .nothing, fun _ => .nil⟩
  | andThen _ _ ih₁ ih₂ =>
    obtain ⟨os, ht, hmade⟩ := ih₁
    obtain ⟨ps, ht', hmade'⟩ := ih₂
    exact ⟨_, .andThen ht ht', fun _ => List.rel_append (hmade _) (hmade' _)⟩
  | block hopening _ hclosing ih =>
    obtain ⟨os, ht, hmade⟩ := ih
    exact ⟨os, .block hopening ht hclosing, hmade⟩
  | act hname ha hopening hclosing hsemicolon =>
    exact ⟨_, .call hname hopening hclosing hsemicolon, fun _ => .cons (Origin.Makes.act ha).madeFor .nil⟩
  | call hname ha hopening hclosing hsemicolon =>
    exact ⟨_, .call hname hopening hclosing hsemicolon, fun _ => .cons (Origin.Makes.call ha).madeFor .nil⟩
  | conditional _ ih =>
    obtain ⟨os, ht, hmade⟩ := ih
    exact ⟨os, .conditional ht, hmade⟩
  | ifThen hkeyword htest _ ih =>
    obtain ⟨os, ht, hmade⟩ := htest.traces
    obtain ⟨ps, hb, hmade'⟩ := ih
    exact ⟨_, .ifThen hkeyword ht hb, fun _ => madeFor_guarded (.inl hkeyword) hmade (hmade' _)⟩
  | ifElse hkeyword htest _ helse _ ih₁ ih₂ =>
    obtain ⟨os, ht, hmade⟩ := htest.traces
    obtain ⟨ps, hb, hmade'⟩ := ih₁
    obtain ⟨qs, ho, hmade''⟩ := ih₂
    exact ⟨_, .ifElse hkeyword ht hb helse ho, fun _ => madeFor_branches (.inl hkeyword) hmade (hmade' _) (hmade'' _)⟩
  | elseIf hkeyword htest _ helse _ ih₁ ih₂ =>
    obtain ⟨os, ht, hmade⟩ := htest.traces
    obtain ⟨ps, hb, hmade'⟩ := ih₁
    obtain ⟨qs, ho, hmade''⟩ := ih₂
    exact ⟨_, .elseIf hkeyword ht hb helse ho, fun _ => madeFor_branches (.inl hkeyword) hmade (hmade' _) (hmade'' _)⟩
  | whileDo hkeyword htest _ ih =>
    obtain ⟨os, ht, hmade⟩ := htest.traces
    obtain ⟨ps, hb, hmade'⟩ := ih
    exact ⟨_, .whileDo hkeyword ht hb, fun _ => madeFor_branches (.inr hkeyword) hmade (hmade' _) .nil⟩
  | repeatTimes hkeyword hopening hnumber _ hclosing _ ih =>
    obtain ⟨os, hb, hmade⟩ := ih
    refine ⟨_, .repeatTimes hkeyword hopening hnumber hclosing hb, fun _ => ?_⟩
    refine .cons (Origin.Makes.push hkeyword).madeFor (List.rel_append (hmade _) ?_)
    exact .cons (Origin.Makes.loop hb.closing_mem.2).madeFor .nil

/-- Tokens that spell a program trace its code, wherever it begins. -/
theorem SpellsProgram.traces (address : String → Nat) {ds : List Declaration} {ts : List Token} {depth : Nat}
    (h : SpellsProgram ds ts depth) :
    ∃ os, TracesProgram ts os ∧ ∀ start, List.Forall₂ Instruction.MadeFor (Declaration.codeAll address start ds) os := by
  induction h with
  | nil => exact ⟨[], .nil, fun _ => .nil⟩
  | cons hd _ ih =>
    obtain ⟨hvoid, hname, hopening, hclosing, hb⟩ := hd
    obtain ⟨os, ht, hmade⟩ := hb.traces address
    obtain ⟨ps, hrest, hmade'⟩ := ih
    refine ⟨_, .cons hvoid hname hopening hclosing ht hrest, fun _ => List.rel_append ?_ (hmade' _)⟩
    exact List.rel_append (hmade _) (.cons (Origin.Makes.ret ht.closing_mem.2).madeFor .nil)

end Grammar

end GridRobot

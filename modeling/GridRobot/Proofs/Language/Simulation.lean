import GridRobot.Proofs.Language.Layout
import GridRobot.Proofs.Language.Meaning
import GridRobot.Proofs.Machine.Run

/-!
# The machine follows the meaning

The code of a condition puts its value on the condition stack and changes nothing else. The code of a statement takes the machine
from its begin to its end with the stacks as they were, in the world that the statement leaves; where the statement is stopped, the
machine ends with the same cause in the same world, and where it is unfinished after some rounds, the machine is still going after
as many steps.
-/

namespace GridRobot

open Machine

/-- The causes that a program of the language can be stopped for. -/
inductive FaultCause.OfLanguage : FaultCause → Prop where
  | stackOverflow : OfLanguage .stackOverflow
  | loopOverflow : OfLanguage .loopOverflow
  | world (e : WorldError) : OfLanguage (.world e)

/-- The commands lie in memory where calls go to, they are within their bounds, and they call only each other. -/
structure Loaded (p : Program) (ds : List Declaration) : Prop where
  bounded : ∀ d ∈ ds, d.body.Bounded
  defined : ∀ d ∈ ds, ∀ c ∈ d.body.calls, c.1 ∈ ds.map (·.name)
  held : ∀ name d, ds.find? (fun d => d.name == name) = some d →
    p.Holds (Compiler.addressIn ds name) (d.code (Compiler.addressIn ds) (Compiler.addressIn ds name))

/-- A statement lies at an address in front of further instructions, within its bounds, and calls only declared commands. -/
structure Placed (p : Program) (ds : List Declaration) (s : Statement) (a : Nat) : Prop where
  bounded : s.Bounded
  defined : ∀ c ∈ s.calls, c.1 ∈ ds.map (·.name)
  held : p.Holds a (s.code (Compiler.addressIn ds) a)
  inside : a + s.size < p.size

/-- The body of a declared command is placed where calls of it go to, with a return behind it. -/
theorem Loaded.command {p : Program} {ds : List Declaration} (h : Loaded p ds) {name : String}
    (hn : name ∈ ds.map (·.name)) :
    ∃ closing, Placed p ds (Declaration.bodyIn ds name) (Compiler.addressIn ds name) ∧
      p.instructions[Compiler.addressIn ds name + (Declaration.bodyIn ds name).size]? = some (.of .ret closing) := by
  obtain ⟨d, hd, rfl⟩ := List.mem_map.1 hn
  obtain ⟨d', hd'⟩ : ∃ d', ds.find? (fun e => e.name == d.name) = some d' :=
    Option.isSome_iff_exists.1 (List.find?_isSome.2 ⟨d, hd, beq_self_eq_true _⟩)
  have hmem := List.mem_of_find?_eq_some hd'
  obtain ⟨hbody, hret⟩ := (h.held _ _ hd').append
  rw [Statement.length_code] at hret
  have hinside := Program.lt_size_of_instructions hret.cons.1
  rw [show Declaration.bodyIn ds d.name = d'.body by rw [Declaration.bodyIn, hd']]
  exact ⟨d'.closing, ⟨h.bounded d' hmem, h.defined d' hmem, hbody, hinside⟩, hret.cons.1⟩

/-- Behind a test and its jump lies what they guard. -/
theorem Program.Holds.guarded {p : Program} {a b line : Nat} {test : Condition} {is : List Instruction}
    (h : p.Holds a (test.code ++ .of (.jumpUnless b) line :: is)) :
    p.Holds a (test.code ++ [.of (.jumpUnless b) line]) ∧ p.Holds (a + test.size + 1) is := by
  rw [List.append_cons] at h
  obtain ⟨ht, hs⟩ := h.append
  rw [List.length_append, Condition.length_code, List.length_singleton, ← Nat.add_assoc] at hs
  exact ⟨ht, hs⟩

namespace Placed

variable {p : Program} {ds : List Declaration} {a line closing : Nat} {s t : Statement} {test : Condition}

/-- Behind a test, the instruction behind it and a block, this is the address. -/
theorem length_guarded {i : Instruction} {address : String → Nat} {start : Nat} :
    a + (test.code ++ i :: s.code address start).length = a + test.size + 1 + s.size := by
  simp only [List.length_append, List.length_cons, Condition.length_code, Statement.length_code]
  omega

/-- A statement is placed in front of the others. -/
theorem andThen (h : Placed p ds (.andThen s t) a) : Placed p ds s a ∧ Placed p ds t (a + s.size) := by
  obtain ⟨hb, hd, hh, hi⟩ := h
  obtain ⟨hs, ht⟩ := hh.append
  rw [Statement.length_code] at ht
  simp only [Statement.size] at hi
  exact ⟨⟨(Statement.Bounded.andThen_iff.1 hb).1, fun c hc => hd c (List.mem_append_left _ hc), hs, by omega⟩,
    ⟨(Statement.Bounded.andThen_iff.1 hb).2, fun c hc => hd c (List.mem_append_right _ hc), ht, by omega⟩⟩

/-- The test of a conditional lies in front of its block, and the jump goes behind the block. -/
theorem ifThen (h : Placed p ds (.ifThen test line s) a) :
    p.Holds a (test.code ++ [.of (.jumpUnless (a + test.size + 1 + s.size)) line]) ∧ test.need ≤ 64 ∧
      Placed p ds s (a + test.size + 1) := by
  obtain ⟨hb, hd, hh, hi⟩ := h
  obtain ⟨hn, hb⟩ := Statement.Bounded.ifThen_iff.1 hb
  obtain ⟨ht, hs⟩ := hh.guarded
  simp only [Statement.size] at hi
  exact ⟨ht, hn, hb, hd, hs, by omega⟩

/-- The test lies in front of both blocks, its jump goes to the second one, and behind the first one is a jump behind the second.
-/
theorem ifElse (h : Placed p ds (.ifElse test line s t) a) :
    p.Holds a (test.code ++ [.of (.jumpUnless (a + test.size + 1 + s.size + 1)) line]) ∧ test.need ≤ 64 ∧
      Placed p ds s (a + test.size + 1) ∧
      p.instructions[a + test.size + 1 + s.size]? = some (.of (.jump (a + test.size + 1 + s.size + 1 + t.size)) 0) ∧
      Placed p ds t (a + test.size + 1 + s.size + 1) := by
  obtain ⟨hb, hd, hh, hi⟩ := h
  obtain ⟨hn, hbs, hbt⟩ := Statement.Bounded.ifElse_iff.1 hb
  obtain ⟨hg, hj⟩ := hh.append
  obtain ⟨ht, hs⟩ := hg.guarded
  rw [length_guarded] at hj
  obtain ⟨hj, hother⟩ := hj.cons
  simp only [Statement.size] at hi
  exact ⟨ht, hn, ⟨hbs, fun c hc => hd c (List.mem_append_left _ hc), hs, by omega⟩, hj,
    ⟨hbt, fun c hc => hd c (List.mem_append_right _ hc), hother, by omega⟩⟩

/-- The test of a loop lies in front of its block, and behind the block is a jump back to the test. -/
theorem whileDo (h : Placed p ds (.whileDo test line s) a) :
    p.Holds a (test.code ++ [.of (.jumpUnless (a + test.size + 1 + s.size + 1)) line]) ∧ test.need ≤ 64 ∧
      Placed p ds s (a + test.size + 1) ∧ p.instructions[a + test.size + 1 + s.size]? = some (.of (.jump a) 0) := by
  obtain ⟨hb, hd, hh, hi⟩ := h
  obtain ⟨hn, hb⟩ := Statement.Bounded.whileDo_iff.1 hb
  obtain ⟨hg, hj⟩ := hh.append
  obtain ⟨ht, hs⟩ := hg.guarded
  rw [length_guarded] at hj
  simp only [Statement.size] at hi
  exact ⟨ht, hn, ⟨hb, hd, hs, by omega⟩, hj.cons.1⟩

/-- The count of a repeat lies in front of its block, and behind the block is the instruction that counts down. -/
theorem repeatTimes {count : Nat} (h : Placed p ds (.repeatTimes count line s closing) a) :
    (2 ≤ count ∧ count ≤ 4095) ∧ p.instructions[a]? = some (.of (.push count) line) ∧ Placed p ds s (a + 1) ∧
      p.instructions[a + 1 + s.size]? = some (.of (.loop a) closing) := by
  obtain ⟨hb, hd, hh, hi⟩ := h
  obtain ⟨hn, hb⟩ := Statement.Bounded.repeatTimes_iff.1 hb
  obtain ⟨hpush, hh⟩ := hh.append
  obtain ⟨hp, hs⟩ := hpush.cons
  rw [List.length_cons, Statement.length_code, Nat.add_comm s.size, ← Nat.add_assoc] at hh
  simp only [Statement.size] at hi
  exact ⟨hn, hp, ⟨hb, hd, hs, by omega⟩, hh.cons.1⟩

end Placed

namespace Setting

variable {S : Setting}

/-! ## Conditions -/

/-- The code of a condition puts its value on the condition stack, if there is room for the results it leaves pending. -/
theorem path_condition (c : Condition) {a : Nat} (cs ls : List Nat) (bs : List Bool) (w : World)
    (hh : S.program.Holds a c.code) (ha : a + c.size < S.program.size)
    (hn : bs.length + c.need ≤ S.limits.conditions) :
    Path c.size (S.running a cs ls bs w) (S.running (a + c.size) cs ls (c.eval w :: bs) w) := by
  induction c generalizing a bs with
  | sense s line =>
    rw [Condition.eval, ← s.read_eq_holds]
    exact path_sense hh.cons.1 (Nat.lt_of_succ_le hn) ha
  | not c line ih =>
    obtain ⟨hc, hop⟩ := hh.append
    rw [Condition.length_code] at hop
    exact (ih bs hc (Nat.lt_of_succ_lt ha) hn).trans (path_not hop.cons.1 ha)
  | and left right line ihl ihr | or left right line ihl ihr =>
    obtain ⟨hcode, hop⟩ := hh.append
    obtain ⟨hl, hr⟩ := hcode.append
    rw [List.length_append, Condition.length_code, Condition.length_code, ← Nat.add_assoc] at hop
    rw [Condition.length_code] at hr
    simp only [Condition.size, Condition.need] at ha hn
    have hroom := left.need_pos
    have hleft := ihl bs hl (by omega) (by omega)
    have hright := ihr (left.eval w :: bs) hr (by omega) (by rw [List.length_cons]; omega)
    have hboth := (hleft.trans hright).trans
      (path_combine hop.cons.1 rfl (fun _ => rfl) (by omega) (by omega))
    simpa only [Condition.size, Condition.eval, ← Nat.add_assoc] using hboth

/-- The code of a test leads behind its jump where the test holds, and to the target of the jump where it does not. -/
theorem path_test (c : Condition) {a b line : Nat} (cs ls : List Nat) (w : World)
    (hh : S.program.Holds a (c.code ++ [.of (.jumpUnless b) line])) (hb : b < S.program.size)
    (ha : a + c.size + 1 < S.program.size) (hn : c.need ≤ S.limits.conditions) :
    Path (c.size + 1) (S.running a cs ls [] w)
      (S.running (if c.eval w then a + c.size + 1 else b) cs ls [] w) := by
  obtain ⟨hcode, hjump⟩ := hh.append
  rw [Condition.length_code] at hjump
  have hc := path_condition c cs ls [] w hcode (Nat.lt_of_succ_lt ha) (by simpa using hn)
  exact hc.trans (path_jumpUnless hjump.cons.1 hb ha)

/-! ## Statements -/

/-- The machine does what a result says, from where it is on: it comes to the goal in the world the result has finished in, or ends
with the cause the result was stopped for, or it is still going after as many steps as there were rounds. -/
def Follows (S : Setting) (rounds : Nat) (m : Machine) (goal : World → Machine) : Result → Prop
  | .finished w => ∃ n, Path n m (goal w)
  | .stopped cause w =>
    cause.OfLanguage ∧ ∃ n a cs ls, a < S.program.size ∧ Path n m (S.ended (some cause) a cs ls [] w)
  | .unfinished => ∃ n m', rounds ≤ n ∧ Path n m m'

namespace Follows

variable {n k : Nat} {m m' : Machine} {goal mid : World → Machine} {r : Result}

/-- A path in front counts as so many rounds. -/
theorem behind (h : S.Follows n m' goal r) {d : Nat} (hp : Path d m m') (hk : k ≤ d + n) : S.Follows k m goal r := by
  cases r with
  | finished w =>
    obtain ⟨i, hi⟩ := h
    exact ⟨_, hp.trans hi⟩
  | stopped cause w =>
    obtain ⟨hc, i, a, cs, ls, ha, hi⟩ := h
    exact ⟨hc, _, a, cs, ls, ha, hp.trans hi⟩
  | unfinished =>
    obtain ⟨i, e, hle, hi⟩ := h
    exact ⟨_, e, by omega, hp.trans hi⟩

/-- What is done next is done from where the machine comes to. -/
theorem andThen {f : World → Result} (h : S.Follows n m mid r) (hf : ∀ w, S.Follows n (mid w) goal (f w)) :
    S.Follows n m goal (r.andThen f) := by
  cases r with
  | finished w =>
    obtain ⟨i, hi⟩ := h
    exact (hf w).behind hi (Nat.le_add_left _ _)
  | stopped cause w => exact h
  | unfinished => exact h

/-- A path behind leads on to another goal. -/
theorem onward {d : World → Nat} {goal' : World → Machine} (h : S.Follows n m goal r)
    (hp : ∀ w, Path (d w) (goal w) (goal' w)) : S.Follows n m goal' r := by
  cases r with
  | finished w =>
    obtain ⟨i, hi⟩ := h
    exact ⟨_, hi.trans (hp w)⟩
  | stopped cause w => exact h
  | unfinished => exact h

end Follows

/-- The machine follows what a statement does in so many rounds wherever the statement lies and whatever is on the stacks for calls
and repeats, whose sizes are the numbers of active calls and repeats. -/
def Simulates (S : Setting) (ds : List Declaration) (rounds : Nat) (s : Statement)
    (meaning : Nat → Nat → World → Result) : Prop :=
  ∀ a cs ls w, Placed S.program ds s a →
    S.Follows rounds (S.running a cs ls [] w) (fun w' => S.running (a + s.size) cs ls [] w')
      (meaning cs.length ls.length w)

/-- The rounds of a repeat that are left, each from behind its begin to its end. -/
theorem follows_times {n a line : Nat} (cs ls : List Nat) {s : Statement} {f : World → Result}
    (hloop : S.program.instructions[a + 1 + s.size]? = some (.of (.loop a) line))
    (hend : a + 1 + s.size + 1 < S.program.size)
    (hf : ∀ k w, S.Follows n (S.running (a + 1) cs (k :: ls) [] w)
      (fun w' => S.running (a + 1 + s.size) cs (k :: ls) [] w') (f w))
    (k : Nat) (w : World) :
    S.Follows n (S.running (a + 1) cs ((k + 1) :: ls) [] w) (fun w' => S.running (a + 1 + s.size + 1) cs ls [] w')
      (Result.times f (k + 1) w) := by
  induction k generalizing w with
  | zero =>
    refine (hf 1 w).andThen (fun w' => ?_)
    exact ⟨1, path_loop_end hloop (address_fits (S := S) (by omega)) hend⟩
  | succ k ih =>
    refine (hf (k + 2) w).andThen (fun w' => ?_)
    exact (ih w').behind (path_loop_again hloop (by omega) (Nat.succ_pos k)) (Nat.le_add_left _ _)

/-! ## Statements one by one -/

section

variable {ds : List Declaration} {n : Nat} {meaning next : Nat → Nat → World → Result}

/-- A machine at the end of a block is behind it. -/
theorem Simulates.nothing : S.Simulates ds n .nothing (fun _ _ w => .finished w) := by
  intro a cs ls w _
  exact ⟨0, .refl _⟩

/-- Two statements are simulated one behind the other, the second one in the world that the first one leaves. -/
theorem Simulates.andThen {first rest : Statement} (h : S.Simulates ds n first meaning)
    (h' : S.Simulates ds n rest next) :
    S.Simulates ds n (.andThen first rest) (fun c l w => (meaning c l w).andThen (next c l)) := by
  intro a cs ls w hp
  obtain ⟨hfirst, hrest⟩ := hp.andThen
  refine (h a cs ls w hfirst).andThen (fun w' => ?_)
  simpa only [Statement.size, Nat.add_assoc] using h' (a + first.size) cs ls w' hrest

/-- An action is simulated by the instruction that performs it in the world. -/
theorem Simulates.act {act : Action} {line : Nat} :
    S.Simulates ds n (.act act line) (fun _ _ w => act.run w) := by
  intro a cs ls w hp
  dsimp only
  rw [act.run_eq]
  cases hw : act.perform w with
  | ok w' => exact ⟨1, path_act hp.held.cons.1 hw hp.inside⟩
  | error e => exact ⟨.world e, 1, a, cs, ls, Nat.lt_of_succ_lt hp.inside, path_act_fault hp.held.cons.1 hw⟩

/-- A call takes a round: the command is followed in those that are left. -/
theorem Simulates.call {name : String} {line position : Nat} (hl : Loaded S.program ds)
    (h : S.Simulates ds n (Declaration.bodyIn ds name) meaning) :
    S.Simulates ds (n + 1) (.call name line position) (fun c l w =>
      if c < S.limits.calls then meaning (c + 1) l w else .stopped .stackOverflow w) := by
  intro a cs ls w hp
  obtain ⟨closing, hbody, hret⟩ := hl.command (hp.defined _ List.mem_cons_self)
  have hstart := Nat.lt_of_le_of_lt (Nat.le_add_right _ _) hbody.inside
  dsimp only
  split
  · rename_i hlt
    have hrun := (h _ ((a + 1) :: cs) ls w hbody).onward (fun w' => path_back (w := w') hret hp.inside)
    exact hrun.behind (path_call hp.held.cons.1 hstart hlt) (by omega)
  · rename_i hge
    exact ⟨.stackOverflow, 1, a, cs, ls, Nat.lt_of_succ_lt hp.inside, path_call_fault hp.held.cons.1 hstart hge⟩

/-- A conditional is simulated if its block is. -/
theorem Simulates.ifThen {test : Condition} {line : Nat} {inner : Statement} (hc : 64 ≤ S.limits.conditions)
    (h : S.Simulates ds n inner meaning) :
    S.Simulates ds n (.ifThen test line inner) (fun c l w => if test.eval w then meaning c l w else .finished w) := by
  intro a cs ls w hp
  obtain ⟨htest, hneed, hinner⟩ := hp.ifThen
  have hb := hinner.inside
  have hpath := path_test test cs ls w htest hb (by omega) (Nat.le_trans hneed hc)
  have hend : a + test.size + 1 + inner.size = a + (Statement.ifThen test line inner).size := by
    simp only [Statement.size, Nat.add_assoc]
  dsimp only
  split
  · rename_i he
    rw [if_pos he] at hpath
    rw [← hend]
    exact (h _ cs ls w hinner).behind hpath (Nat.le_add_left _ _)
  · rename_i he
    rw [if_neg he, hend] at hpath
    exact ⟨_, hpath⟩

/-- A conditional with an alternative is simulated if both blocks are. -/
theorem Simulates.ifElse {test : Condition} {line : Nat} {inner otherwise : Statement}
    (hc : 64 ≤ S.limits.conditions) (h : S.Simulates ds n inner meaning) (h' : S.Simulates ds n otherwise next) :
    S.Simulates ds n (.ifElse test line inner otherwise) (fun c l w =>
      if test.eval w then meaning c l w else next c l w) := by
  intro a cs ls w hp
  obtain ⟨htest, hneed, hinner, hjump, hother⟩ := hp.ifElse
  have hb := hother.inside
  have hpath := path_test test cs ls w htest (by omega) (by omega) (Nat.le_trans hneed hc)
  have hend : a + test.size + 1 + inner.size + 1 + otherwise.size =
      a + (Statement.ifElse test line inner otherwise).size := by
    simp only [Statement.size, Nat.add_assoc]
  dsimp only
  rw [← hend]
  split
  · rename_i he
    rw [if_pos he] at hpath
    have hrun := (h _ cs ls w hinner).onward (fun w' => path_jump (w := w') hjump hb)
    exact hrun.behind hpath (Nat.le_add_left _ _)
  · rename_i he
    rw [if_neg he] at hpath
    exact (h' _ cs ls w hother).behind hpath (Nat.le_add_left _ _)

/-- A further round of a loop takes a round: the loop is followed from its begin in those that are left. -/
theorem Simulates.whileDo {test : Condition} {line : Nat} {inner : Statement} (hc : 64 ≤ S.limits.conditions)
    (h : S.Simulates ds (n + 1) inner meaning) (hagain : S.Simulates ds n (.whileDo test line inner) next) :
    S.Simulates ds (n + 1) (.whileDo test line inner) (fun c l w =>
      if test.eval w then (meaning c l w).andThen (next c l) else .finished w) := by
  intro a cs ls w hp
  obtain ⟨htest, hneed, hinner, hjump⟩ := hp.whileDo
  have hend : a + test.size + 1 + inner.size + 1 = a + (Statement.whileDo test line inner).size := by
    simp only [Statement.size, Nat.add_assoc]
  have hb := hp.inside
  rw [← hend] at hb
  have hpath := path_test test cs ls w htest hb (by omega) (Nat.le_trans hneed hc)
  dsimp only
  split
  · rename_i he
    rw [if_pos he] at hpath
    refine ((h _ cs ls w hinner).andThen (fun w' => ?_)).behind hpath (Nat.le_add_left _ _)
    -- the jump back is the step that pays for the round
    exact (hagain a cs ls w' hp).behind (path_jump hjump (by omega)) (by omega)
  · rename_i he
    rw [if_neg he, hend] at hpath
    exact ⟨_, hpath⟩

/-- A repeat is simulated if its block is. The induction is on the rounds that are left. -/
theorem Simulates.repeatTimes {count line closing : Nat} {inner : Statement} (h : S.Simulates ds n inner meaning) :
    S.Simulates ds n (.repeatTimes count line inner closing) (fun c l w =>
      if l < S.limits.loops then Result.times (meaning c (l + 1)) count w else .stopped .loopOverflow w) := by
  intro a cs ls w hp
  obtain ⟨⟨htwo, hcount⟩, hpush, hinner, hloop⟩ := hp.repeatTimes
  have hend : a + 1 + inner.size + 1 = a + (Statement.repeatTimes count line inner closing).size := by
    simp only [Statement.size, Nat.add_assoc]
  have hb := hp.inside
  rw [← hend] at hb
  dsimp only
  split
  · rename_i hlt
    obtain ⟨k, rfl⟩ : ∃ k, count = k + 1 := ⟨count - 1, by omega⟩
    have hround := fun k w => h _ cs (k :: ls) w hinner
    have hrounds := follows_times cs ls (f := meaning cs.length (ls.length + 1)) hloop hb hround k w
    rw [← hend]
    exact hrounds.behind (path_push hpush (Nat.lt_succ_of_le hcount) hlt (by omega)) (Nat.le_add_left _ _)
  · rename_i hge
    exact ⟨.loopOverflow, 1, a, cs, ls, by omega, path_push_fault hpush (Nat.lt_succ_of_le hcount) hge⟩

end

section

variable {ds : List Declaration} (hl : Loaded S.program ds) (hc : 64 ≤ S.limits.conditions)
include hl hc

/-- The machine follows a statement in one more round than every statement that is left to others. The induction is on the
statement, whose parts get the same rounds. -/
theorem simulates_perform {n : Nat} {again : Nat → Nat → Statement → World → Result}
    (hagain : ∀ s, S.Simulates ds n s (fun c l => again c l s)) (s : Statement) :
    S.Simulates ds (n + 1) s (fun c l => s.perform S.limits (Declaration.bodyIn ds) again c l) := by
  induction s with
  | nothing => exact .nothing
  | andThen first rest ih₁ ih₂ => exact ih₁.andThen ih₂
  | act act line => exact .act
  | call name line position => exact .call hl (hagain (Declaration.bodyIn ds name))
  | ifThen test line inner ih => exact .ifThen hc ih
  | ifElse test line inner otherwise ih₁ ih₂ => exact .ifElse hc ih₁ ih₂
  | whileDo test line inner ih => exact .whileDo hc ih (hagain (.whileDo test line inner))
  | repeatTimes count line inner closing ih => exact .repeatTimes ih

/-- The machine follows every statement in any number of rounds. -/
theorem simulates_run (n : Nat) (s : Statement) :
    S.Simulates ds n s (fun c l => s.run S.limits (Declaration.bodyIn ds) n c l) := by
  induction n generalizing s with
  | zero =>
    intro a cs ls w _
    exact ⟨0, _, Nat.le_refl 0, .refl _⟩
  | succ n ih => exact simulates_perform hl hc ih s

end

end Setting

end GridRobot

import GridRobot.Proofs.Language.Acceptance
import GridRobot.Proofs.Language.Simulation

/-!
# Compilation preserves meaning

A compiled program that runs from address 0 does what the text means: it halts in the world the program finishes in, it faults with
the cause and in the world the program is stopped with, and it runs for ever where the program never ends. The simulation of
statements is applied to the call of the entry; the other directions hold because neither a run nor a program ends in two ways.
-/

namespace GridRobot

open Machine

/-! ## What a compiled program has in memory -/

namespace Compiler

/-- In front of the commands lie the call of the entry, if there is one, and a return. -/
theorem header_of_instructions {ds : List Declaration} {e : Option Nat} {q : Program}
    (h : q.instructions = codeOf ds e) :
    q.instructions[0]? = some (.of (e.elim .ret .call) 0) ∧ q.instructions[1]? = some (.of .ret 0) := by
  rw [h, codeOf]
  cases e <;> exact ⟨rfl, rfl⟩

end Compiler

/-- A program of admissible declarations: they are loaded, behind the call of the entry and a return. -/
theorem loaded_of_assembleAll {ds : List Declaration} {depth : Nat} {asked : Option String} {p : Program}
    (ha : Grammar.Admissible ds depth) (h : Compiler.assembleAll ds asked = .ok p) :
    Loaded p ds ∧ p.instructions[1]? = some (.of .ret 0) ∧
      match Declaration.entryIn ds asked with
      | some name => name ∈ ds.map (·.name) ∧ p.instructions[0]? = some (.of (.call (Compiler.addressIn ds name)) 0)
      | none => p.instructions[0]? = some (.of .ret 0) := by
  obtain ⟨-, e, he, q, hq, rfl⟩ := Compiler.assembleAll_eq_ok.1 h
  have hcode : q.instructions = Compiler.codeOf ds e := (Program.pushAll_eq_ok hq).2.1
  obtain ⟨rfl, hnames⟩ := Compiler.entryAddress_eq_ok he
  obtain ⟨hfirst, hsecond⟩ := Compiler.header_of_instructions hcode
  refine ⟨⟨ha.bounded, ha.defined, fun name d hd => Compiler.holds_code hcode hd⟩, hsecond, ?_⟩
  cases hentry : Declaration.entryIn ds asked with
  | some name =>
    rw [hentry] at hfirst
    exact ⟨hnames name hentry, hfirst⟩
  | none =>
    rw [hentry] at hfirst
    exact hfirst

/-- The address that a run which does not end with a fault ends at. -/
def Declaration.exitIn (ds : List Declaration) : Nat := if ds = [] then 0 else 1

namespace Setting

variable {S : Setting}

/-- From address 0 the machine follows the program: where the program finishes, the machine returns from address 1, or from
address 0 if there is no command to call. -/
theorem follows_program {asked : Option String} {ds : List Declaration} {depth : Nat}
    (ha : Grammar.Admissible ds depth) (h : Compiler.assembleAll ds asked = .ok S.program)
    (hc : 64 ≤ S.limits.conditions) (n : Nat) :
    S.Follows n (S.running 0 [] [] [] S.origin) (fun w => S.ended none (Declaration.exitIn ds) [] [] [] w)
      (Declaration.runAll S.limits ds asked n S.origin) := by
  obtain ⟨hl, hreturn, hentry⟩ := loaded_of_assembleAll ha h
  unfold Declaration.runAll
  cases he : Declaration.entryIn ds asked with
  | some name =>
    rw [he] at hentry
    obtain ⟨hname, hcall⟩ := hentry
    have hexit : Declaration.exitIn ds = 1 := if_neg (by rintro rfl; nomatch hname)
    have hplaced : Placed S.program ds (.call name 0 0) 0 :=
      ⟨.call, fun c hc => by rw [List.mem_singleton.1 hc]; exact hname, .one hcall,
        Program.lt_size_of_instructions hreturn⟩
    rw [hexit]
    exact (simulates_run hl hc n (.call name 0 0) 0 [] [] S.origin hplaced).onward (fun w => path_halt (w := w) hreturn)
  | none =>
    rw [he] at hentry
    obtain rfl := Declaration.eq_nil_of_entryIn he
    exact ⟨1, path_halt hentry⟩

/-! ## Both ways -/

section

variable {m : Machine} {exit : Nat} {R : Nat → Result}
  (h : ∀ n, S.Follows n m (fun w => S.ended none exit [] [] [] w) (R n))
include h

/-- A run that follows results halts where one of them has finished. -/
theorem haltsIn_of_follows {n : Nat} {w : World} (hn : R n = .finished w) : m.HaltsIn w := by
  have hf := h n
  rw [hn] at hf
  obtain ⟨k, hk⟩ := hf
  exact ⟨k, by rw [hk.arrives]; exact ⟨rfl, rfl, rfl⟩⟩

/-- A run that follows results faults where one of them was stopped. -/
theorem faultsWith_of_follows {n : Nat} {cause : FaultCause} {w : World} (hn : R n = .stopped cause w) :
    m.FaultsWith cause w := by
  have hf := h n
  rw [hn] at hf
  obtain ⟨-, k, a, cs, ls, -, hk⟩ := hf
  exact ⟨k, a, by rw [hk.arrives]; exact ⟨rfl, rfl⟩⟩

/-- A run that follows results goes on for ever if none of them has ended: in front of step `n` it is still going, as it is in
`n + 1` rounds. -/
theorem stepsForever_of_follows (hn : ∀ n, R n = .unfinished) : m.StepsForever := by
  intro n
  have hf := h (n + 1)
  rw [hn] at hf
  obtain ⟨k, m', hk, hp⟩ := hf
  exact (hp.going n hk).not_ended

/-- Results that are followed end as the run does, whichever way that is. -/
theorem outcomes_of_follows (w : World) (cause : FaultCause) :
    (m.HaltsIn w ↔ ∃ n, R n = .finished w) ∧ (m.FaultsWith cause w ↔ ∃ n, R n = .stopped cause w) ∧
      (m.StepsForever ↔ ∀ n, R n = .unfinished) := by
  have hways : (∃ n w, R n = .finished w) ∨ (∃ n cause w, R n = .stopped cause w) ∨ ∀ n, R n = .unfinished := by
    by_cases hall : ∀ n, R n = .unfinished
    · exact .inr (.inr hall)
    · obtain ⟨n, hn⟩ := Classical.not_forall.1 hall
      cases hr : R n with
      | finished w => exact .inl ⟨n, w, hr⟩
      | stopped cause w => exact .inr (.inl ⟨n, cause, w, hr⟩)
      | unfinished => exact absurd hr hn
  refine ⟨⟨?_, fun ⟨n, hn⟩ => haltsIn_of_follows h hn⟩, ⟨?_, fun ⟨n, hn⟩ => faultsWith_of_follows h hn⟩,
    ⟨?_, stepsForever_of_follows h⟩⟩
  · intro hm
    rcases hways with ⟨n, w', hn⟩ | ⟨n, cause', w', hn⟩ | hn
    · rw [hm.unique (haltsIn_of_follows h hn)]
      exact ⟨n, hn⟩
    · exact absurd (faultsWith_of_follows h hn) hm.not_faultsWith
    · exact absurd hm (stepsForever_of_follows h hn).not_haltsIn
  · intro hm
    rcases hways with ⟨n, w', hn⟩ | ⟨n, cause', w', hn⟩ | hn
    · exact absurd hm (haltsIn_of_follows h hn).not_faultsWith
    · obtain ⟨rfl, rfl⟩ := hm.unique (faultsWith_of_follows h hn)
      exact ⟨n, hn⟩
    · exact absurd hm (stepsForever_of_follows h hn).not_faultsWith
  · intro hm
    rcases hways with ⟨n, w', hn⟩ | ⟨n, cause', w', hn⟩ | hn
    · exact absurd (haltsIn_of_follows h hn) hm.not_haltsIn
    · exact absurd (faultsWith_of_follows h hn) hm.not_faultsWith
    · exact hn

end

end Setting

/-- Compilation preserves meaning: with the usual limits, a compiled program halts in the worlds that the program which the text
spells finishes in, faults with the causes and in the worlds that this one is stopped with, and runs for ever where it never ends. -/
theorem compile_preserves_meaning {source : String} {p : Program} (h : compile source none = .ok p) :
    ∃ ts eof lexicon ds depth, lex source = .ok (ts ++ [eof], lexicon) ∧ Grammar.SpellsProgram ds ts depth ∧
      parse source = .ok ds ∧ ∀ w w' cause,
        ((Machine.start p w .standard).HaltsIn w' ↔ Declaration.Finishes .standard ds none w w') ∧
        ((Machine.start p w .standard).FaultsWith cause w' ↔ Declaration.Stops .standard ds none w cause w') ∧
        ((Machine.start p w .standard).StepsForever ↔ Declaration.NeverEnds .standard ds none w) := by
  obtain ⟨ts, eof, lexicon, ds, depth, hlex, hs, ha, hparse, hp⟩ := admissible_of_compile h
  refine ⟨ts, eof, lexicon, ds, depth, hlex, hs, hparse, ?_⟩
  intro w w' cause
  let S : Setting := ⟨p, w, .standard⟩
  have hstart : Machine.start p w .standard = S.running 0 [] [] [] w := S.start_eq
  have hf := Setting.follows_program (S := S) ha hp (Nat.le_refl 64)
  rw [hstart]
  exact Setting.outcomes_of_follows hf w' cause

/-- A text with every action and every sensor, in which a beeper is dropped, fetched and carried away. -/
def fetching : String :=
  "void main(){dropBeeper();moveForward();turnAround();if(beeperAhead()){get();}put();}" ++
  "void get(){while(!onBeeper()){moveForward();}pickBeeper();if(leftIsClear()&&!(frontIsClear()||rightIsClear())){turnLeft();}}" ++
  "void put(){repeat(2){moveForward();turnLeft();}turnRight();dropBeeper();}"

set_option maxRecDepth 100000 in
/-- In the empty world the beeper is carried to the cell south east of the corner. Where the corner has a beeper already, the first
command is refused. -/
theorem compile_preserves_meaning_of_fetching :
    ∃ p ds w w' full, w = World.empty ∧
      w' = { w with robot := ⟨1, 1⟩, heading := .east, beepers := w.beepers.set ⟨1, 1⟩ true } ∧
      full = { w with beepers := w.beepers.set w.robot true } ∧
      compile fetching none = .ok p ∧ parse fetching = .ok ds ∧
      Declaration.Finishes .standard ds none w w' ∧ (Machine.start p w .standard).HaltsIn w' ∧
      Declaration.Stops .standard ds none full (.world (.cellIsFull 0 0)) full ∧
      (Machine.start p full .standard).FaultsWith (.world (.cellIsFull 0 0)) full := by
  let w : World := World.empty
  let w' : World := { w with robot := ⟨1, 1⟩, heading := .east, beepers := w.beepers.set ⟨1, 1⟩ true }
  let full : World := { w with beepers := w.beepers.set w.robot true }
  -- the text is read once for its program and both of its runs
  have hread : (parse fetching).toOption.map (fun ds => ((Compiler.assembleAll ds none).isOk,
      Declaration.runAll .standard ds none 9 w, Declaration.runAll .standard ds none 9 full)) =
      some (true, .finished w', .stopped (.world (.cellIsFull 0 0)) full) := by decide +kernel
  obtain ⟨ds, hds, hruns⟩ := exists_of_toOption_map hread
  obtain ⟨hok, hruns⟩ := Prod.mk.inj hruns
  obtain ⟨hfinished, hstopped⟩ := Prod.mk.inj hruns
  obtain ⟨p, hp⟩ := exists_of_isOk hok
  have hcompile : compile fetching none = .ok p := bind_eq_ok.2 ⟨ds, hds, hp⟩
  obtain ⟨_, _, _, _, _, _, _, hparse, hmeans⟩ := compile_preserves_meaning hcompile
  obtain rfl := Except.ok.inj (hds.symm.trans hparse)
  have hf : Declaration.Finishes .standard ds none w w' := ⟨9, hfinished⟩
  have hs : Declaration.Stops .standard ds none full (.world (.cellIsFull 0 0)) full := ⟨9, hstopped⟩
  exact ⟨p, ds, w, w', full, rfl, rfl, rfl, hcompile, hds, hf, (hmeans w w' .stackOverflow).1.2 hf, hs,
    (hmeans full full (.world (.cellIsFull 0 0))).2.1.2 hs⟩

end GridRobot

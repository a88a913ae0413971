import GridRobot.Proofs.Language.Provenance
import GridRobot.Proofs.Language.Safety
import GridRobot.Proofs.Language.Tokens
import GridRobot.Proofs.Machine.Lockstep

/-!
# The lines of compiled code and the pauses of its runs

The lines of compiled code are those of the tokens that its instructions are made for, and the words that no line stands for are
the two in front of the commands and the jumps. So a run pauses behind the actions, and behind what begins or ends something that
a line stands for; it pauses at nothing else (`compiled_lines_and_pauses`).
-/

namespace GridRobot

open Text

/-! ## Lines -/

/-- A token says how many bytes are in front of it and, counted from one, how many lines. -/
theorem place_of_lex {source : String} {ts : List Token} {eof : Token} {lexicon : Lexicon}
    (h : lex source = .ok (ts ++ [eof], lexicon)) :
    ∀ t ∈ ts, ∃ before rest, source.toList = before ++ rest ∧ t.position = byteLength before ∧
      t.line = before.count '\n' + 1 := by
  obtain ⟨rfl, hending, -⟩ := lex_eq_ok_iff.1 h
  intro t ht
  obtain ⟨before, cur, behind, hspans, hstands⟩ := Scan.stands_of_mem hending t ht
  refine ⟨before, cur.rest, hspans.rest, ?_, ?_⟩
  · rw [hstands.position, hspans.offset]
    exact Nat.zero_add _
  · rw [hstands.line, hspans.line]
    exact Nat.add_comm _ _

/-- The line of a token is that of its position. -/
theorem line_of_lex {source : String} {ts : List Token} {eof : Token} {lexicon : Lexicon}
    (h : lex source = .ok (ts ++ [eof], lexicon)) :
    ∀ t ∈ ts, t.line = (Location.ofOffset source.toList t.position).line := by
  intro t ht
  obtain ⟨before, rest, hsource, hposition, hline⟩ := place_of_lex h t ht
  rw [hsource, hposition, hline, Location.line_ofOffset]

/-- The instructions of a program are made for origins, one by one, but for a call and a return at most in front of them. -/
structure Program.Traced (p : Program) (origins : List Origin) : Prop where
  front : ∀ i ∈ p.instructions.take 2, i.line = 0 ∧ ∃ op, i.decode = some op ∧ (op = .ret ∨ ∃ target, op = .call target)
  rest : List.Forall₂ Instruction.MadeFor (p.instructions.drop 2) origins
  lines : ∀ o ∈ origins, ∀ t, o.token? = some t → 0 < t.line

/-- The operations that a run of compiled code pauses behind, by the address that they are taken from. -/
def Opcode.PausesAt (a : Nat) : Opcode → Prop
  | act _ => True
  | call _ | ret | push _ | loop _ | jumpUnless _ => 2 ≤ a
  | sense _ | not | and | or | xor | jump _ | jumpIf _ => False

namespace Instruction

variable {i : Instruction} {o : Origin} {a : Nat}

/-- No line stands for an instruction exactly if it is made for no token. -/
theorem MadeFor.line_eq_zero_iff (h : i.MadeFor o) (hlines : ∀ t, o.token? = some t → 0 < t.line) :
    i.line = 0 ↔ ∃ target, i.decode = some (.jump target) := by
  obtain ⟨op, hop, hmakes⟩ := h.makes
  rw [h.line, hop]
  simp only [Option.some.injEq]
  rw [← hmakes.token?_eq_none_iff, Origin.line]
  cases ho : o.token? with
  | none => simp
  | some t => simpa using Nat.ne_of_gt (hlines t ho)

/-- Behind the bootstrap, a run pauses at what is made for a token unless it senses or works out a condition. -/
theorem MadeFor.pauses_iff (h : i.MadeFor o) (hlines : ∀ t, o.token? = some t → 0 < t.line) (ha : 2 ≤ a) :
    i.pauses = true ↔ ∃ op, i.decode = some op ∧ op.PausesAt a := by
  have hzero := h.line_eq_zero_iff hlines
  obtain ⟨op, hop, hmakes⟩ := h.makes
  rw [hop] at hzero ⊢
  cases hmakes with
  | act | sense | not | and | or => simp [pauses, hop, Opcode.PausesAt]
  | call | jumpUnless | push | loop | ret =>
    have hline : 0 < i.line := Nat.pos_of_ne_zero (mt hzero.1 (by simp))
    simp [pauses, fromLine, hop, hline, Opcode.PausesAt, ha]
  | jump =>
    have hline : i.line = 0 := hzero.2 ⟨_, rfl⟩
    simp [pauses, fromLine, hop, hline, Opcode.PausesAt]

end Instruction

namespace Program.Traced

variable {p : Program} {origins : List Origin} {a : Nat} {i : Instruction}

/-- An instruction is one of the two in front of the commands, or is made for an origin. -/
theorem front_or_madeFor (h : p.Traced origins) (hi : p.instructions[a]? = some i) :
    (a < 2 ∧ i ∈ p.instructions.take 2) ∨ 2 ≤ a ∧ ∃ o ∈ origins, i.MadeFor o := by
  rcases Nat.lt_or_ge a 2 with ha | ha
  · refine .inl ⟨ha, List.mem_of_getElem? (i := a) ?_⟩
    rw [List.getElem?_take, if_pos ha, hi]
  · obtain ⟨k, rfl⟩ := Nat.exists_eq_add_of_le ha
    rw [← List.getElem?_drop] at hi
    obtain ⟨hk, rfl⟩ := List.getElem?_eq_some_iff.1 hi
    have hk' : k < origins.length := h.rest.length_eq ▸ hk
    exact .inr ⟨ha, origins[k], List.getElem_mem hk', h.rest.get hk hk'⟩

theorem line_eq_zero_iff (h : p.Traced origins) (hi : p.instructions[a]? = some i) :
    i.line = 0 ↔ a < 2 ∨ ∃ target, i.decode = some (.jump target) := by
  rcases h.front_or_madeFor hi with ⟨ha, hmem⟩ | ⟨ha, o, ho, hmade⟩
  · exact iff_of_true (h.front i hmem).1 (.inl ha)
  · rw [hmade.line_eq_zero_iff (h.lines o ho)]
    simp [Nat.not_lt.2 ha]

theorem not_pauses_of_lt (h : p.Traced origins) (hi : p.instructions[a]? = some i) (ha : a < 2) : i.pauses = false := by
  rcases h.front_or_madeFor hi with ⟨-, hmem⟩ | ⟨hge, -⟩
  · obtain ⟨hline, op, hop, rfl | ⟨target, rfl⟩⟩ := h.front i hmem
    all_goals simp [Instruction.pauses, Instruction.fromLine, hop, hline]
  · exact absurd ha (Nat.not_lt.2 hge)

theorem pauses_iff (h : p.Traced origins) (hi : p.instructions[a]? = some i) :
    i.pauses = true ↔ ∃ op, i.decode = some op ∧ op.PausesAt a := by
  rcases h.front_or_madeFor hi with ⟨ha, hmem⟩ | ⟨ha, o, ho, hmade⟩
  · rw [h.not_pauses_of_lt hi ha]
    obtain ⟨-, op, hop, rfl | ⟨target, rfl⟩⟩ := h.front i hmem
    all_goals simp [hop, Opcode.PausesAt, ha]
  · exact hmade.pauses_iff (h.lines o ho) ha

end Program.Traced

/-- The words in front of the commands are a call or a return, and a return, and no line stands for them. -/
theorem Compiler.of_mem_header {e : Option Nat} {i : Instruction} (h : i ∈ header e) :
    i.line = 0 ∧ ∃ op, i.decode = some op ∧ (op = .ret ∨ ∃ target, op = .call target) := by
  have hret : (Instruction.of .ret 0).decode = some .ret := Opcode.decode_encode_narrow .ret
  cases e with
  | none =>
    obtain rfl : i = .of .ret 0 := by simpa [header] using h
    exact ⟨rfl, _, hret, .inl rfl⟩
  | some entry =>
    rcases (by simpa [header] using h : i = .of (.call entry) 0 ∨ i = .of .ret 0) with rfl | rfl
    · exact ⟨rfl, _, Opcode.decode_encode_narrow (.call entry), .inr ⟨_, rfl⟩⟩
    · exact ⟨rfl, _, hret, .inl rfl⟩

/-- A compiled program is made for the origins that the tokens of its text trace. -/
theorem traced_of_compile {source : String} {asked : Option String} {p : Program} (h : compile source asked = .ok p) :
    ∃ ts eof lexicon origins, lex source = .ok (ts ++ [eof], lexicon) ∧ Grammar.TracesProgram ts origins ∧
      p.Traced origins := by
  obtain ⟨ts, eof, lexicon, ds, depth, hlex, hs, -, -, hp⟩ := admissible_of_compile h
  obtain ⟨-, e, -, q, hq, rfl⟩ := Compiler.assembleAll_eq_ok.1 hp
  obtain ⟨origins, htraces, hmade⟩ := hs.traces (Compiler.addressIn ds)
  have hcode : q.instructions = Compiler.codeOf ds e := (Program.pushAll_eq_ok hq).2.1
  refine ⟨ts, eof, lexicon, origins, hlex, htraces, ?_, ?_, ?_⟩
  · change ∀ i ∈ q.instructions.take 2, _
    rw [hcode, Compiler.codeOf, List.take_left' (Compiler.length_header e)]
    exact fun i hi => Compiler.of_mem_header hi
  · change List.Forall₂ _ (q.instructions.drop 2) _
    rw [hcode, Compiler.codeOf, List.drop_left' (Compiler.length_header e)]
    exact hmade _
  · intro o ho t ht
    obtain ⟨before, rest, -, -, hline⟩ := place_of_lex hlex t (htraces.within o ho t ht)
    rw [hline]
    exact Nat.succ_pos _

/-! ## Runs -/

/-- Where a run of a compiled program ends there is a return that no line stands for, as in memory behind the program. -/
theorem blank_at_exit {ds : List Declaration} {depth : Nat} {asked : Option String} {p : Program}
    (ha : Grammar.Admissible ds depth) (hp : Compiler.assembleAll ds asked = .ok p) :
    p.instructions[Declaration.exitIn ds]? = some .blank := by
  obtain ⟨-, hreturn, hentry⟩ := loaded_of_assembleAll ha hp
  unfold Declaration.exitIn
  split
  · rename_i hnil
    cases he : Declaration.entryIn ds asked with
    | some name =>
      rw [he, hnil] at hentry
      nomatch hentry.1
    | none =>
      rw [he] at hentry
      exact hentry
  · exact hreturn

namespace Machine

variable {source : String} {asked : Option String} {p : Program} {w : World} {limits : Limits} {n : Nat}

/-- A machine that runs a compiled program and has not faulted is at an instruction of the program, and if it has halted at one that
no line stands for. This does not depend on the limits: as long as the machine has not faulted, it is where it would be with room
for more conditions. -/
theorem inside_of_compile (h : compile source asked = .ok p) (hfault : ((start p w limits).after n).fault = none) :
    ((start p w limits).after n).pc < p.size ∧ (((start p w limits).after n).halted = true →
      p.instructions[((start p w limits).after n).pc]? = some .blank) := by
  obtain ⟨ts, eof, lexicon, ds, depth, -, -, ha, -, hp⟩ := admissible_of_compile h
  let larger : Limits := { limits with conditions := max limits.conditions 64 }
  have hle : limits ≤ larger := ⟨Nat.le_refl _, Nat.le_refl _, Nat.le_max_left _ _⟩
  have hsteady : (start p w limits).Steady limits := .start
  have hafter : (start p w larger).after n = ((start p w limits).after n).refit p larger := by
    refine (after_refit hsteady hle (fun _ => rfl) ?_).1
    intro k hk f hf _
    rw [hsteady.fault_of_after hk hf] at hfault
    nomatch hfault
  have hsafe := Safe.of_assembleAll ha hp w (show 64 ≤ larger.conditions from Nat.le_max_right _ _) n
  rw [hafter] at hsafe
  refine ⟨hsafe.inside, fun hhalted => ?_⟩
  have hexit : ((start p w limits).after n).pc = Declaration.exitIn ds := (hsafe.exits hhalted).2.2.2
  rw [hexit, blank_at_exit ha hp]

/-- A step of a run of a compiled program is the instruction at its address, and pauses as this says. -/
theorem instruction_of_step (h : compile source asked = .ok p) {s : Step}
    (hs : ((start p w limits).after n).step.1 = .ok s) :
    p.instructions[s.address]? = some s.instruction ∧ s.pause = s.instruction.pauses := by
  have hsteady : ((start p w limits).after n).Steady limits := Steady.start.after n
  have hinside (hfault : ((start p w limits).after n).fault = none) := inside_of_compile h hfault
  have hprogram : ((start p w limits).after n).program = p := after_program _ n
  generalize (start p w limits).after n = m at *
  have htransition := step_transition hsteady.pc_lt hsteady.room
  generalize m.step = result at htransition hs
  cases htransition with
  | halted hf hh =>
    obtain rfl := Except.ok.inj hs
    have hblank : Instruction.blank.pauses = false := by decide
    exact ⟨(hinside hf).2 hh, hblank.symm⟩
  | done hf hh hi =>
    obtain rfl := Except.ok.inj hs
    rw [hprogram] at hi
    exact ⟨Program.instructions_of_get? hi (hinside hf).1, rfl⟩
  | faulted | outside | refused | illegal => nomatch hs

end Machine

/-- The lines of compiled code, and the pauses of its runs. The instructions behind the first two are made one by one for the
origins that the tokens of the text trace, and have their lines. An instruction has line 0 exactly if it is one of the first two or
a jump. So a step of a run, which performs the instruction at its address, pauses exactly if it is an action, or a call, a return,
the beginning or the end of a loop or a jump on a test behind the first two instructions. At the first two it does not pause. -/
theorem compiled_lines_and_pauses {source : String} {asked : Option String} {p : Program}
    (h : compile source asked = .ok p) :
    ∃ ts eof lexicon origins, lex source = .ok (ts ++ [eof], lexicon) ∧
      (∀ t ∈ ts, t.line = (Location.ofOffset source.toList t.position).line) ∧
      Grammar.TracesProgram ts origins ∧ List.Forall₂ Instruction.MadeFor (p.instructions.drop 2) origins ∧
      (∀ a i, p.instructions[a]? = some i →
        (i.line = 0 ↔ a < 2 ∨ ∃ target, i.decode = some (.jump target))) ∧
      ∀ w limits n s, ((Machine.start p w limits).after n).step.1 = .ok s →
        p.instructions[s.address]? = some s.instruction ∧
        (s.pause = true ↔ ∃ op, s.instruction.decode = some op ∧ op.PausesAt s.address) ∧
        (s.address < 2 → s.pause = false) := by
  obtain ⟨ts, eof, lexicon, origins, hlex, htraces, htraced⟩ := traced_of_compile h
  refine ⟨ts, eof, lexicon, origins, hlex, line_of_lex hlex, htraces, htraced.rest, ?_, ?_⟩
  · exact fun a i hi => htraced.line_eq_zero_iff hi
  · intro w limits n s hs
    obtain ⟨hi, hpause⟩ := Machine.instruction_of_step h hs
    rw [hpause]
    exact ⟨hi, htraced.pauses_iff hi, htraced.not_pauses_of_lt hi⟩

/-- A command over five lines, in which a conditional with two tests is repeated. -/
theorem compiled_lines_and_pauses_of_branches :
    ∃ source p,
      source = "void main()\n\x7b repeat (2) \x7b if (onBeeper()) \x7b\x7d\nelse if (!onBeeper())\n\x7b turnLeft(); \x7d \x7d\n\x7d" ∧
      compile source none = .ok p ∧ p.instructions.map (·.line) = [0, 0, 2, 2, 2, 0, 3, 3, 3, 4, 4, 5] ∧
      (∀ a i, p.instructions[a]? = some i → (i.line = 0 ↔ a < 2 ∨ ∃ target, i.decode = some (.jump target))) ∧
      ∀ w limits n s, ((Machine.start p w limits).after n).step.1 = .ok s →
        (s.pause = true ↔ ∃ op, s.instruction.decode = some op ∧ op.PausesAt s.address) := by
  have hok :
      (compile "void main()\n\x7b repeat (2) \x7b if (onBeeper()) \x7b\x7d\nelse if (!onBeeper())\n\x7b turnLeft(); \x7d \x7d\n\x7d"
        none).toOption.map (fun p => p.instructions.map (·.line)) = some [0, 0, 2, 2, 2, 0, 3, 3, 3, 4, 4, 5] := by
    decide +kernel
  obtain ⟨p, hp, hlines⟩ := exists_of_toOption_map hok
  obtain ⟨_, _, _, _, -, -, -, -, hzero, hpause⟩ := compiled_lines_and_pauses hp
  exact ⟨_, p, rfl, hp, hlines, hzero, fun w limits n s hs => (hpause w limits n s hs).2.1⟩

end GridRobot

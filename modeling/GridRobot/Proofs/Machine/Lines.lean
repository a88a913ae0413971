import GridRobot.Proofs.Assembler.Reassembly
import GridRobot.Proofs.Machine.Lockstep

/-!
# Lines do not matter to a run

The lines of the instructions are for the one who watches a run. Two programs whose memories have the same words run in lockstep
(`lockstep_of_sameWords`); so do a compiled program and the programs that are assembled from its disassembly and from its listing,
which have other lines, another entry and no commands.
-/

namespace GridRobot

namespace Program

variable {p q : Program}

/-- Programs that are blank behind their instructions have the same words if their instructions do. -/
theorem sameWords_of_instructions (hp : p.Padded) (hq : q.Padded)
    (h : q.instructions.map (·.word) = p.instructions.map (·.word)) : p.SameWords q := by
  have hsize : q.size = p.size := by
    have := congrArg List.length h
    rwa [List.length_map, List.length_map, length_instructions, length_instructions] at this
  intro a
  rcases Nat.lt_or_ge a p.size with hlt | hge
  · have hi : a < p.instructions.length := by rwa [length_instructions]
    have hj : a < q.instructions.length := by rwa [length_instructions, hsize]
    have hword := congrArg (·[a]?) h
    simp only [List.getElem?_map] at hword
    rw [get?_eq_of_instructions (List.getElem?_eq_getElem hi), get?_eq_of_instructions (List.getElem?_eq_getElem hj),
      ← List.getElem?_eq_getElem hi, ← List.getElem?_eq_getElem hj, hword]
  · rcases Nat.lt_or_ge a memorySize with hin | hout
    · obtain ⟨i, hi⟩ := Machine.exists_get? (p := p) hin
      obtain ⟨j, hj⟩ := Machine.exists_get? (p := q) hin
      rw [hi, hj, hp a i hge hi, hq a j (hsize ▸ hge) hj]
    · have hnone : ∀ r : Program, r.get? a = none := fun r => Vector.getElem?_eq_none hout
      rw [hnone, hnone]

end Program

/-- A compiled program is blank behind its instructions. -/
theorem padded_of_compile {source : String} {asked : Option String} {p : Program} (h : compile source asked = .ok p) :
    p.Padded := by
  obtain ⟨ds, -, ha⟩ := compile_eq_ok.1 h
  obtain ⟨-, e, -, q, hq, rfl⟩ := Compiler.assembleAll_eq_ok.1 ha
  have hpadded : q.Padded := Program.padded_empty.pushAll hq
  exact hpadded

namespace Assembler

/-- Lines put their instructions behind each other and leave memory blank behind them. -/
theorem padded_of_assembleLines {lines : List (List Char)} {p q : Program} {number start : Nat} (hp : p.Padded)
    (h : assembleLines p number start lines = .ok q) : q.Padded := by
  induction lines generalizing p number start with
  | nil =>
    obtain rfl := Except.ok.inj h
    exact hp
  | cons line rest ih =>
    rcases lineStep p number start line with ⟨-, hlines⟩ | ⟨-, hlines⟩ | ⟨-, hpush, hlines⟩
    · rw [hlines] at h
      nomatch h
    · rw [hlines] at h
      exact ih hp h
    · rw [hlines] at h
      exact ih (hp.push hpush) h

end Assembler

/-- An assembled program is blank behind its instructions. -/
theorem padded_of_assemble {source : String} {p : Program} (h : assemble source = .ok p) : p.Padded :=
  Assembler.padded_of_assembleLines Program.padded_empty h

namespace Machine

/-- Programs of the same words run in lockstep. -/
theorem lockstep_of_sameWords {p q : Program} (h : p.SameWords q) (w : World) (limits : Limits) :
    (start p w limits).Lockstep (start q w limits) := by
  intro n
  have hsame : limits ≤ limits := ⟨Nat.le_refl _, Nat.le_refl _, Nat.le_refl _⟩
  have hrun := fun n => after_refit (n := n) (.start : (start p w limits).Steady limits) hsame h fun _ _ _ _ _ => rfl
  simp only [start_refit] at hrun
  exact ⟨(hrun n).1 ▸ sameState_refit, ((hrun (n + 1)).2 n (Nat.lt_succ_self n)).1⟩

/-- Lines do not influence a run. Two programs whose memories have the same words, on whatever lines, with whatever entries and
commands, go through the same states in every world and within all limits, and their steps have the same outcomes but for the line
of the instruction and for the pause. A compiled program has the same words as the programs that its disassembly and its listing
assemble to, so these run like it. -/
theorem lines_without_influence :
    (∀ p q : Program, p.SameWords q → ∀ w limits, (start p w limits).Lockstep (start q w limits)) ∧
      ∀ source asked p, compile source asked = .ok p →
        ∃ q r, assemble p.disassembly = .ok q ∧ assemble p.listing = .ok r ∧ ∀ w limits,
          (start p w limits).Lockstep (start q w limits) ∧ (start p w limits).Lockstep (start r w limits) := by
  refine ⟨fun p q h => lockstep_of_sameWords h, ?_⟩
  intro source asked p hp
  have hfine := fine_of_compile hp
  have hpadded := padded_of_compile hp
  have hwords : ∀ n, (p.instructions.mapIdx fun k i => (⟨i.word, k + n⟩ : Instruction)).map (·.word) =
      p.instructions.map (·.word) := fun n => List.ext_getElem (by simp) (by simp)
  obtain ⟨q, hq, hqi, -⟩ := p.writes_disassembly.assembles p.length_instructions_le hfine
  obtain ⟨r, hr, hri, -⟩ := p.writes_listing.assembles p.length_instructions_le hfine
  have hpq := Program.sameWords_of_instructions hpadded (padded_of_assemble hq) (by rw [hqi, hwords])
  have hpr := Program.sameWords_of_instructions hpadded (padded_of_assemble hr) (by rw [hri, hwords])
  exact ⟨q, r, hq, hr, fun w limits => ⟨lockstep_of_sameWords hpq w limits, lockstep_of_sameWords hpr w limits⟩⟩

/-- A repeat count that a line stands for, at which a run pauses, and one that none stands for; and a loop that is compiled. -/
theorem lines_without_influence_of_loop :
    (∃ p q : Program, p = Program.empty.replace 0 ⟨0x8002, 5⟩ ∧ q = Program.empty.replace 0 ⟨0x8002, 0⟩ ∧ p.SameWords q ∧
      (start p World.empty .standard).Lockstep (start q World.empty .standard)) ∧
    ∃ source p q, source = "void main() \x7b\n  while (frontIsClear())\n    \x7b moveForward(); \x7d\n\x7d" ∧
      compile source none = .ok p ∧ assemble p.listing = .ok q ∧
      (start p World.empty .standard).Lockstep (start q World.empty .standard) := by
  obtain ⟨hlockstep, hassembled⟩ := lines_without_influence
  have hwords : (Program.empty.replace 0 ⟨0x8002, 5⟩).SameWords (Program.empty.replace 0 ⟨0x8002, 0⟩) := by
    intro a
    by_cases ha : a = 0
    · subst ha
      simp [Program.get?, Program.replace]
    · simp [Program.get?, Program.replace, Vector.getElem?_setIfInBounds_ne, Ne.symm ha]
  refine ⟨⟨_, _, rfl, rfl, hwords, hlockstep _ _ hwords _ _⟩, ?_⟩
  have hok : (compile "void main() \x7b\n  while (frontIsClear())\n    \x7b moveForward(); \x7d\n\x7d" none).isOk = true := by
    decide +kernel
  obtain ⟨p, hp⟩ := exists_of_isOk hok
  obtain ⟨_, q, -, hq, hruns⟩ := hassembled _ _ p hp
  exact ⟨_, p, q, rfl, hp, hq, (hruns _ _).2⟩

end Machine

end GridRobot

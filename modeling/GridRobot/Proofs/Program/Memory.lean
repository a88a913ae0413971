import GridRobot.Program
import GridRobot.Proofs.Results

/-!
# Instructions in memory

Instructions are put behind each other, and found again at their addresses. `Holds p a is` says that a program has instructions
from an address on; the code of a compound lies where its parts lie.
-/

namespace GridRobot

namespace Program

/-- The size of a program is the number of instructions that were put there. -/
theorem length_instructions (p : Program) : p.instructions.length = p.size := by
  have := p.size_le
  simp only [instructions, List.length_take, Vector.length_toList]
  omega

theorem instructions_empty : empty.instructions = [] := rfl

/-- An instruction that was put into memory is found at its address. -/
theorem get?_eq_of_instructions {p : Program} {a : Nat} {i : Instruction} (h : p.instructions[a]? = some i) :
    p.get? a = some i := by
  unfold instructions at h
  rw [List.getElem?_take] at h
  split at h
  · rw [get?, ← Vector.getElem?_toList]
    exact h
  · nomatch h

/-- What is found at an address in front of the end of the program was put there. -/
theorem instructions_of_get? {p : Program} {a : Nat} {i : Instruction} (h : p.get? a = some i) (ha : a < p.size) :
    p.instructions[a]? = some i := by
  rw [instructions, List.getElem?_take, if_pos ha, Vector.getElem?_toList]
  exact h

/-- An instruction that was put into memory is at an address in front of the end of the program. -/
theorem lt_size_of_instructions {p : Program} {a : Nat} {i : Instruction} (h : p.instructions[a]? = some i) :
    a < p.size := by
  rw [← p.length_instructions]
  exact (List.getElem?_eq_some_iff.1 h).1

/-! ## Putting instructions into memory -/

/-- An instruction is put behind the others, at the address that was the size; the entry and the commands stay. -/
theorem push_eq_ok {p q : Program} {i : Instruction} {a : Nat} (h : p.push i = .ok (a, q)) :
    a = p.size ∧ q.size = p.size + 1 ∧ q.instructions = p.instructions ++ [i] ∧ q.entry = p.entry ∧
      q.commands = p.commands := by
  unfold push at h
  split at h
  · rename_i hlt
    obtain ⟨rfl, rfl⟩ := Prod.mk.inj (Except.ok.inj h)
    refine ⟨rfl, rfl, ?_, rfl, rfl⟩
    have hl : p.size < p.memory.toList.length := by rwa [Vector.length_toList]
    simp only [instructions, Vector.toList_set]
    rw [List.take_add_one, List.take_set_of_le (Nat.le_refl _), List.getElem?_set_self hl, Option.toList_some]
  · nomatch h

/-- Instructions are put behind the others in their order; the entry and the commands stay. -/
theorem pushAll_eq_ok {p q : Program} {is : List Instruction} (h : p.pushAll is = .ok q) :
    q.size = p.size + is.length ∧ q.instructions = p.instructions ++ is ∧ q.entry = p.entry ∧
      q.commands = p.commands := by
  induction is generalizing p with
  | nil =>
    obtain rfl := Except.ok.inj h
    simp
  | cons i rest ih =>
    unfold pushAll at h
    cases hp : p.push i with
    | error e =>
      rw [hp] at h
      nomatch h
    | ok x =>
      obtain ⟨a, p'⟩ := x
      rw [hp] at h
      obtain ⟨_, hs, hi, he, hc⟩ := push_eq_ok hp
      obtain ⟨hs', hi', he', hc'⟩ := ih h
      refine ⟨?_, ?_, he'.trans he, hc'.trans hc⟩
      · rw [hs', hs, List.length_cons]
        omega
      · rw [hi', hi, List.append_assoc, List.singleton_append]

/-- Only memory can run out. -/
theorem push_eq_error {p : Program} {i : Instruction} {e : SourceError} (h : p.push i = .error e) :
    e = ⟨.programTooLong, 0⟩ := by
  unfold push at h
  split at h
  · nomatch h
  · exact (Except.error.inj h).symm

theorem pushAll_cons (p : Program) (i : Instruction) (is : List Instruction) :
    p.pushAll (i :: is) = p.push i >>= fun pushed => pushed.2.pushAll is := rfl

/-- Instructions are put into memory one after the other. -/
theorem pushAll_append (p : Program) (is js : List Instruction) :
    p.pushAll (is ++ js) = p.pushAll is >>= fun q => q.pushAll js := by
  induction is generalizing p with
  | nil => rfl
  | cons i rest ih =>
    rw [List.cons_append, pushAll_cons, pushAll_cons]
    cases p.push i with
    | error e => rfl
    | ok pushed => exact ih pushed.2

/-- There is room for an instruction as long as memory is not full. -/
theorem exists_push {p : Program} (h : p.size < memorySize) (i : Instruction) : ∃ q, p.push i = .ok (p.size, q) := by
  unfold push
  rw [dif_pos h]
  exact ⟨_, rfl⟩

/-- Instructions that fit into memory can be put there. -/
theorem exists_pushAll {p : Program} {is : List Instruction} (h : p.size + is.length ≤ memorySize) :
    ∃ q, p.pushAll is = .ok q := by
  induction is generalizing p with
  | nil => exact ⟨p, rfl⟩
  | cons i rest ih =>
    rw [List.length_cons] at h
    obtain ⟨q, hq⟩ := exists_push (p := p) (by omega) i
    obtain ⟨-, hsize, -⟩ := push_eq_ok hq
    unfold pushAll
    rw [hq]
    exact ih (by omega)

/-! ## Memory behind the instructions -/

/-- Behind the instructions that were put there, memory is blank. -/
def Padded (p : Program) : Prop := ∀ a i, p.size ≤ a → p.get? a = some i → i = .blank

/-- A program without instructions is blank everywhere. -/
theorem padded_empty : empty.Padded := by
  intro a i _ h
  rw [get?, empty, Vector.getElem?_replicate] at h
  split at h
  · exact (Option.some.inj h).symm
  · nomatch h

/-- Putting an instruction behind the others leaves what is behind it blank. -/
theorem Padded.push {p q : Program} {i : Instruction} {a : Nat} (hp : p.Padded) (h : p.push i = .ok (a, q)) :
    q.Padded := by
  unfold Program.push at h
  split at h
  · obtain ⟨-, rfl⟩ := Prod.mk.inj (Except.ok.inj h)
    intro b j hb hj
    have hne : p.size ≠ b := Nat.ne_of_lt hb
    rw [get?, Vector.getElem?_set_ne _ hne] at hj
    exact hp b j (Nat.le_of_succ_le hb) hj
  · nomatch h

theorem Padded.pushAll {p q : Program} {is : List Instruction} (hp : p.Padded) (h : p.pushAll is = .ok q) :
    q.Padded := by
  induction is generalizing p with
  | nil =>
    obtain rfl := Except.ok.inj h
    exact hp
  | cons i rest ih =>
    unfold Program.pushAll at h
    cases hpush : p.push i with
    | error e =>
      rw [hpush] at h
      nomatch h
    | ok r =>
      rw [hpush] at h
      exact ih (hp.push hpush) h

/-! ## Replacing an instruction -/

/-- Replacing an instruction is at one address. -/
theorem get?_replace {p : Program} {a : Nat} (ha : a < memorySize) (i : Instruction) (b : Nat) :
    (p.replace a i).get? b = if b = a then some i else p.get? b := by
  by_cases hb : b = a
  · subst hb
    simp [get?, replace, ha]
  · simp [get?, replace, hb, Ne.symm hb]

/-- An instruction is put behind the others whichever of them is replaced. -/
theorem push_replace {p q : Program} {j : Instruction} {a b : Nat} (ha : a < p.size) (i : Instruction)
    (h : p.push j = .ok (b, q)) : (p.replace a i).push j = .ok (b, q.replace a i) := by
  unfold push at h ⊢
  split at h
  · rename_i hsize
    obtain ⟨rfl, rfl⟩ := Prod.mk.inj (Except.ok.inj h)
    have hcomm : (p.memory.setIfInBounds a i).set p.size j = (p.memory.set p.size j).setIfInBounds a i := by
      ext k hk
      simp only [Vector.getElem_set, Vector.getElem_setIfInBounds]
      grind
    rw [dif_pos (show (p.replace a i).size < memorySize from hsize)]
    simp [replace, hcomm]
  · nomatch h

/-- The instruction that was put into memory last may as well be replaced. -/
theorem push_other {p q : Program} {i : Instruction} {a : Nat} (h : p.push i = .ok (a, q)) (j : Instruction) :
    p.push j = .ok (a, q.replace a j) := by
  unfold push at h ⊢
  split at h
  · rename_i hsize
    obtain ⟨rfl, rfl⟩ := Prod.mk.inj (Except.ok.inj h)
    have hset : (p.memory.set p.size i).setIfInBounds p.size j = p.memory.set p.size j := by
      ext k hk
      simp only [Vector.getElem_set, Vector.getElem_setIfInBounds]
      grind
    rw [dif_pos hsize]
    simp [replace, hset]
  · nomatch h

/-- What is put behind the instructions of a program does not depend on which of them is replaced. -/
theorem pushAll_replace {p q : Program} {is : List Instruction} {a : Nat} (ha : a < p.size) (i : Instruction)
    (h : p.pushAll is = .ok q) : (p.replace a i).pushAll is = .ok (q.replace a i) := by
  induction is generalizing p with
  | nil =>
    obtain rfl := Except.ok.inj h
    rfl
  | cons j rest ih =>
    unfold pushAll at h ⊢
    cases hp : p.push j with
    | error e =>
      rw [hp] at h
      nomatch h
    | ok x =>
      obtain ⟨b, p'⟩ := x
      rw [hp] at h
      obtain ⟨-, hsize, -⟩ := push_eq_ok hp
      rw [push_replace ha i hp]
      exact ih (by omega) h

/-- Of instructions that were put behind each other, any one may be replaced. -/
theorem pushAll_exchange {p q : Program} (before : List Instruction) {after : List Instruction} {i : Instruction}
    (h : p.pushAll (before ++ i :: after) = .ok q) (j : Instruction) :
    p.pushAll (before ++ j :: after) = .ok (q.replace (p.size + before.length) j) := by
  rw [pushAll_append] at h ⊢
  obtain ⟨mid, hbefore, h⟩ := bind_eq_ok.1 h
  obtain ⟨⟨a, next⟩, hi, hafter⟩ := bind_eq_ok.1 h
  obtain ⟨rfl, hnext, -⟩ := push_eq_ok hi
  have hmid : mid.size = p.size + before.length := (pushAll_eq_ok hbefore).1
  refine bind_eq_ok.2 ⟨mid, hbefore, bind_eq_ok.2 ⟨_, push_other hi j, ?_⟩⟩
  rw [← hmid]
  exact pushAll_replace (by omega) j hafter

/-! ## Where instructions lie -/

/-- The program has instructions from an address on. -/
def Holds (p : Program) (a : Nat) (is : List Instruction) : Prop := is <+: p.instructions.drop a

/-- Code in two parts lies where its parts lie, the second behind the first. -/
theorem Holds.append {p : Program} {a : Nat} {is js : List Instruction} (h : p.Holds a (is ++ js)) :
    p.Holds a is ∧ p.Holds (a + is.length) js := by
  obtain ⟨rest, h⟩ := h
  refine ⟨⟨js ++ rest, by rw [← h, List.append_assoc]⟩, ⟨rest, ?_⟩⟩
  rw [← List.drop_drop, ← h, List.append_assoc, List.drop_left]

/-- Code lies where its first instruction does, with the rest behind it. -/
theorem Holds.cons {p : Program} {a : Nat} {i : Instruction} {is : List Instruction} (h : p.Holds a (i :: is)) :
    p.instructions[a]? = some i ∧ p.Holds (a + 1) is := by
  have h' : p.Holds a ([i] ++ is) := h
  refine ⟨?_, h'.append.2⟩
  obtain ⟨rest, h⟩ := h
  have := congrArg (·[0]?) h
  simpa using this.symm

theorem Holds.one {p : Program} {a : Nat} {i : Instruction} (h : p.instructions[a]? = some i) : p.Holds a [i] := by
  obtain ⟨hlt, rfl⟩ := List.getElem?_eq_some_iff.1 h
  exact ⟨p.instructions.drop (a + 1), (List.drop_eq_getElem_cons hlt).symm⟩

/-- What instructions in memory are made of lies behind what is in front of it. -/
theorem Holds.of_append {p : Program} {before is after : List Instruction} (h : p.instructions = before ++ is ++ after) :
    p.Holds before.length is :=
  ⟨after, by rw [h, List.append_assoc, List.drop_left]⟩

end Program

end GridRobot

import GridRobot.Proofs.Language.Preservation
import GridRobot.Proofs.Language.Refusal
import GridRobot.Proofs.Machine.Batch

/-!
# The code of conditions

From wherever the machine is, the code of a condition puts its value on the condition stack and changes nothing else. On the way
the stack grows by as much as the condition is said to need, and by no more (`Condition.climbs`). In a compiled program this is so
of every test, and a text is refused only for a test that needs more than an empty stack has room for (`conditions_worked_out`).
-/

namespace GridRobot

open Machine

/-! ## How high the condition stack grows -/

/-- Whether an operation senses or works conditions out. -/
def Opcode.logical : Opcode → Bool
  | sense _ | not | and | or => true
  | _ => false

/-- Such an operation has no operand and is not paused behind. -/
theorem Opcode.pauses_of_logical {op : Opcode} (h : op.logical = true) (line : Nat) :
    op.operand? = none ∧ (Instruction.of op line).pauses = false := by
  have hnone : op.operand? = none := by cases op <;> first | rfl | nomatch h
  have hd : (Instruction.of op line).decode = some op := Opcode.decode_encode (Opcode.fits_of_none hnone)
  refine ⟨hnone, ?_⟩
  rw [Instruction.pauses, hd]
  cases op <;> first | rfl | nomatch h

namespace Machine

/-- An operation that is performed takes a step that reports it. -/
theorem step_eq_of_perform {m m' : Machine} {op : Opcode} {line next : Nat} (ha : m.halted = false)
    (hs : m.fault = none) (hi : m.program.instructions[m.pc]? = some (.of op line)) (hfit : op.Fits)
    (hp : m.perform m.pc op = (m', .ok next)) (hn : next < memorySize) :
    m.step = (.ok ({ m' with pc := next }.report m.pc (.of op line) (Instruction.of op line).pauses),
      { m' with pc := next }) := by
  have hd : (Instruction.of op line).decode = some op := Opcode.decode_encode hfit
  simp [step, hs, ha, Program.get?_eq_of_instructions hi, retire, hd, hp, hn]

/-- So many steps lead from one machine to another, none of which faults, halts or pauses, and on the way there are at most, and once
exactly, so many conditions on the stack. -/
structure Climbs (n : Nat) (m m' : Machine) (peak : Nat) : Prop where
  arrives : m.after n = m'
  quiet : ∀ k < n, Event.ofStep? (m.after k).step.1 = none
  below : ∀ k ≤ n, (m.after k).conditions.size ≤ peak
  reached : ∃ k ≤ n, (m.after k).conditions.size = peak

namespace Climbs

/-- A step that is neither an event nor refused climbs to the larger of the two sizes of the condition stack. -/
theorem one {m m' : Machine} {s : Step} (h : m.step = (.ok s, m')) (hs : Event.ofStep? (.ok s) = none) :
    Climbs 1 m m' (max m.conditions.size m'.conditions.size) := by
  have hafter : m.after 1 = m' := congrArg Prod.snd h
  refine ⟨hafter, ?_, ?_, ?_⟩
  · intro k hk
    obtain rfl := Nat.lt_one_iff.1 hk
    rw [after, h]
    exact hs
  · intro k hk
    rcases Nat.le_one_iff_eq_zero_or_eq_one.1 hk with rfl | rfl
    · exact Nat.le_max_left _ _
    · rw [hafter]
      exact Nat.le_max_right _ _
  · rcases Nat.le_total m'.conditions.size m.conditions.size with hle | hle
    · exact ⟨0, Nat.zero_le _, (Nat.max_eq_left hle).symm⟩
    · exact ⟨1, Nat.le_refl _, by rw [hafter, Nat.max_eq_right hle]⟩

/-- One way behind the other goes as high as the higher of the two. -/
theorem trans {n k p q : Nat} {m m' m'' : Machine} (h : Climbs n m m' p) (h' : Climbs k m' m'' q) :
    Climbs (n + k) m m'' (max p q) := by
  obtain ⟨rfl, hquiet, hbelow, hreached⟩ := h
  obtain ⟨rfl, hquiet', hbelow', hreached'⟩ := h'
  refine ⟨after_add m n k, ?_, ?_, ?_⟩
  · intro i hi
    rcases Nat.lt_or_ge i n with hlt | hge
    · exact hquiet i hlt
    · obtain ⟨d, rfl⟩ := Nat.exists_eq_add_of_le hge
      rw [after_add]
      exact hquiet' d (by omega)
  · intro i hi
    rcases Nat.le_total i n with hle | hge
    · exact Nat.le_trans (hbelow i hle) (Nat.le_max_left _ _)
    · obtain ⟨d, rfl⟩ := Nat.exists_eq_add_of_le hge
      rw [after_add]
      exact Nat.le_trans (hbelow' d (by omega)) (Nat.le_max_right _ _)
  · rcases Nat.le_total q p with hle | hle
    · obtain ⟨i, hi, hsize⟩ := hreached
      exact ⟨i, Nat.le_add_right_of_le hi, by rw [hsize, Nat.max_eq_left hle]⟩
    · obtain ⟨i, hi, hsize⟩ := hreached'
      exact ⟨n + i, Nat.add_le_add_left hi n, by rw [after_add, hsize, Nat.max_eq_right hle]⟩

end Climbs

/-- The machine at another address, with other conditions on the stack. -/
def holding (m : Machine) (pc : Nat) (bs : List Bool) : Machine :=
  { m with pc := pc, conditions := { m.conditions with items := bs } }

variable {m : Machine} {op : Opcode} {line peak : Nat} {bs : List Bool}

/-- Sensing and logic take a step without a pause. -/
theorem climbs_one (ha : m.halted = false) (hs : m.fault = none)
    (hi : m.program.instructions[m.pc]? = some (.of op line)) (hlogical : op.logical = true)
    (hp : m.perform m.pc op = (m.holding m.pc bs, .ok (m.pc + 1))) (hn : m.pc + 1 < memorySize)
    (hpeak : max m.conditions.size bs.length = peak) : Climbs 1 m (m.holding (m.pc + 1) bs) peak := by
  obtain ⟨hnone, hquiet⟩ := Opcode.pauses_of_logical hlogical line
  rw [← hpeak]
  refine .one (step_eq_of_perform ha hs hi (Opcode.fits_of_none hnone) hp hn) ?_
  change (if m.halted = true then _ else if (Instruction.of op line).pauses = true then _ else none) = _
  rw [ha, hquiet]
  rfl

/-- A sensor climbs by one result, which is what holds in the world. -/
theorem climbs_sense {sensor : Sensor} (ha : m.halted = false) (hs : m.fault = none)
    (hi : m.program.instructions[m.pc]? = some (.of (.sense sensor) line)) (hn : m.pc + 1 < memorySize)
    (hroom : m.conditions.size < m.conditions.limit) :
    Climbs 1 m (m.holding (m.pc + 1) (sensor.holds m.world :: m.conditions.items)) (m.conditions.size + 1) := by
  have hp : m.perform m.pc (.sense sensor) =
      (m.holding m.pc (sensor.holds m.world :: m.conditions.items), .ok (m.pc + 1)) := by
    simp [perform, pushCondition, continueWith, Stack.push, hroom, holding, sensor.read_eq_holds]
  exact climbs_one ha hs hi rfl hp hn (Nat.max_eq_right (Nat.le_succ _))

/-- A negation does not climb. -/
theorem climbs_not {b : Bool} (ha : m.halted = false) (hs : m.fault = none)
    (hi : m.program.instructions[m.pc]? = some (.of .not line)) (hn : m.pc + 1 < memorySize)
    (hitems : m.conditions.items = b :: bs) :
    Climbs 1 m (m.holding (m.pc + 1) ((!b) :: bs)) (bs.length + 1) := by
  have hp : m.perform m.pc .not = (m.holding m.pc ((!b) :: bs), .ok (m.pc + 1)) := by
    simp [perform, continueWith, Stack.modifyTop, hitems, holding]
  refine climbs_one ha hs hi rfl hp hn ?_
  rw [Stack.size, hitems]
  exact Nat.max_self _

/-- An operator takes the two topmost conditions, the left one from below the right one. -/
theorem climbs_combine {f : Bool → Bool → Bool} {x y : Bool} (ha : m.halted = false) (hs : m.fault = none)
    (hi : m.program.instructions[m.pc]? = some (.of op line)) (hn : m.pc + 1 < memorySize) (hlogical : op.logical = true)
    (hop : m.perform m.pc op = m.combine (m.pc + 1) f) (hitems : m.conditions.items = y :: x :: bs)
    (hroom : bs.length < m.conditions.limit) :
    Climbs 1 m (m.holding (m.pc + 1) (f x y :: bs)) (bs.length + 2) := by
  have hp : m.perform m.pc op = (m.holding m.pc (f x y :: bs), .ok (m.pc + 1)) := by
    rw [hop]
    simp [combine, Stack.pop₂, pushCondition, continueWith, Stack.push, Stack.size, hitems, hroom, holding]
  refine climbs_one ha hs hi hlogical hp hn ?_
  rw [Stack.size, hitems]
  exact Nat.max_eq_left (Nat.le_succ _)

end Machine

/-- The code of a condition puts its value on the condition stack if there is room for what it needs, and the stack grows by exactly
that on the way. -/
theorem Condition.climbs (c : Condition) {m : Machine} (ha : m.halted = false) (hs : m.fault = none)
    (hh : m.program.Holds m.pc c.code) (hn : m.pc + c.size < memorySize)
    (hroom : m.conditions.size + c.need ≤ m.conditions.limit) :
    m.Climbs c.size (m.holding (m.pc + c.size) (c.eval m.world :: m.conditions.items)) (m.conditions.size + c.need) := by
  induction c generalizing m with
  | sense s line => exact climbs_sense ha hs hh.cons.1 hn (Nat.lt_of_succ_le hroom)
  | not c line ih =>
    obtain ⟨hc, hop⟩ := hh.append
    rw [Condition.length_code] at hop
    have hinner := ih ha hs hc (Nat.lt_of_succ_lt hn) hroom
    have hlast := climbs_not (m := m.holding (m.pc + c.size) (c.eval m.world :: m.conditions.items)) ha hs hop.cons.1 hn rfl
    have hpeak : max (m.conditions.size + c.need) (m.conditions.items.length + 1) = m.conditions.size + c.need :=
      Nat.max_eq_left (Nat.add_le_add_left c.need_pos _)
    exact hpeak ▸ hinner.trans hlast
  | and left right line ihl ihr | or left right line ihl ihr =>
    obtain ⟨hcode, hop⟩ := hh.append
    obtain ⟨hl, hr⟩ := hcode.append
    rw [List.length_append, Condition.length_code, Condition.length_code, ← Nat.add_assoc] at hop
    rw [Condition.length_code] at hr
    simp only [Condition.size, Condition.need] at hn hroom ⊢
    have hpos := right.need_pos
    have hlength : m.conditions.items.length = m.conditions.size := rfl
    let x := left.eval m.world
    let y := right.eval m.world
    let m₁ := m.holding (m.pc + left.size) (x :: m.conditions.items)
    let m₂ := m.holding (m.pc + left.size + right.size) (y :: x :: m.conditions.items)
    have hsize : m₁.conditions.size = m.conditions.size + 1 := rfl
    have hlimit : m₁.conditions.limit = m.conditions.limit := rfl
    have hpc : m₁.pc = m.pc + left.size := rfl
    have hleft : m.Climbs left.size m₁ (m.conditions.size + left.need) := ihl ha hs hl (by omega) (by omega)
    have hright : m₁.Climbs right.size m₂ (m.conditions.size + 1 + right.need) := ihr ha hs hr (by omega) (by omega)
    have hlast := climbs_combine (m := m₂) ha hs hop.cons.1 (show m.pc + left.size + right.size + 1 < memorySize by omega)
      rfl rfl rfl (show m.conditions.items.length < m.conditions.limit by omega)
    have hall := (hleft.trans hright).trans hlast
    have hpeak : max (max (m.conditions.size + left.need) (m.conditions.size + 1 + right.need))
        (m.conditions.items.length + 2) = m.conditions.size + max left.need (right.need + 1) := by omega
    have hend : m.pc + (left.size + right.size + 1) = m.pc + left.size + right.size + 1 := by omega
    rw [hpeak] at hall
    rw [hend]
    exact hall

/-! ## Where tests lie -/

/-- The tests of a statement that begins at an address, each with the address that its code begins at. -/
def Statement.testsAt (start : Nat) : Statement → List (Condition × Nat)
  | nothing | act _ _ | call _ _ _ => []
  | andThen first rest => first.testsAt start ++ rest.testsAt (start + first.size)
  | ifThen test _ body | whileDo test _ body => (test, start) :: body.testsAt (start + test.size + 1)
  | ifElse test _ body otherwise =>
    (test, start) :: (body.testsAt (start + test.size + 1) ++
      otherwise.testsAt (start + test.size + 1 + body.size + 1))
  | repeatTimes _ _ body _ => body.testsAt (start + 1)

/-- No test is left out. -/
theorem Statement.map_testsAt (s : Statement) (start : Nat) : (s.testsAt start).map (·.1) = s.tests := by
  induction s generalizing start with
  | nothing | act | call => rfl
  | andThen first rest ih₁ ih₂ => rw [testsAt, List.map_append, ih₁, ih₂, tests]
  | ifThen test line body ih | whileDo test line body ih => rw [testsAt, List.map_cons, ih, tests]
  | ifElse test line body otherwise ih₁ ih₂ => rw [testsAt, List.map_cons, List.map_append, ih₁, ih₂, tests]
  | repeatTimes count line body closing ih => rw [testsAt, ih, tests]

/-- A test lies at an address in front of further instructions, and needs no more than the machine has. -/
structure TestAt (p : Program) (test : Condition) (a : Nat) : Prop where
  simple : test.need ≤ 64
  held : p.Holds a test.code
  inside : a + test.size < p.size

/-- A test in front of a jump is a test of the program. -/
theorem TestAt.of_guarded {p : Program} {test : Condition} {i : Instruction} {a : Nat} (hneed : test.need ≤ 64)
    (h : p.Holds a (test.code ++ [i])) : TestAt p test a := by
  obtain ⟨hcode, hjump⟩ := h.append
  rw [Condition.length_code] at hjump
  exact ⟨hneed, hcode, Program.lt_size_of_instructions hjump.cons.1⟩

/-- The tests of a statement lie where it says. -/
theorem Placed.testsAt {p : Program} {ds : List Declaration} {s : Statement} {a : Nat} (h : Placed p ds s a) :
    ∀ t ∈ s.testsAt a, TestAt p t.1 t.2 := by
  induction s generalizing a with
  | nothing | act | call => exact nofun
  | andThen first rest ih₁ ih₂ =>
    obtain ⟨h₁, h₂⟩ := h.andThen
    exact List.forall_mem_append.2 ⟨ih₁ h₁, ih₂ h₂⟩
  | ifThen test line body ih =>
    obtain ⟨htest, hneed, hbody⟩ := h.ifThen
    exact List.forall_mem_cons.2 ⟨.of_guarded hneed htest, ih hbody⟩
  | ifElse test line body otherwise ih₁ ih₂ =>
    obtain ⟨htest, hneed, hbody, -, hother⟩ := h.ifElse
    exact List.forall_mem_cons.2 ⟨.of_guarded hneed htest, List.forall_mem_append.2 ⟨ih₁ hbody, ih₂ hother⟩⟩
  | whileDo test line body ih =>
    obtain ⟨htest, hneed, hbody, -⟩ := h.whileDo
    exact List.forall_mem_cons.2 ⟨.of_guarded hneed htest, ih hbody⟩
  | repeatTimes count line body closing ih =>
    obtain ⟨-, -, hbody, -⟩ := h.repeatTimes
    exact ih hbody

/-- Of commands with different names, each is the one that has its name. -/
theorem Declaration.find?_of_nodup {ds : List Declaration} (h : (ds.map (·.name)).Nodup) {d : Declaration} (hd : d ∈ ds) :
    ds.find? (fun e => e.name == d.name) = some d := by
  induction ds with
  | nil => nomatch hd
  | cons first rest ih =>
    obtain ⟨hnew, hrest⟩ := List.nodup_cons.1 h
    rcases List.mem_cons.1 hd with rfl | hd
    · exact List.find?_cons_of_pos (beq_self_eq_true _)
    · have hne : first.name ≠ d.name := fun heq => hnew (List.mem_map.2 ⟨d, hd, heq.symm⟩)
      rw [List.find?_cons_of_neg (by simpa using hne)]
      exact ih hrest hd

/-- In a compiled program every test of every command has its place. -/
theorem testsAt_of_compile {source : String} {asked : Option String} {p : Program} (h : compile source asked = .ok p) :
    ∃ ds, parse source = .ok ds ∧ ∀ d ∈ ds, ∃ a, p.commands.lookup d.name = some a ∧
      ∀ t ∈ d.body.testsAt a, TestAt p t.1 t.2 := by
  obtain ⟨ts, eof, lexicon, ds, depth, -, -, ha, hparse, hp⟩ := admissible_of_compile h
  obtain ⟨hloaded, -, -⟩ := loaded_of_assembleAll ha hp
  obtain ⟨-, e, -, q, -, rfl⟩ := Compiler.assembleAll_eq_ok.1 hp
  refine ⟨ds, hparse, ?_⟩
  intro d hd
  have hname : d.name ∈ ds.map (·.name) := List.mem_map.2 ⟨d, hd, rfl⟩
  obtain ⟨closing, hplaced, -⟩ := hloaded.command hname
  obtain ⟨a, hlookup⟩ := Declaration.exists_lookup_layout Parser.headerSize hname
  rw [Declaration.bodyIn, Declaration.find?_of_nodup ha.distinct hd, (Compiler.addressIn_of_lookup hlookup).1] at hplaced
  exact ⟨a, hlookup, hplaced.testsAt⟩

/-! ## Conditions in compiled programs -/

/-- From an address of a program on, a condition is worked out: a machine that is there, can go on and has room for what the
condition needs gets behind its code with nothing changed but its value on the condition stack, which has grown on the way by exactly
what the condition needs. -/
def Condition.WorkedOut (c : Condition) (p : Program) (a : Nat) : Prop :=
  ∀ m : Machine, m.program = p → m.pc = a → m.halted = false → m.fault = none →
    m.conditions.size + c.need ≤ m.conditions.limit →
    m.Climbs c.size (m.holding (a + c.size) (c.eval m.world :: m.conditions.items)) (m.conditions.size + c.need)

/-- Every test of a program is worked out. -/
theorem TestAt.workedOut {p : Program} {test : Condition} {a : Nat} (h : TestAt p test a) : test.WorkedOut p a := by
  rintro m rfl rfl ha hs hroom
  exact test.climbs ha hs h.held (Nat.lt_of_lt_of_le h.inside m.program.size_le) hroom

/-- In a compiled program every test of every command is worked out where its code lies, and needs no more than 64 results pending.
A text is refused because a condition is too complex at the sensors with 64 results pending that nothing wrong is in front of. So a
program with nothing else wrong is refused this way exactly if one of its tests needs more than 64 results pending. -/
theorem conditions_worked_out (source : String) (asked : Option String) :
    (∀ p, compile source asked = .ok p → ∃ ds, parse source = .ok ds ∧
      ∀ d ∈ ds, ∃ a, p.commands.lookup d.name = some a ∧ (d.body.testsAt a).map (·.1) = d.body.tests ∧
      ∀ t ∈ d.body.testsAt a, t.1.need ≤ 64 ∧ p.Holds t.2 t.1.code ∧ t.1.WorkedOut p t.2) ∧
    (∀ position, compile source asked = .error ⟨.conditionTooComplex, position⟩ ↔
      ∃ before sensor after, (Scan.of source).tokens = before ++ sensor :: after ∧ sensor.kind = .identifier ∧
        (Sensor.ofName? sensor.text).isSome ∧ sensor.position = position ∧ Grammar.Pending 64 before) ∧
    ∀ ts eof lexicon ds depth, lex source = .ok (ts ++ [eof], lexicon) → Grammar.SpellsProgram ds ts depth →
      Grammar.Ordinary ds depth →
      ((∃ position, compile source asked = .error ⟨.conditionTooComplex, position⟩) ↔
        ∃ d ∈ ds, ∃ c ∈ d.body.tests, 64 < c.need) := by
  refine ⟨?_, refused_iff_pending source asked, fun _ _ _ _ _ hlex hs h => refused_iff_need asked hlex hs h⟩
  intro p hp
  obtain ⟨ds, hparse, hplaces⟩ := testsAt_of_compile hp
  refine ⟨ds, hparse, ?_⟩
  intro d hd
  obtain ⟨a, hlookup, htests⟩ := hplaces d hd
  refine ⟨a, hlookup, d.body.map_testsAt a, ?_⟩
  intro t ht
  have htest := htests t ht
  exact ⟨htest.simple, htest.held, htest.workedOut⟩

set_option maxRecDepth 100000 in
/-- A test that asks every sensor, in the corner of the floor and in front of a beeper: its ten instructions leave `true` on the stack,
and three results are pending on the way. -/
theorem conditions_worked_out_of_nested :
    ∃ source p a w ts eof lexicon ds depth,
      source = "void main() { if (frontIsClear() && beeperAhead() && rightIsClear() && !(leftIsClear() || onBeeper())) {} }" ∧
      w = { World.empty with beepers := World.empty.beepers.set ⟨1, 0⟩ true } ∧
      compile source none = .ok p ∧
      ({ Machine.start p w .standard with pc := a }).Climbs 10
        (({ Machine.start p w .standard with pc := a }).holding (a + 10) [true]) 3 ∧
      lex source = .ok (ts ++ [eof], lexicon) ∧ Grammar.SpellsProgram ds ts depth ∧ Grammar.Ordinary ds depth ∧
      ((∃ position, compile source none = .error ⟨.conditionTooComplex, position⟩) ↔
        ∃ d ∈ ds, ∃ c ∈ d.body.tests, 64 < c.need) := by
  let source := "void main() { if (frontIsClear() && beeperAhead() && rightIsClear() && !(leftIsClear() || onBeeper())) {} }"
  let test : Condition := .and (.and (.and (.sense .frontIsClear 1) (.sense .beeperAhead 1) 1) (.sense .rightIsClear 1) 1)
    (.not (.or (.sense .leftIsClear 1) (.sense .onBeeper 1) 1) 1) 1
  let w : World := { World.empty with beepers := World.empty.beepers.set ⟨1, 0⟩ true }
  have hread : (parse source).toOption.map (fun ds => ((Compiler.assembleAll ds none).isOk, ds.map (·.body.tests))) =
      some (true, [[test]]) := by decide +kernel
  have htrue : test.eval w = true := by decide
  obtain ⟨ds, hds, hread⟩ := exists_of_toOption_map hread
  obtain ⟨hok, htests⟩ := Prod.mk.inj hread
  obtain ⟨p, hp⟩ := exists_of_isOk hok
  have hcompile : compile source none = .ok p := bind_eq_ok.2 ⟨ds, hds, hp⟩
  obtain ⟨hworks, -, htight⟩ := conditions_worked_out source none
  obtain ⟨_, hparse, hplaces⟩ := hworks p hcompile
  obtain rfl := Except.ok.inj (hds.symm.trans hparse)
  obtain ⟨ts, eof, lexicon, ds', depth, hlex, hspells, hadmissible, -, -⟩ := admissible_of_compile hcompile
  obtain ⟨d, rest, rfl, hbody, -⟩ := List.map_eq_cons_iff.1 htests
  obtain ⟨a, -, hall, htestsAt⟩ := hplaces d List.mem_cons_self
  rw [hbody] at hall
  obtain ⟨⟨_, b⟩, more, hmore, rfl, -⟩ := List.map_eq_cons_iff.1 hall
  rw [hmore] at htestsAt
  obtain ⟨-, -, hworked⟩ := htestsAt _ List.mem_cons_self
  have hroom : 0 + 3 ≤ 64 := by decide
  have hclimbs := hworked { Machine.start p w .standard with pc := b } rfl rfl rfl rfl hroom
  exact ⟨source, p, b, w, ts, eof, lexicon, ds', depth, rfl, rfl, hcompile, htrue ▸ hclimbs, hlex, hspells,
    hadmissible.ordinary, htight ts eof lexicon ds' depth hlex hspells hadmissible.ordinary⟩

end GridRobot

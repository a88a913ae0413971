import GridRobot.Proofs.Assembler.Acceptable

/-!
# The shape of compiled code

The code of a command is a range of memory that only calls leave: it is left at its end, its jumps stay inside, and its loops are
nested and go back to where they were opened. The commands fill the memory behind the two words in front of them, in the order of
the text (`compiled_shape`). Jumps are made with the addresses of the parts around them, so the shape is proved part by part for a
range that is given from outside.
-/

namespace GridRobot

namespace Opcode

/-- The address that a call goes to. -/
def callTarget? : Opcode → Option Nat
  | call target => some target
  | _ => none

/-- Whether an operation begins or ends a loop. -/
def bounds : Opcode → Bool
  | push _ | loop _ => true
  | _ => false

/-- What may stand at an address of a command that begins at `start` and ends before `stop`: a return only as the last word, jumps to
addresses of the command and those on a condition only ahead, repeat counts that can be repeated, and none of the operations that
the language has no use for. -/
def Inside (start stop here : Nat) : Opcode → Prop
  | ret => here + 1 = stop
  | push count => 2 ≤ count ∧ count < operands
  | jump target => start ≤ target ∧ target < stop
  | jumpUnless target => here < target ∧ target < stop
  | xor | jumpIf _ => False
  | act _ | sense _ | not | and | or | loop _ | call _ => True

end Opcode

/-- Operations from an address on whose loops are nested: behind each repeat count that is put on the loop stack there is the one
operation that counts it down, and it goes back to there. -/
inductive Looped : Nat → List Opcode → Prop where
  | nil (a : Nat) : Looped a []
  | plain {a : Nat} {op : Opcode} {rest : List Opcode} : op.bounds = false → Looped (a + 1) rest → Looped a (op :: rest)
  | times {a : Nat} (count : Nat) {inner rest : List Opcode} : Looped (a + 1) inner → Looped (a + 1 + inner.length + 1) rest →
      Looped a (.push count :: (inner ++ .loop a :: rest))

namespace Looped

variable {a : Nat} {ops more : List Opcode}

theorem append (h : Looped a ops) (h' : Looped (a + ops.length) more) : Looped a (ops ++ more) := by
  induction h with
  | nil a => exact h'
  | @plain a op rest hplain _ ih =>
    refine .plain hplain (ih ?_)
    rwa [List.length_cons, ← Nat.add_assoc, Nat.add_right_comm] at h'
  | @times a count inner rest hinner _ _ ih =>
    have hlength : a + (Opcode.push count :: (inner ++ .loop a :: rest)).length =
        a + 1 + inner.length + 1 + rest.length := by
      simp only [List.length_cons, List.length_append]
      omega
    rw [hlength] at h'
    rw [List.cons_append, List.append_assoc, List.cons_append]
    exact .times count hinner (ih h')

/-- Counting down goes back to where the repeat count was put on the loop stack. -/
theorem goes_back (h : Looped a ops) {i target : Nat} (hi : ops[i]? = some (.loop target)) :
    ∃ j count, j < i ∧ target = a + j ∧ ops[j]? = some (.push count) := by
  induction h generalizing i with
  | nil a => nomatch hi
  | @plain a op rest hplain _ ih =>
    cases i with
    | zero =>
      obtain rfl : op = .loop target := Option.some.inj hi
      nomatch hplain
    | succ i =>
      obtain ⟨j, count, hj, rfl, hpush⟩ := ih hi
      exact ⟨j + 1, count, Nat.succ_lt_succ hj, by omega, hpush⟩
  | @times a count inner rest _ _ ihinner ihrest =>
    cases i with
    | zero => nomatch hi
    | succ i =>
      rw [List.getElem?_cons_succ] at hi
      rcases Nat.lt_trichotomy i inner.length with hlt | rfl | hgt
      · rw [List.getElem?_append_left hlt] at hi
        obtain ⟨j, count', hj, rfl, hpush⟩ := ihinner hi
        refine ⟨j + 1, count', Nat.succ_lt_succ hj, by omega, ?_⟩
        rw [List.getElem?_cons_succ, List.getElem?_append_left (Nat.lt_trans hj hlt), hpush]
      · rw [List.getElem?_append_right (Nat.le_refl _), Nat.sub_self] at hi
        obtain rfl : a = target := Opcode.loop.inj (Option.some.inj hi)
        exact ⟨0, count, Nat.succ_pos _, rfl, rfl⟩
      · obtain ⟨k, rfl⟩ := Nat.exists_eq_add_of_lt hgt
        have hi' : rest[k]? = some (.loop target) := by
          rw [List.getElem?_append_right (by omega), show inner.length + k + 1 - inner.length = k + 1 by omega] at hi
          exact hi
        obtain ⟨j, count', hj, rfl, hpush⟩ := ihrest hi'
        refine ⟨inner.length + j + 1 + 1, count', by omega, by omega, ?_⟩
        rw [List.getElem?_cons_succ, List.getElem?_append_right (by omega),
          show inner.length + j + 1 - inner.length = j + 1 by omega]
        exact hpush

end Looped

/-! ## Parts of a command -/

/-- Every operation from an address on may stand where it stands in a command. -/
def Confined (start stop a : Nat) (ops : List Opcode) : Prop :=
  ∀ (i : Nat) (op : Opcode), ops[i]? = some op → op.Inside start stop (a + i)

namespace Confined

variable {start stop a : Nat} {op : Opcode} {ops more : List Opcode}

theorem cons (h : op.Inside start stop a) (h' : Confined start stop (a + 1) ops) : Confined start stop a (op :: ops) := by
  intro i op' hi
  cases i with
  | zero =>
    obtain rfl : op = op' := Option.some.inj hi
    exact h
  | succ i =>
    have := h' i op' hi
    rwa [Nat.add_assoc, Nat.add_comm 1] at this

theorem append (h : Confined start stop a ops) (h' : Confined start stop (a + ops.length) more) :
    Confined start stop a (ops ++ more) := by
  intro i op hi
  by_cases hlt : i < ops.length
  · rw [List.getElem?_append_left hlt] at hi
    exact h i op hi
  · have hle := Nat.le_of_not_lt hlt
    rw [List.getElem?_append_right hle] at hi
    have := h' _ op hi
    rwa [Nat.add_assoc, Nat.add_sub_cancel' hle] at this

end Confined

/-- Instructions from an address on that are part of a command which begins at `start` and ends before `stop`: they say operations
that may stand there, with nested loops, and call these addresses. -/
def PartOf (start stop a : Nat) (calls : List Nat) (is : List Instruction) : Prop :=
  ∃ ops : List Opcode, is.map Instruction.decode = ops.map some ∧ Confined start stop a ops ∧ Looped a ops ∧
    ops.filterMap Opcode.callTarget? = calls

namespace PartOf

variable {start stop a : Nat} {calls calls' : List Nat} {is js : List Instruction}

theorem nil : PartOf start stop a [] [] := ⟨[], rfl, nofun, .nil a, rfl⟩

theorem append {n : Nat} (h : PartOf start stop a calls is) (hn : is.length = n)
    (h' : PartOf start stop (a + n) calls' js) : PartOf start stop a (calls ++ calls') (is ++ js) := by
  obtain ⟨ops, hops, hconfined, hlooped, rfl⟩ := h
  obtain ⟨more, hmore, hconfined', hlooped', rfl⟩ := h'
  have hlength : is.length = ops.length := by simpa using congrArg List.length hops
  rw [← hn, hlength] at hconfined' hlooped'
  refine ⟨ops ++ more, ?_, hconfined.append hconfined', hlooped.append hlooped', List.filterMap_append⟩
  rw [List.map_append, List.map_append, hops, hmore]

/-- One instruction that is no bound of a loop. -/
theorem one {op : Opcode} (line : Nat) (hfit : op.Fits) (hplain : op.bounds = false) (hinside : op.Inside start stop a) :
    PartOf start stop a op.callTarget?.toList [.of op line] := by
  refine ⟨[op], congrArg ([·]) (Opcode.decode_encode hfit), .cons hinside nofun, .plain hplain (.nil _), ?_⟩
  rw [List.filterMap_cons]
  cases op.callTarget? <;> rfl

/-- A part that is repeated. -/
theorem times {count : Nat} (line closing : Nat) (htwo : 2 ≤ count) (hcount : count < Opcode.operands)
    (ha : a < Opcode.operands) (h : PartOf start stop (a + 1) calls is) :
    PartOf start stop a calls (.of (.push count) line :: is ++ [.of (.loop a) closing]) := by
  obtain ⟨ops, hops, hconfined, hlooped, rfl⟩ := h
  have hpush : (Instruction.of (.push count) line).decode = some (.push count) :=
    Opcode.decode_encode (Opcode.fits_of_lt rfl hcount)
  have hloop : (Instruction.of (.loop a) closing).decode = some (.loop a) :=
    Opcode.decode_encode (Opcode.fits_of_lt rfl ha)
  refine ⟨.push count :: (ops ++ [.loop a]), ?_, ?_, .times count hlooped (.nil _), ?_⟩
  · rw [List.cons_append, List.map_cons, List.map_append, hpush, hops, List.map_singleton, hloop, List.map_cons,
      List.map_append, List.map_singleton]
  · exact .cons ⟨htwo, hcount⟩ (hconfined.append (.cons trivial nofun))
  · rw [List.filterMap_cons, List.filterMap_append]
    exact List.append_nil _

end PartOf

/-- The code of a condition is part of any command. -/
theorem Condition.partOf_code (c : Condition) (start stop a : Nat) : PartOf start stop a [] c.code := by
  induction c generalizing a with
  | sense s line => exact .one line (Opcode.fits_of_none rfl) rfl trivial
  | not c line ih => exact (ih a).append c.length_code (.one line (Opcode.fits_of_none rfl) rfl trivial)
  | and left right line ihl ihr | or left right line ihl ihr =>
    exact ((ihl a).append rfl (ihr _)).append rfl (.one line (Opcode.fits_of_none rfl) rfl trivial)

/-- A part that is gone past if a test does not hold. -/
theorem PartOf.guarded {start stop a : Nat} {calls : List Nat} {is : List Instruction} (test : Condition) (line target : Nat)
    (hahead : a + test.size < target) (htarget : target < stop) (hstop : stop ≤ Opcode.operands)
    (h : PartOf start stop (a + test.size + 1) calls is) :
    PartOf start stop a calls (test.code ++ .of (.jumpUnless target) line :: is) := by
  have hjump : PartOf start stop (a + test.size) [] [.of (.jumpUnless target) line] :=
    .one line (Opcode.fits_of_lt rfl (Nat.lt_of_lt_of_le htarget hstop)) rfl ⟨hahead, htarget⟩
  exact (test.partOf_code start stop a).append test.length_code (hjump.append rfl h)

/-- A jump inside the command. -/
theorem PartOf.jump {start stop target : Nat} (a : Nat) (hstart : start ≤ target) (htarget : target < stop)
    (hstop : stop ≤ Opcode.operands) : PartOf start stop a [] [.of (.jump target) 0] :=
  .one 0 (Opcode.fits_of_lt rfl (Nat.lt_of_lt_of_le htarget hstop)) rfl ⟨hstart, htarget⟩

/-- The code of a statement is part of every command that it lies in with at least one word behind it. -/
theorem Statement.partOf_code {address : String → Nat} (haddress : ∀ name, address name < Opcode.operands)
    {start stop : Nat} (hstop : stop ≤ Opcode.operands) {s : Statement} (hb : s.Bounded) {a : Nat} (hstart : start ≤ a)
    (ha : a + s.size < stop) : PartOf start stop a (s.calls.map (address ·.1)) (s.code address a) := by
  induction s generalizing a with
  | nothing => exact .nil
  | andThen first rest ih₁ ih₂ =>
    obtain ⟨hb₁, hb₂⟩ := Bounded.andThen_iff.1 hb
    simp only [size] at ha
    rw [calls, List.map_append]
    exact (ih₁ hb₁ hstart (by omega)).append (first.length_code address a) (ih₂ hb₂ (by omega) (by omega))
  | act act line => exact .one line (Opcode.fits_of_none rfl) rfl trivial
  | call name line position => exact .one line (Opcode.fits_of_lt rfl (haddress name)) rfl trivial
  | ifThen test line body ih =>
    obtain ⟨-, hb⟩ := Bounded.ifThen_iff.1 hb
    simp only [size] at ha
    exact .guarded test line _ (by omega) (by omega) hstop (ih hb (by omega) (by omega))
  | ifElse test line body otherwise ih₁ ih₂ =>
    obtain ⟨-, hb₁, hb₂⟩ := Bounded.ifElse_iff.1 hb
    simp only [size] at ha
    have hbody := ih₁ hb₁ (a := a + test.size + 1) (by omega) (by omega)
    have hother := ih₂ hb₂ (a := a + test.size + 1 + body.size + 1) (by omega) (by omega)
    have hjump : PartOf start stop (a + test.size + 1 + body.size) []
        [.of (.jump (a + test.size + 1 + body.size + 1 + otherwise.size)) 0] :=
      .jump _ (by omega) (by omega) hstop
    have hbranches := hbody.append (body.length_code address _) (hjump.append rfl hother)
    have := PartOf.guarded test line (a + test.size + 1 + body.size + 1) (by omega) (by omega) hstop hbranches
    rw [calls, List.map_append, code, List.append_assoc]
    exact this
  | whileDo test line body ih =>
    obtain ⟨-, hb⟩ := Bounded.whileDo_iff.1 hb
    simp only [size] at ha
    have hbody := ih hb (a := a + test.size + 1) (by omega) (by omega)
    have hback : PartOf start stop (a + test.size + 1 + body.size) [] [.of (.jump a) 0] :=
      .jump _ hstart (by omega) hstop
    have hloop := hbody.append (body.length_code address _) hback
    have := PartOf.guarded test line (a + test.size + 1 + body.size + 1) (by omega) (by omega) hstop hloop
    rw [List.append_nil] at this
    rw [code, List.append_assoc]
    exact this
  | repeatTimes count line body closing ih =>
    obtain ⟨⟨htwo, hcount⟩, hb⟩ := Bounded.repeatTimes_iff.1 hb
    simp only [size] at ha
    exact .times line closing htwo (Nat.lt_succ_of_le hcount) (by omega) (ih hb (by omega) (by omega))

/-! ## Commands -/

/-- The operations of a command that begins at an address: they may stand where they stand, the last of them returns, and loops are
nested. -/
structure Routine (start : Nat) (ops : List Opcode) : Prop where
  confined : Confined start (start + ops.length) start ops
  last : ops.getLast? = some .ret
  looped : Looped start ops

namespace Declaration

/-- The code of a command is a routine that calls what its body calls. -/
theorem routine_code {address : String → Nat} (haddress : ∀ name, address name < Opcode.operands) {d : Declaration}
    (hb : d.body.Bounded) {start : Nat} (hfit : start + d.size ≤ Opcode.operands) :
    ∃ ops : List Opcode, (d.code address start).map Instruction.decode = ops.map some ∧ Routine start ops ∧
      ops.filterMap Opcode.callTarget? = d.body.calls.map (address ·.1) := by
  have hsize : start + d.size = start + d.body.size + 1 := rfl
  have hbody : PartOf start (start + d.size) start (d.body.calls.map (address ·.1)) (d.body.code address start) :=
    Statement.partOf_code haddress hfit hb (Nat.le_refl _) (by omega)
  have hret : PartOf start (start + d.size) (start + d.body.size) [] [.of .ret d.closing] :=
    .one d.closing (Opcode.fits_of_none rfl) rfl rfl
  obtain ⟨ops, hops, hconfined, hlooped, hcalls⟩ := hbody.append (d.body.length_code address start) hret
  have hlength : d.size = ops.length := by
    have := congrArg List.length hops
    rw [List.length_map, List.length_map] at this
    rw [← this, ← length_code address start]
    rfl
  rw [List.append_nil] at hcalls
  refine ⟨ops, hops, ⟨hlength ▸ hconfined, ?_, hlooped⟩, hcalls⟩
  have hlast := congrArg List.getLast? hops
  rw [List.map_append, List.map_singleton, List.getLast?_concat, List.getLast?_map] at hlast
  obtain ⟨op, hop, hret⟩ := Option.map_eq_some_iff.1 hlast.symm
  rw [hop, Option.some.inj (hret.trans (Opcode.decode_encode (Opcode.fits_of_none rfl)))]

/-- The code of commands is their routines, one behind the other. -/
theorem routines_codeAll {address : String → Nat} (haddress : ∀ name, address name < Opcode.operands)
    {ds : List Declaration} (hb : ∀ d ∈ ds, d.body.Bounded) {start : Nat} (hfit : start + sizeAll ds ≤ Opcode.operands) :
    ∃ words : List Opcode, (codeAll address start ds).map Instruction.decode = words.map some ∧
      ∀ before d after, ds = before ++ d :: after → ∃ front ops back, words = front ++ ops ++ back ∧
        front.length = sizeAll before ∧ ops.length = d.size ∧ Routine (start + sizeAll before) ops ∧
        ops.filterMap Opcode.callTarget? = d.body.calls.map (address ·.1) := by
  induction ds generalizing start with
  | nil => exact ⟨[], rfl, fun before _ _ h => by cases before <;> nomatch h⟩
  | cons d rest ih =>
    obtain ⟨hd, hrest⟩ := List.forall_mem_cons.1 hb
    rw [sizeAll] at hfit
    have hfirst : start + d.size ≤ Opcode.operands := by omega
    have hothers : start + d.size + sizeAll rest ≤ Opcode.operands := by omega
    obtain ⟨ops, hops, hroutine, hcalls⟩ := routine_code haddress hd hfirst
    obtain ⟨words, hwords, hsplit⟩ := ih hrest hothers
    have hlength : ops.length = d.size := by
      rw [← length_code address start, ← List.length_map Instruction.decode, hops, List.length_map]
    refine ⟨ops ++ words, by rw [codeAll, List.map_append, List.map_append, hops, hwords], ?_⟩
    intro before d' after heq
    cases before with
    | nil =>
      obtain ⟨rfl, rfl⟩ := List.cons.inj heq
      exact ⟨[], ops, words, rfl, rfl, hlength, hroutine, hcalls⟩
    | cons first before =>
      obtain ⟨rfl, rfl⟩ := List.cons.inj heq
      obtain ⟨front, ops', back, rfl, hfront, hops', hroutine', hcalls'⟩ := hsplit before d' after rfl
      refine ⟨ops ++ front, ops', back, by simp only [List.append_assoc], ?_, hops', ?_, hcalls'⟩
      · rw [List.length_append, hlength, hfront, sizeAll]
      · rwa [sizeAll, ← Nat.add_assoc]

/-- A command lies behind those in front of it, and the next one or the end of the program behind it. -/
theorem layout_at (start : Nat) (before : List Declaration) (d : Declaration) (after : List Declaration) :
    (layout start (before ++ d :: after))[before.length]? = some (d.name, start + sizeAll before) ∧
      ((layout start (before ++ d :: after)).map (·.2) ++ [start + sizeAll (before ++ d :: after)])[before.length + 1]? =
        some (start + sizeAll before + d.size) := by
  induction before generalizing start with
  | nil =>
    refine ⟨rfl, ?_⟩
    cases after with
    | nil => rfl
    | cons => rfl
  | cons first before ih =>
    have := ih (start + first.size)
    simp only [Nat.add_assoc] at this
    simpa only [List.cons_append, layout, sizeAll, List.length_cons, List.getElem?_cons_succ, List.map_cons, Nat.add_assoc]
      using this

/-- The commands lie one behind the other. -/
theorem pairwise_layout (start : Nat) (ds : List Declaration) :
    ((layout start ds).map (·.2)).Pairwise (· < ·) ∧ ∀ a ∈ (layout start ds).map (·.2), start ≤ a := by
  induction ds generalizing start with
  | nil => exact ⟨.nil, nofun⟩
  | cons d rest ih =>
    obtain ⟨hpairwise, hle⟩ := ih (start + d.size)
    have hlt : ∀ a ∈ (layout (start + d.size) rest).map (·.2), start < a := by
      intro a ha
      have := hle a ha
      rw [size] at this
      omega
    refine ⟨List.pairwise_cons.2 ⟨hlt, hpairwise⟩, List.forall_mem_cons.2 ⟨Nat.le_refl _, ?_⟩⟩
    intro a ha
    exact Nat.le_of_lt (hlt a ha)

end Declaration

/-- The shape of compiled code. The words of a program with commands all say operations. Word 0 calls the entry, the address of the
command that the program is entered with, and word 1 is a return. The commands follow from address 2 on at rising addresses in the
order of the text, each up to where the next begins and the last up to the end of the program. Each is a routine whose loops go
back to a repeat count in it, and which calls the addresses of the commands that it names. -/
theorem compiled_shape {source : String} {asked : Option String} {p : Program} (h : compile source asked = .ok p)
    (hne : p.commands ≠ []) :
    ∃ ds words, parse source = .ok ds ∧ p.instructions.map Instruction.decode = words.map some ∧
      words.take 2 = [.call p.entry, .ret] ∧
      (∃ name, Declaration.entryIn ds asked = some name ∧ p.commands.lookup name = some p.entry) ∧
      p.commands.map (·.1) = ds.map (·.name) ∧ (p.commands.map (·.2)).head? = some 2 ∧
      (p.commands.map (·.2)).Pairwise (· < ·) ∧
      ∀ before d after, ds = before ++ d :: after → ∃ front ops back, words = front ++ ops ++ back ∧
        p.commands[before.length]? = some (d.name, front.length) ∧
        (p.commands.map (·.2) ++ [p.size])[before.length + 1]? = some (front.length + ops.length) ∧
        Routine front.length ops ∧
        (∀ i target, ops[i]? = some (.loop target) →
          ∃ j count, j < i ∧ target = front.length + j ∧ ops[j]? = some (.push count)) ∧
        (ops.filterMap Opcode.callTarget?).map some = d.body.calls.map (fun c => p.commands.lookup c.1) := by
  obtain ⟨ts, eof, lexicon, ds, depth, -, -, ha, hparse, hp⟩ := admissible_of_compile h
  obtain ⟨-, e, he, q, hq, rfl⟩ := Compiler.assembleAll_eq_ok.1 hp
  have haddress := Compiler.addressIn_lt ha.fits
  have hlookup : ∀ name ∈ ds.map (·.name),
      (Declaration.layout Parser.headerSize ds).lookup name = some (Compiler.addressIn ds name) := by
    intro name hname
    obtain ⟨a, hlookup⟩ := Declaration.exists_lookup_layout Parser.headerSize hname
    rw [(Compiler.addressIn_of_lookup hlookup).1, hlookup]
  have hcode : q.instructions = Compiler.codeOf ds e := (Program.pushAll_eq_ok hq).2.1
  have hsize : q.size = 2 + Declaration.sizeAll ds := by
    rw [← q.length_instructions, hcode, Compiler.length_codeOf]
  obtain ⟨rfl, hdeclared⟩ := Compiler.entryAddress_eq_ok he
  cases hentry : Declaration.entryIn ds asked with
  | none =>
    obtain rfl := Declaration.eq_nil_of_entryIn hentry
    exact absurd rfl hne
  | some name =>
  rw [hentry] at hcode
  have hcall : (Instruction.of (.call (Compiler.addressIn ds name)) 0).decode = some (.call (Compiler.addressIn ds name)) :=
    Opcode.decode_encode (Opcode.fits_of_lt rfl (haddress name))
  have hret : (Instruction.of .ret 0).decode = some .ret := Opcode.decode_encode (Opcode.fits_of_none rfl)
  obtain ⟨words, hwords, hsplit⟩ := Declaration.routines_codeAll haddress ha.bounded ha.fits
  obtain ⟨hpairwise, -⟩ := Declaration.pairwise_layout Parser.headerSize ds
  refine ⟨ds, .call (Compiler.addressIn ds name) :: .ret :: words, hparse, ?_, rfl,
    ⟨name, hentry, hlookup name (hdeclared name hentry)⟩, Declaration.names_layout _ _, ?_, hpairwise, ?_⟩
  · change q.instructions.map Instruction.decode = _
    rw [hcode]
    change (Instruction.of (.call (Compiler.addressIn ds name)) 0).decode :: (Instruction.of .ret 0).decode ::
      (Declaration.codeAll (Compiler.addressIn ds) 2 ds).map Instruction.decode = _
    rw [hcall, hret, hwords, List.map_cons, List.map_cons]
  · cases ds with
    | nil => exact absurd rfl hne
    | cons => rfl
  · rintro before d after rfl
    obtain ⟨front, ops, back, rfl, hfront, hops, hroutine, hcalls⟩ := hsplit before d after rfl
    obtain ⟨hstart, hstop⟩ := Declaration.layout_at Parser.headerSize before d after
    have hlength : (Opcode.call (Compiler.addressIn (before ++ d :: after) name) :: .ret :: front).length =
        2 + Declaration.sizeAll before := by
      rw [List.length_cons, List.length_cons, hfront]
      omega
    refine ⟨_ :: .ret :: front, ops, back, rfl, ?_⟩
    rw [hlength, hops]
    refine ⟨hstart, ?_, hroutine, fun i target hi => hroutine.looped.goes_back hi, ?_⟩
    · dsimp only
      rw [hsize]
      exact hstop
    · rw [hcalls, List.map_map]
      refine List.map_congr_left fun c hc => ?_
      exact (hlookup c.1 (ha.defined d (List.mem_append_right _ List.mem_cons_self) c hc)).symm

/-- A repeat around a test that calls, and a loop with nothing in it: the second command begins behind the return of the first, at
address 8, and each of them is a routine where its entry says. -/
theorem compiled_shape_of_loops :
    ∃ source p ds words, source = "void main() { repeat (3) { if (onBeeper()) { go(); } } } void go() { while (onBeeper()) {} }" ∧
      compile source none = .ok p ∧ p.commands = [("main", 2), ("go", 8)] ∧ parse source = .ok ds ∧
      p.instructions.map Instruction.decode = words.map some ∧ words.take 2 = [.call p.entry, .ret] ∧
      ∀ before d after, ds = before ++ d :: after → ∃ front ops back, words = front ++ ops ++ back ∧
        p.commands[before.length]? = some (d.name, front.length) ∧ Routine front.length ops := by
  have hok : (compile "void main() { repeat (3) { if (onBeeper()) { go(); } } } void go() { while (onBeeper()) {} }"
      none).toOption.map (·.commands) = some [("main", 2), ("go", 8)] := by decide +kernel
  cases hcompile : compile "void main() { repeat (3) { if (onBeeper()) { go(); } } } void go() { while (onBeeper()) {} }"
      none with
  | error e =>
    rw [hcompile] at hok
    nomatch hok
  | ok p =>
    rw [hcompile] at hok
    have hcommands : p.commands = [("main", 2), ("go", 8)] := Option.some.inj hok
    obtain ⟨ds, words, hparse, hwords, htwo, -, -, -, -, hsplit⟩ := compiled_shape hcompile (by rw [hcommands]; nofun)
    refine ⟨_, p, ds, words, rfl, hcompile, hcommands, hparse, hwords, htwo, ?_⟩
    intro before d after h
    obtain ⟨front, ops, back, hall, hstart, -, hroutine, -⟩ := hsplit before d after h
    exact ⟨front, ops, back, hall, hstart, hroutine⟩

end GridRobot

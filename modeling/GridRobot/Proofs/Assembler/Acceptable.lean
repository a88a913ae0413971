import GridRobot.Proofs.Assembler.Rows
import GridRobot.Proofs.Language.Acceptance

/-!
# Programs that nothing is said against

The compiler and the assembler only make words that say operations, and only repeat counts that can be repeated, so the assembler
has nothing to say against their programs.
-/

namespace GridRobot

open Text

/-! ## What is compiled -/

/-- An operation that fits and that the assembler does not object to makes a fine instruction. -/
theorem Instruction.fine_of {op : Opcode} {line : Nat} (hfit : op.Fits) (h : op.objection? = none) :
    (Instruction.of op line).objection? = none := by
  have hd : (Instruction.of op line).decode = some op := Opcode.decode_encode hfit
  rw [objection?, hd]
  exact h

/-- There is nothing to say against the code of a condition. -/
theorem Condition.fine_code (c : Condition) : ∀ i ∈ c.code, i.objection? = none := by
  have hop : ∀ {op line}, op.operand? = none → op.objection? = none →
      ∀ i ∈ [Instruction.of op line], i.objection? = none := by
    intro op line hnone h i hi
    rw [List.mem_singleton.1 hi]
    exact Instruction.fine_of (Opcode.fits_of_none hnone) h
  induction c with
  | sense s line => exact hop rfl rfl
  | not c line ih => exact List.forall_mem_append.2 ⟨ih, hop rfl rfl⟩
  | and left right line ihl ihr | or left right line ihl ihr =>
    exact List.forall_mem_append.2 ⟨List.forall_mem_append.2 ⟨ihl, ihr⟩, hop rfl rfl⟩

/-- There is nothing to say against the code of a statement within its bounds that ends in memory, if the commands lie in memory
too. -/
theorem Statement.fine_code {address : String → Nat} (haddress : ∀ name, address name < Opcode.operands) {s : Statement}
    (hb : s.Bounded) {a : Nat} (ha : a + s.size < Opcode.operands) : ∀ i ∈ s.code address a, i.objection? = none := by
  induction s generalizing a with
  | nothing => exact nofun
  | andThen first rest ih₁ ih₂ =>
    obtain ⟨hb₁, hb₂⟩ := Bounded.andThen_iff.1 hb
    simp only [size] at ha
    exact List.forall_mem_append.2 ⟨ih₁ hb₁ (by omega), ih₂ hb₂ (by omega)⟩
  | act act line => exact List.forall_mem_singleton.2 (Instruction.fine_of (Opcode.fits_of_none rfl) rfl)
  | call name line position =>
    exact List.forall_mem_singleton.2 (Instruction.fine_of (Opcode.fits_of_lt rfl (haddress name)) rfl)
  | ifThen test line body ih =>
    obtain ⟨-, hb⟩ := Bounded.ifThen_iff.1 hb
    simp only [size] at ha
    refine List.forall_mem_append.2 ⟨test.fine_code, List.forall_mem_cons.2 ⟨?_, ih hb (by omega)⟩⟩
    exact Instruction.fine_of (Opcode.fits_of_lt rfl (by omega)) rfl
  | ifElse test line body otherwise ih₁ ih₂ =>
    obtain ⟨-, hb₁, hb₂⟩ := Bounded.ifElse_iff.1 hb
    simp only [size] at ha
    refine List.forall_mem_append.2 ⟨List.forall_mem_append.2 ⟨test.fine_code, List.forall_mem_cons.2 ⟨?_, ?_⟩⟩,
      List.forall_mem_cons.2 ⟨?_, ih₂ hb₂ (by omega)⟩⟩
    · exact Instruction.fine_of (Opcode.fits_of_lt rfl (by omega)) rfl
    · exact ih₁ hb₁ (by omega)
    · exact Instruction.fine_of (Opcode.fits_of_lt rfl (by omega)) rfl
  | whileDo test line body ih =>
    obtain ⟨-, hb⟩ := Bounded.whileDo_iff.1 hb
    simp only [size] at ha
    refine List.forall_mem_append.2 ⟨List.forall_mem_append.2 ⟨test.fine_code, List.forall_mem_cons.2 ⟨?_, ?_⟩⟩,
      List.forall_mem_singleton.2 ?_⟩
    · exact Instruction.fine_of (Opcode.fits_of_lt rfl (by omega)) rfl
    · exact ih hb (by omega)
    · exact Instruction.fine_of (Opcode.fits_of_lt rfl (by omega)) rfl
  | repeatTimes count line body closing ih =>
    obtain ⟨⟨htwo, hcount⟩, hb⟩ := Bounded.repeatTimes_iff.1 hb
    simp only [size] at ha
    refine List.forall_mem_append.2 ⟨List.forall_mem_cons.2 ⟨?_, ih hb (by omega)⟩, List.forall_mem_singleton.2 ?_⟩
    · exact Instruction.fine_of (Opcode.fits_of_lt rfl (Nat.lt_succ_of_le hcount)) (if_neg (Nat.not_lt.2 htwo))
    · exact Instruction.fine_of (Opcode.fits_of_lt rfl (by omega)) rfl

/-- There is nothing to say against the code of commands within their bounds that end in memory. -/
theorem Declaration.fine_codeAll {address : String → Nat} (haddress : ∀ name, address name < Opcode.operands)
    {ds : List Declaration} (hb : ∀ d ∈ ds, d.body.Bounded) {start : Nat}
    (h : start + sizeAll ds ≤ Opcode.operands) : ∀ i ∈ codeAll address start ds, i.objection? = none := by
  induction ds generalizing start with
  | nil => exact nofun
  | cons d rest ih =>
    obtain ⟨hd, hrest⟩ := List.forall_mem_cons.1 hb
    rw [sizeAll] at h
    have hbody : start + d.body.size < Opcode.operands := by
      simp only [size] at h
      omega
    have hret : (Instruction.of .ret d.closing).objection? = none := Instruction.fine_of (Opcode.fits_of_none rfl) rfl
    exact List.forall_mem_append.2
      ⟨List.forall_mem_append.2 ⟨Statement.fine_code haddress hd hbody, List.forall_mem_singleton.2 hret⟩,
        ih hrest (by omega)⟩

/-- Calls go to addresses in memory. -/
theorem Compiler.addressIn_lt {ds : List Declaration} (h : 2 + Declaration.sizeAll ds ≤ Opcode.operands)
    (name : String) : addressIn ds name < Opcode.operands := by
  unfold addressIn
  cases hl : (Declaration.layout Parser.headerSize ds).lookup name with
  | none => decide
  | some a =>
    obtain ⟨before, d, after, rfl, -, rfl⟩ := Declaration.lookup_layout hl
    rw [Declaration.sizeAll_append, Declaration.sizeAll, Declaration.size] at h
    simp only [Option.getD_some, Parser.headerSize]
    omega

/-- There is nothing to say against the instructions of a compiled program. -/
theorem fine_of_compile {source : String} {entry : Option String} {p : Program} (h : compile source entry = .ok p) :
    ∀ i ∈ p.instructions, i.objection? = none := by
  obtain ⟨ts, eof, lexicon, ds, depth, -, -, ha, -, hp⟩ := admissible_of_compile h
  obtain ⟨-, e, he, q, hq, rfl⟩ := Compiler.assembleAll_eq_ok.1 hp
  have haddress := Compiler.addressIn_lt ha.fits
  have hcode : q.instructions = Compiler.codeOf ds e := (Program.pushAll_eq_ok hq).2.1
  change ∀ i ∈ q.instructions, i.objection? = none
  rw [hcode]
  refine List.forall_mem_append.2 ⟨?_, Declaration.fine_codeAll haddress ha.bounded ha.fits⟩
  have hret : (Instruction.of .ret 0).objection? = none := Instruction.fine_of (Opcode.fits_of_none rfl) rfl
  obtain ⟨rfl, -⟩ := Compiler.entryAddress_eq_ok he
  cases Declaration.entryIn ds entry with
  | none => exact List.forall_mem_cons.2 ⟨hret, List.forall_mem_singleton.2 hret⟩
  | some name =>
    have hcall : (Instruction.of (.call (Compiler.addressIn ds name)) 0).objection? = none :=
      Instruction.fine_of (Opcode.fits_of_lt rfl (haddress name)) rfl
    exact List.forall_mem_cons.2 ⟨hcall, List.forall_mem_singleton.2 hret⟩

/-! ## What is assembled -/

namespace Assembler

/-- A hexadecimal digit is below sixteen. -/
theorem hexValue?_lt {c : Char} {v : Nat} (h : hexValue? c = some v) : v < 16 := by
  have hle : ∀ {a b : Char}, a ≤ b → a.toNat ≤ b.toNat := fun h => UInt32.le_iff_toNat_le.1 (Char.le_def.1 h)
  unfold hexValue? at h
  split at h
  · rename_i hc
    have := hle hc.2
    cases h
    change _ ≤ 57 at this
    change c.toNat - 48 < 16
    omega
  · split at h
    · rename_i hc
      have := hle hc.2
      cases h
      change _ ≤ 102 at this
      change c.toNat - 97 + 10 < 16
      omega
    · split at h
      · rename_i hc
        have := hle hc.2
        cases h
        change _ ≤ 70 at this
        change c.toNat - 65 + 10 < 16
        omega
      · nomatch h

/-- Digits write a number that so many digits can hold. -/
theorem hexNumber?_lt {digits : List Char} {n : Nat} (h : hexNumber? digits = some n) : n < 16 ^ digits.length := by
  have hfrom : ∀ (digits : List Char) (acc : Nat),
      digits.foldlM (fun n c => (hexValue? c).map (n * 16 + ·)) acc = some n → n < (acc + 1) * 16 ^ digits.length := by
    intro digits
    induction digits with
    | nil =>
      intro acc h
      obtain rfl := Option.some.inj h
      simp
    | cons c rest ih =>
      intro acc h
      rw [List.foldlM_cons] at h
      obtain ⟨acc', hacc, hrest⟩ := Option.bind_eq_some_iff.1 h
      obtain ⟨v, hv, rfl⟩ := Option.map_eq_some_iff.1 hacc
      have hlt := hexValue?_lt hv
      calc n < (acc * 16 + v + 1) * 16 ^ rest.length := ih _ hrest
        _ ≤ ((acc + 1) * 16) * 16 ^ rest.length := Nat.mul_le_mul_right _ (by omega)
        _ = (acc + 1) * 16 ^ (c :: rest).length := by rw [List.length_cons, Nat.pow_succ', Nat.mul_assoc]
  have hn := hfrom digits 0 h
  rwa [Nat.zero_add, Nat.one_mul] at hn

theorem addressed_operand? {make : Nat → Opcode} (h : make ∈ Opcode.addressed) (n : Nat) : (make n).operand? = some n := by
  simp only [Opcode.addressed, List.mem_cons, List.not_mem_nil, or_false] at h
  rcases h with rfl | rfl | rfl | rfl | rfl | rfl <;> rfl

/-- An operation that is read from an operand fits, and nothing is said against it. -/
theorem fine_of_readOperand {make : Nat → Opcode} (hmake : make ∈ Opcode.addressed) {w : Word} {op : Opcode}
    (h : readOperand make w = .ok op) : op.Fits ∧ op.objection? = none := by
  unfold readOperand at h
  split at h
  · nomatch h
  · rename_i n hn
    obtain ⟨hvalue, hlen⟩ := Option.filter_eq_some_iff.1 hn
    have hlt := hexNumber?_lt hvalue
    rw [beq_iff_eq.1 hlen] at hlt
    have hoperand := addressed_operand? hmake n
    split at h
    · rename_i count hm
      rw [hm] at hoperand
      split at h
      · nomatch h
      · rename_i hcount
        obtain rfl := Except.ok.inj h
        obtain rfl : count = n := Option.some.inj hoperand
        exact ⟨Opcode.fits_of_lt rfl hlt, if_neg hcount⟩
    · rename_i hm
      obtain rfl := Except.ok.inj h
      refine ⟨Opcode.fits_of_lt hoperand hlt, ?_⟩
      unfold Opcode.objection?
      split
      · rename_i count hc
        exact absurd hc (hm count)
      · rfl

/-- An operation without an operand is fine. -/
theorem fine_of_primitiveNamed {name : String} {op : Opcode} (h : Opcode.primitiveNamed name = some op) :
    op.Fits ∧ op.objection? = none := by
  have hall : ∀ op ∈ Opcode.primitives, op.operand? = none ∧ op.objection? = none := by decide
  obtain ⟨hnone, hfine⟩ := hall op (List.mem_of_find?_eq_some h)
  exact ⟨Opcode.fits_of_none hnone, hfine⟩

theorem eq_of_noMore {rest : List Word} {x y : Option Opcode}
    (h : (do noMore rest; return x : Except SourceError (Option Opcode)) = .ok y) : x = y := by
  cases rest with
  | nil => exact Except.ok.inj h
  | cons => nomatch h

/-- An operation that is read from words fits, and nothing is said against it. -/
theorem fine_of_readWords {ws : List Word} {op : Opcode} (h : readWords ws = .ok (some op)) :
    op.Fits ∧ op.objection? = none := by
  cases ws with
  | nil => nomatch h
  | cons name rest =>
    unfold readWords at h
    dsimp only at h
    split at h
    · rename_i hp
      obtain rfl := Option.some.inj (eq_of_noMore h)
      exact fine_of_primitiveNamed hp
    · rename_i make operand rest hp hmake
      cases hread : readOperand make operand with
      | error e =>
        rw [hread] at h
        nomatch h
      | ok op' =>
        rw [hread] at h
        obtain rfl := Option.some.inj (eq_of_noMore h)
        exact fine_of_readOperand (List.mem_of_find?_eq_some hmake) hread
    · nomatch h
    · nomatch h

/-- Whatever operation a line is read as, it fits into a word and is not objected to. -/
theorem fine_of_readLine {line : List Char} {start : Nat} {op : Opcode} (h : readLine line start = .ok (some op)) :
    op.Fits ∧ op.objection? = none := by
  unfold readLine at h
  split at h
  · nomatch h
  · exact fine_of_readWords h

/-- Lines add nothing that something is said against. -/
theorem fine_of_assembleLines {lines : List (List Char)} {p q : Program} {number start : Nat}
    (h : assembleLines p number start lines = .ok q) (hp : ∀ i ∈ p.instructions, i.objection? = none) :
    ∀ i ∈ q.instructions, i.objection? = none := by
  induction lines generalizing p number start with
  | nil =>
    obtain rfl := Except.ok.inj h
    exact hp
  | cons line rest ih =>
    rcases lineStep p number start line with ⟨-, hlines⟩ | ⟨-, hlines⟩ | ⟨hread, hpush, hlines⟩
    · rw [hlines] at h
      nomatch h
    · rw [hlines] at h
      exact ih h hp
    · obtain ⟨hfit, hop⟩ := fine_of_readLine hread
      obtain ⟨-, -, hinstructions, -⟩ := Program.push_eq_ok hpush
      rw [hlines] at h
      apply ih h
      rw [hinstructions]
      exact List.forall_mem_append.2 ⟨hp, List.forall_mem_singleton.2 (Instruction.fine_of hfit hop)⟩

end Assembler

/-- There is nothing to say against the instructions of an assembled program. -/
theorem fine_of_assemble {source : String} {p : Program} (h : assemble source = .ok p) :
    ∀ i ∈ p.instructions, i.objection? = none :=
  Assembler.fine_of_assembleLines h nofun

end GridRobot

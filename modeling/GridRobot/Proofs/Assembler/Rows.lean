import Mathlib.Algebra.Group.Nat.Defs
import GridRobot.Assembler
import GridRobot.Program.Listing
import GridRobot.Proofs.Machine.Coding
import GridRobot.Proofs.Program.Memory
import GridRobot.Proofs.Text.Numerals

/-!
# Reading rows of operations

The assembler reads the written form of an operation as this operation, on its own and behind the columns of a listing, except for
what it objects to: words that say no operation, and repeat counts that cannot be repeated.
-/

namespace GridRobot

open Text

/-! ## Hexadecimal numerals -/

namespace Assembler

/-- Of a numeral in hexadecimal digits, the number is read as far as its width goes. -/
theorem hexNumber?_hexDigits (width n : Nat) : hexNumber? (hexDigits width n) = some (n % 16 ^ width) := by
  induction width generalizing n with
  | zero => rw [Nat.pow_zero, Nat.mod_one]; rfl
  | succ width ih =>
    have hlast := hexValue?_digitChar (n % 16) (Nat.mod_lt _ (by decide))
    have hmod : n % 16 ^ (width + 1) = n / 16 % 16 ^ width * 16 + n % 16 := by
      rw [Nat.pow_succ', Nat.mod_mul, Nat.mul_comm, Nat.add_comm]
    have hinit := ih (n / 16)
    unfold hexNumber? at hinit ⊢
    rw [hexDigits, List.foldlM_append, hinit, hmod]
    simp [hlast]

end Assembler

/-! ## What is objected to -/

/-- What the assembler says against the written form of an operation. -/
def Opcode.objection? : Opcode → Option Problem
  | push count => if count < 2 then some (.countOutOfRange (hex 3 count)) else none
  | _ => none

/-- What the assembler says against the written form of an instruction. -/
def Instruction.objection? (i : Instruction) : Option Problem :=
  match i.decode with
  | some op => op.objection?
  | none => some (.unknownMnemonic "????")

namespace Instruction

/-- The written form of an instruction: question marks, the name of an operation, or such a name and three digits. -/
theorem mnemonic_cases (i : Instruction) :
    (i.decode = none ∧ i.mnemonic.toList = "????".toList) ∨
      (∃ op, i.decode = some op ∧ op.operand? = none ∧ i.mnemonic.toList = op.name.toList) ∨
      ∃ op n, i.decode = some op ∧ op.operand? = some n ∧ n < Opcode.operands ∧
        i.mnemonic.toList = op.name.toList ++ ' ' :: hexDigits 3 n := by
  unfold mnemonic
  cases hd : i.decode with
  | none => exact .inl ⟨rfl, rfl⟩
  | some op =>
    right
    rw [Option.map_some, Option.getD_some, Opcode.mnemonic]
    cases ho : op.operand? with
    | none => exact .inl ⟨op, rfl, ho, rfl⟩
    | some n =>
      have hn : n < Opcode.operands := (Opcode.encode_of_decode hd).2 n ho
      refine .inr ⟨op, n, rfl, ho, hn, ?_⟩
      dsimp only
      rw [String.toList_append, String.toList_append, toList_hex (by decide) hn, List.append_assoc]
      rfl

end Instruction

/-- The name of an operation has neither white space nor the sign of an address. -/
theorem Opcode.solid_name (op : Opcode) : Solid op.name.toList ∧ '@' ∉ op.name.toList := by
  cases op with
  | act a => cases a <;> exact ⟨.of_all (by decide), by decide⟩
  | sense s => cases s <;> exact ⟨.of_all (by decide), by decide⟩
  | ret | not | and | or | xor => exact ⟨.of_all (by decide), by decide⟩
  | push | loop | call | jump | jumpUnless | jumpIf =>
    simp only [name]
    exact ⟨.of_all (by decide), by decide⟩

namespace Assembler

theorem toString_toList (text : String) (start : Nat) : (⟨start, text.toList⟩ : Word).toString = text :=
  String.ofList_toList

/-- An operation without an operand is found by its name. -/
theorem primitiveNamed_name {op : Opcode} (h : op.operand? = none) : Opcode.primitiveNamed op.name = some op := by
  cases op with
  | act a => cases a <;> rfl
  | sense s => cases s <;> rfl
  | ret | not | and | or | xor => rfl
  | push | loop | call | jump | jumpUnless | jumpIf => nomatch h

/-- An operation with an operand is found by its name, and by it alone. -/
theorem addressedNamed_name {op : Opcode} {n : Nat} (h : op.operand? = some n) :
    Opcode.primitiveNamed op.name = none ∧ ∃ make, Opcode.addressedNamed op.name = some make ∧ make n = op := by
  cases op with
  | ret | act | sense | not | and | or | xor => nomatch h
  | push m | loop m | call m | jump m | jumpUnless m | jumpIf m =>
    obtain rfl : m = n := Option.some.inj h
    simp only [Opcode.name]
    exact ⟨rfl, _, rfl, rfl⟩

/-- An operation without an operand is read from its name. -/
theorem readWords_name {op : Opcode} (h : op.operand? = none) (start : Nat) :
    readWords [⟨start, op.name.toList⟩] = .ok (some op) := by
  unfold readWords
  dsimp only
  rw [toString_toList, primitiveNamed_name h]
  rfl

/-- Three digits are read as an operand, unless they are a repeat count that is objected to. -/
theorem readOperand_hexDigits {make : Nat → Opcode} {n : Nat} (h : (make n).operand? = some n)
    (hn : n < Opcode.operands) (position : Nat) :
    readOperand make ⟨position, hexDigits 3 n⟩ =
      match (make n).objection? with
      | some problem => .error ⟨problem, position⟩
      | none => .ok (make n) := by
  have hvalue : (hexNumber? (hexDigits 3 n)).filter (fun _ => (hexDigits 3 n).length == 3) = some n := by
    have hmod : n % 16 ^ 3 = n := Nat.mod_eq_of_lt hn
    rw [hexNumber?_hexDigits, hmod, length_hexDigits]
    rfl
  have htext : (⟨position, hexDigits 3 n⟩ : Word).toString = hex 3 n := by
    rw [Word.toString, ← toList_hex (by decide) hn, String.ofList_toList]
  unfold readOperand
  rw [hvalue, htext]
  dsimp only
  cases hm : make n with
  | push count =>
    rw [hm] at h
    obtain rfl : count = n := Option.some.inj h
    dsimp only [Opcode.objection?]
    split <;> rfl
  | _ => rfl

/-- An operation with an operand is read from its name and three digits, or refused at the operand if this is out of range. -/
theorem readWords_operand {op : Opcode} {n : Nat} (h : op.operand? = some n) (hn : n < Opcode.operands)
    (start position : Nat) :
    readWords [⟨start, op.name.toList⟩, ⟨position, hexDigits 3 n⟩] =
      match op.objection? with
      | some problem => .error ⟨problem, position⟩
      | none => .ok (some op) := by
  obtain ⟨hprimitive, make, hmake, rfl⟩ := addressedNamed_name h
  unfold readWords
  dsimp only
  rw [toString_toList, hprimitive, hmake]
  dsimp only
  rw [readOperand_hexDigits h hn]
  cases (make n).objection? <;> rfl

/-! ## Whole rows -/

/-- A line that begins with a solid text without an at sign is read for its words. -/
theorem readLine_of_solid {w : List Char} (hw : Solid w) (hat : '@' ∉ w) (rest : List Char) (start : Nat) :
    readLine (w ++ rest) start = readWords (dropColumns (words (w ++ rest) start)) := by
  cases w with
  | nil => exact absurd rfl hw.some
  | cons c w =>
    have hc : c ≠ '@' := fun h => hat (h ▸ List.mem_cons_self)
    unfold readLine
    rw [if_neg]
    rw [List.cons_append, trimStart, List.dropWhile_cons_of_neg (by rw [hw.cons.1]; exact Bool.false_ne_true)]
    exact fun h => hc (Option.some.inj h)

/-- What is read of the row of an instruction at a position. -/
def answer (i : Instruction) (position : Nat) : Except SourceError (Option Opcode) :=
  match i.objection? with
  | some problem => .error ⟨problem, position⟩
  | none => .ok i.decode

/-- A row shows an instruction: it is one line, and what is read of it is the operation, or what is objected to it at a place in the
row. -/
structure Shows (row : List Char) (i : Instruction) : Prop where
  unbroken : '\n' ∉ row
  read : ∃ before after, row = before ++ after ∧ ∀ start, readLine row start = answer i (start + byteLength before)

/-- The words of the written form of an instruction are read as that instruction, and no columns are dropped from them. -/
theorem readWords_mnemonic (i : Instruction) :
    ∃ before after, i.mnemonic.toList = before ++ after ∧ ∀ start,
      dropColumns (words i.mnemonic.toList start) = words i.mnemonic.toList start ∧
        readWords (words i.mnemonic.toList start) = answer i (start + byteLength before) := by
  rcases i.mnemonic_cases with ⟨hd, hm⟩ | ⟨op, hd, ho, hm⟩ | ⟨op, n, hd, ho, hn, hm⟩
  · refine ⟨[], i.mnemonic.toList, rfl, ?_⟩
    intro start
    have hw : words i.mnemonic.toList start = [⟨start, "????".toList⟩] := by
      rw [hm]
      exact words_solid (.of_all (by decide)) start
    rw [hw, answer, Instruction.objection?, hd]
    exact ⟨rfl, rfl⟩
  · refine ⟨[], i.mnemonic.toList, rfl, ?_⟩
    intro start
    have hw : words i.mnemonic.toList start = [⟨start, op.name.toList⟩] := by
      rw [hm]
      exact words_solid op.solid_name.1 start
    have hobjection : op.objection? = none := by
      cases op <;> first | rfl | nomatch ho
    rw [hw, readWords_name ho, answer, Instruction.objection?, hd]
    dsimp only
    rw [hobjection]
    exact ⟨rfl, rfl⟩
  · refine ⟨op.name.toList ++ [' '], hexDigits 3 n, by rw [hm, List.append_assoc]; rfl, ?_⟩
    intro start
    have hw : words i.mnemonic.toList start =
        [⟨start, op.name.toList⟩, ⟨start + byteLength (op.name.toList ++ [' ']), hexDigits 3 n⟩] := by
      rw [hm, words_solid_append op.solid_name.1, words_solid (solid_hexDigits (by decide) n), byteLength_append]
      rfl
    rw [hw, readWords_operand ho hn, answer, Instruction.objection?, hd]
    refine ⟨?_, rfl⟩
    have hcolumn : isColumn 4 ⟨start + byteLength (op.name.toList ++ [' ']), hexDigits 3 n⟩ = false := by
      rw [isColumn, length_hexDigits]
      rfl
    rw [dropColumns, hcolumn, Bool.and_false, if_neg Bool.false_ne_true]

/-- The written form of an instruction is one line that begins with a solid text without an at sign. -/
theorem mnemonic_line (i : Instruction) :
    '\n' ∉ i.mnemonic.toList ∧ ∃ w rest, i.mnemonic.toList = w ++ rest ∧ Solid w ∧ '@' ∉ w := by
  rcases i.mnemonic_cases with ⟨-, hm⟩ | ⟨op, -, -, hm⟩ | ⟨op, n, -, -, -, hm⟩
  · rw [hm]
    exact ⟨by decide, "????".toList, [], by rw [List.append_nil], .of_all (by decide), by decide⟩
  · rw [hm]
    exact ⟨op.solid_name.1.not_newline, op.name.toList, [], by rw [List.append_nil], op.solid_name⟩
  · rw [hm]
    refine ⟨?_, op.name.toList, ' ' :: hexDigits 3 n, rfl, op.solid_name⟩
    intro h
    rcases List.mem_append.1 h with h | h
    · exact op.solid_name.1.not_newline h
    · rcases List.mem_cons.1 h with h | h
      · nomatch h
      · exact (solid_hexDigits (by decide) n).not_newline h

/-- A row of a disassembly shows its instruction. -/
theorem shows_mnemonic (i : Instruction) : Shows i.mnemonic.toList i := by
  obtain ⟨hline, w, rest, hw, hsolid, hat⟩ := mnemonic_line i
  obtain ⟨before, after, hsplit, hread⟩ := readWords_mnemonic i
  refine ⟨hline, before, after, hsplit, ?_⟩
  intro start
  have hsolid_line := readLine_of_solid hsolid hat rest start
  rw [← hw, (hread start).1, (hread start).2] at hsolid_line
  exact hsolid_line

/-- Hexadecimal digits of the width of a column are read as one. -/
theorem isColumn_hexDigits (width n start : Nat) : isColumn width ⟨start, hexDigits width n⟩ = true := by
  unfold isColumn
  rw [length_hexDigits, all_hexDigits (by decide), beq_self_eq_true]
  rfl

/-- A row of a listing shows its instruction: its columns are dropped. -/
theorem shows_listingRow {a : Nat} (ha : a < memorySize) (i : Instruction) : Shows (Program.listingRow a i).toList i := by
  obtain ⟨hline, -⟩ := mnemonic_line i
  obtain ⟨before, after, hsplit, hread⟩ := readWords_mnemonic i
  have haddress : Solid (hexDigits 3 a) := solid_hexDigits (by decide) a
  have hword : Solid (hexDigits 4 i.word.toNat) := solid_hexDigits (by decide) _
  have hrow : (Program.listingRow a i).toList =
      hexDigits 3 a ++ ' ' :: (hexDigits 4 i.word.toNat ++ ' ' :: i.mnemonic.toList) := by
    have hthree : (hex 3 a).toList = hexDigits 3 a := toList_hex (by decide) ha
    have hfour : (hex 4 i.word.toNat).toList = hexDigits 4 i.word.toNat := toList_hex (by decide) i.word.toNat_lt
    simp only [Program.listingRow, String.toList_append, hthree, hfour, List.append_assoc]
    rfl
  have hat : '@' ∉ hexDigits 3 a := by
    intro h
    nomatch List.all_eq_true.1 (all_hexDigits (P := (· != '@')) (by decide) 3 a) _ h
  refine ⟨?_, hexDigits 3 a ++ ' ' :: (hexDigits 4 i.word.toNat ++ ' ' :: before), after, ?_, ?_⟩
  · rw [hrow]
    simp only [List.mem_append, List.mem_cons, haddress.not_newline, hword.not_newline, hline, or_false, false_or]
    decide
  · rw [hrow, hsplit]
    simp only [List.append_assoc, List.cons_append]
  · intro start
    rw [hrow, readLine_of_solid haddress hat, words_solid_append haddress, words_solid_append hword, dropColumns,
      isColumn_hexDigits, isColumn_hexDigits, Bool.and_self, if_pos rfl, (hread _).2]
    have hposition : start + byteLength (hexDigits 3 a) + 1 + byteLength (hexDigits 4 i.word.toNat) + 1 +
        byteLength before =
      start + byteLength (hexDigits 3 a ++ ' ' :: (hexDigits 4 i.word.toNat ++ ' ' :: before)) := by
      simp only [byteLength_append, byteLength_cons]
      have hblank : ' '.utf8Size = 1 := rfl
      omega
    rw [hposition]

/-! ## One line -/

section

variable {p q : Program} {number start a : Nat} {line : List Char} {rest : List (List Char)}

/-- A line without an operation is passed over. -/
theorem assembleLines_of_none (h : readLine line start = .ok none) :
    assembleLines p number start (line :: rest) = assembleLines p (number + 1) (start + byteLength line + 1) rest := by
  rw [assembleLines, h]
  rfl

/-- An operation is put behind the others with the number of its line, or is refused at the begin of the line. -/
theorem assembleLines_of_op {op : Opcode} (h : readLine line start = .ok (some op)) :
    assembleLines p number start (line :: rest) =
      match p.push (.of op number) with
      | .ok (_, p) => assembleLines p (number + 1) (start + byteLength line + 1) rest
      | .error e => throw { e with position := start } := by
  rw [assembleLines, h]
  rfl

/-- Behind an operation that was put into memory, assembling goes on with the next line. -/
theorem assembleLines_of_push {op : Opcode} (h : readLine line start = .ok (some op))
    (hp : p.push (.of op number) = .ok (a, q)) :
    assembleLines p number start (line :: rest) = assembleLines q (number + 1) (start + byteLength line + 1) rest := by
  rw [assembleLines_of_op h, hp]

/-- A line that cannot be read ends the assembling. -/
theorem assembleLines_of_error {e : SourceError} (h : readLine line start = .error e) :
    assembleLines p number start (line :: rest) = .error e := by
  rw [assembleLines, h]
  rfl

end

/-- What becomes of a line behind a program: it is refused, it says nothing, or it says an operation that fits into memory. -/
inductive LineStep (p : Program) (number start : Nat) (line : List Char) : Prop where
  | refused {e : SourceError} (hread : readLine line start = .error e ∨ e = ⟨.programTooLong, start⟩)
      (hlines : ∀ rest, assembleLines p number start (line :: rest) = .error e) : LineStep p number start line
  | silent (hread : readLine line start = .ok none)
      (hlines : ∀ rest, assembleLines p number start (line :: rest) =
        assembleLines p (number + 1) (start + byteLength line + 1) rest) : LineStep p number start line
  | operation {op : Opcode} {a : Nat} {q : Program} (hread : readLine line start = .ok (some op))
      (hpush : p.push (.of op number) = .ok (a, q))
      (hlines : ∀ rest, assembleLines p number start (line :: rest) =
        assembleLines q (number + 1) (start + byteLength line + 1) rest) : LineStep p number start line

/-- One of the four ways to go on applies to each line. -/
theorem lineStep (p : Program) (number start : Nat) (line : List Char) : LineStep p number start line := by
  cases hread : readLine line start with
  | error e => exact .refused (.inl hread) fun _ => assembleLines_of_error hread
  | ok op? =>
    cases op? with
    | none => exact .silent hread fun _ => assembleLines_of_none hread
    | some op =>
      cases hpush : p.push (.of op number) with
      | error e =>
        obtain rfl := Program.push_eq_error hpush
        refine .refused (.inr rfl) fun rest => ?_
        rw [assembleLines_of_op hread, hpush]
        rfl
      | ok r => exact .operation hread hpush fun _ => assembleLines_of_push hread hpush

end Assembler

end GridRobot

import GridRobot.Instruction

/-!
# Operations and their words

A word says at most one operation, and an operation whose operand fits into twelve bits is said by exactly one word: decoding and
encoding undo each other. Of a larger operand the word keeps the low twelve bits.
-/

namespace GridRobot

namespace Opcode

/-- The operand, if there is one, fits into twelve bits. -/
def Fits (op : Opcode) : Prop := ∀ n, op.operand? = some n → n < operands

/-- An operation without an operand fits. -/
theorem fits_of_none {op : Opcode} (h : op.operand? = none) : op.Fits := by
  intro n hn
  rw [h] at hn
  nomatch hn

/-- An operation fits if its operand does. -/
theorem fits_of_lt {op : Opcode} {n : Nat} (h : op.operand? = some n) (hn : n < operands) : op.Fits := by
  intro k hk
  rw [h] at hk
  obtain rfl := Option.some.inj hk
  exact hn

/-- A word is put together from its category and its low twelve bits, and taken apart again. -/
theorem toNat_category_add {c n : Nat} (hc : c < 16) (hn : n < operands) :
    (UInt16.ofNat (c * operands + n)).toNat / operands = c ∧
      (UInt16.ofNat (c * operands + n)).toNat % operands = n := by
  rw [UInt16.toNat_ofNat']
  simp only [operands] at *
  omega

/-- An operation that fits is found again in its word. -/
theorem decode_encode {op : Opcode} (h : op.Fits) : decode op.encode = some op := by
  cases op with
  | act a => cases a <;> rfl
  | sense s => cases s <;> rfl
  | ret | not | and | or | xor => rfl
  | push n | loop n | call n | jump n | jumpUnless n | jumpIf n =>
    have hn : n < operands := h n rfl
    have parts := fun c hc => toNat_category_add (c := c) hc hn
    simp (disch := decide) only [decode, encode, code, Nat.mod_eq_of_lt hn, parts]

/-- The operation with the low twelve bits of its operand. -/
def narrow : Opcode → Opcode
  | push n => push (n % operands)
  | loop n => loop (n % operands)
  | call n => call (n % operands)
  | jump n => jump (n % operands)
  | jumpUnless n => jumpUnless (n % operands)
  | jumpIf n => jumpIf (n % operands)
  | op => op

theorem encode_narrow (op : Opcode) : op.narrow.encode = op.encode := by
  cases op <;> simp [narrow, encode, code]

theorem fits_narrow (op : Opcode) : op.narrow.Fits := by
  cases op with
  | push | loop | call | jump | jumpUnless | jumpIf => exact fits_of_lt rfl (Nat.mod_lt _ (by decide))
  | ret | act | sense | not | and | or | xor => exact fits_of_none rfl

/-- Whatever its operand is, an operation is found again in its word but for the high bits of the operand. -/
theorem decode_encode_narrow (op : Opcode) : decode op.encode = some op.narrow := by
  rw [← encode_narrow, decode_encode op.fits_narrow]

/-- The operations without an operand have their places in the list for words, and no operand. -/
theorem of_mem_primitives : ∀ n < 16, ∀ op ∈ primitives[n]?, op.code = n ∧ op.operand? = none := by decide

/-- The word of an operation that was decoded is the one it was decoded from, and its operand fits. -/
theorem encode_of_decode {w : UInt16} {op : Opcode} (h : decode w = some op) : op.encode = w ∧ op.Fits := by
  have hw : w.toNat / operands * operands + w.toNat % operands = w.toNat := Nat.div_add_mod' _ _
  have hlow : w.toNat % operands < operands := Nat.mod_lt _ (by decide)
  have hcode : op.code = w.toNat ∧ op.Fits := by
    unfold decode at h
    dsimp only at h
    split at h
    case h_1 hc =>
      rw [hc, Nat.zero_mul, Nat.zero_add] at hw
      rw [hw] at h
      obtain ⟨hlt, -⟩ := List.getElem?_eq_some_iff.1 h
      obtain ⟨hcode, hnone⟩ := of_mem_primitives _ hlt op h
      exact ⟨hcode, fits_of_none hnone⟩
    case h_8 => nomatch h
    all_goals
      rename_i hc
      cases h
      rw [hc] at hw
      exact ⟨by simpa only [code, Nat.mod_mod] using hw, fits_of_lt rfl hlow⟩
  exact ⟨by rw [encode, hcode.1, UInt16.ofNat_toNat], hcode.2⟩

end Opcode

end GridRobot

import Mathlib.Algebra.Group.Nat.Defs
import GridRobot.Proofs.Text.Rows
import GridRobot.Text.Numeral

/-!
# Numerals

A number that so many hexadecimal digits can hold is written in that many digits, and a digit in either case is read as its value
(`hexValue?_eq_some_iff`). A decimal numeral is read as the number that it spells (`unsigned?_eq_some_iff`).
-/

namespace GridRobot.Text

/-! ## Writing numerals -/

/-- A numeral of a width has as many digits. -/
theorem length_hexDigits (width n : Nat) : (hexDigits width n).length = width := by
  induction width generalizing n with
  | zero => rfl
  | succ width ih => rw [hexDigits, List.length_append, ih, List.length_singleton]

/-- What is true of the sixteen digits is true of every digit of a numeral. -/
theorem all_hexDigits {P : Char → Bool} (hP : ∀ d < 16, P (Nat.digitChar d) = true) (width n : Nat) :
    (hexDigits width n).all P = true := by
  induction width generalizing n with
  | zero => rfl
  | succ width ih =>
    have hlast : P (Nat.digitChar (n % 16)) = true := hP _ (Nat.mod_lt _ (by decide))
    rw [hexDigits, List.all_append, ih, List.all_cons, hlast]
    rfl

/-- There is no white space in a numeral. -/
theorem solid_hexDigits {width : Nat} (hw : 0 < width) (n : Nat) : Solid (hexDigits width n) := by
  have hne : (hexDigits width n).isEmpty = false := by
    rw [List.isEmpty_eq_false_iff, ← List.length_pos_iff, length_hexDigits]
    exact hw
  apply Solid.of_all
  rw [hne, all_hexDigits (by decide)]
  rfl

/-- Each of the sixteen digits is read as its value. -/
theorem hexValue?_digitChar : ∀ d < 16, hexValue? (Nat.digitChar d) = some d := by decide

/-- A number that so many digits can hold is written in so many digits. -/
theorem toList_hex {width n : Nat} (hw : 0 < width) (h : n < 16 ^ width) : (hex width n).toList = hexDigits width n := by
  have hlog : n.log2 / 4 + 1 ≤ width := by
    by_cases hn : n = 0
    · subst hn
      exact hw
    · have hpow : (16 : Nat) ^ width = 2 ^ (4 * width) := by rw [Nat.pow_mul]
      have hlt := (Nat.log2_lt hn).2 (hpow ▸ h)
      omega
  rw [hex, String.toList_ofList, Nat.max_eq_left hlog]

/-! ## Reading numerals -/

/-- A character is the hexadecimal digit of a number, in either case. -/
def SpellsDigit (c : Char) (n : Nat) : Prop := n < 16 ∧ (c = Nat.digitChar n ∨ c = (Nat.digitChar n).toUpper)

instance (c : Char) (n : Nat) : Decidable (SpellsDigit c n) := inferInstanceAs (Decidable (_ ∧ _))

/-- No character beyond the first 128 is a hexadecimal digit. -/
theorem toNat_lt_of_hexValue? {c : Char} {n : Nat} (h : hexValue? c = some n) : c.toNat < 128 := by
  apply Nat.lt_of_not_le
  intro hlarge
  have habove : ∀ d : Char, d.toNat < 128 → ¬ c ≤ d := fun d hd hle =>
    Nat.not_lt.2 (Nat.le_trans hlarge hle) hd
  simp [hexValue?, habove] at h

/-- A digit is read exactly where one is spelled, in either case. -/
theorem hexValue?_eq_some_iff {c : Char} {n : Nat} : hexValue? c = some n ↔ SpellsDigit c n := by
  constructor
  · intro h
    have hdigits : ∀ k < 128, ∀ v ∈ hexValue? (Char.ofNat k), SpellsDigit (Char.ofNat k) v := by decide
    have hc := hdigits c.toNat (toNat_lt_of_hexValue? h)
    rw [Char.ofNat_toNat] at hc
    exact hc n h
  · rintro ⟨hn, rfl | rfl⟩
    · exact hexValue?_digitChar n hn
    · revert n
      decide

/-- A text spells an unsigned number of 64 bits: decimal digits, at least one, with a plus sign in front or without. -/
def SpellsUnsigned (text : List Char) (n : Nat) : Prop :=
  ∃ digits, (text = digits ∨ text = '+' :: digits) ∧ digits ≠ [] ∧ (∀ c ∈ digits, c.isDigit = true) ∧
    Nat.ofDigitChars 10 digits 0 = n ∧ n < 2 ^ 64

/-- Digits are read from an accumulated value on exactly if all of them are decimal, and then give the number to base ten. -/
theorem decimalFrom_eq_some_iff {acc n : Nat} {digits : List Char} :
    decimalFrom acc digits = some n ↔ (∀ c ∈ digits, c.isDigit = true) ∧ Nat.ofDigitChars 10 digits acc = n := by
  induction digits generalizing acc with
  | nil => simp [decimalFrom, Nat.ofDigitChars]
  | cons c digits ih =>
    rw [decimalFrom]
    split
    · rename_i hc
      simp [ih, hc, Nat.ofDigitChars, Nat.mul_comm]
    · rename_i hc
      simp [hc]

/-- A numeral is read exactly if it has digits and no other characters, and gives their number to base ten. -/
theorem decimal?_eq_some_iff {n : Nat} {digits : List Char} :
    decimal? digits = some n ↔ digits ≠ [] ∧ (∀ c ∈ digits, c.isDigit = true) ∧ Nat.ofDigitChars 10 digits 0 = n := by
  cases digits with
  | nil => simp [decimal?]
  | cons c digits => simp [decimal?, decimalFrom_eq_some_iff]

theorem unsigned?_eq_some_iff {text : List Char} {n : Nat} : unsigned? text = some n ↔ SpellsUnsigned text n := by
  constructor
  · intro h
    simp only [unsigned?, Option.filter_eq_some_iff, decide_eq_true_eq, decimal?_eq_some_iff] at h
    obtain ⟨⟨hne, hdigits, hvalue⟩, hn⟩ := h
    refine ⟨_, ?_, hne, hdigits, hvalue, hn⟩
    split
    · exact .inr rfl
    · exact .inl rfl
  · rintro ⟨digits, htext, hne, hdigits, hvalue, hn⟩
    have hread : (decimal? digits).filter (· < 0x10000000000000000) = some n :=
      Option.filter_eq_some_iff.2 ⟨decimal?_eq_some_iff.2 ⟨hne, hdigits, hvalue⟩, decide_eq_true hn⟩
    rcases htext with rfl | rfl
    · unfold unsigned?
      split
      · -- a plus sign is no digit
        exact absurd (hdigits '+' List.mem_cons_self) (by decide)
      · exact hread
    · exact hread

end GridRobot.Text

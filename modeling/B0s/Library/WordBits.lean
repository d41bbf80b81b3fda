import Mathlib.Data.Nat.Bitwise
import Mathlib.Tactic

/-
This file relates masks of machine words to division and addition.
-/

namespace WordBits

/-- A mask of high bits rounds down to a multiple of its lowest bit. -/
theorem and_high_mask {value width low : Nat} (order : low ≤ width) (bounded : value < 2 ^ width) :
    value &&& (2 ^ width - 2 ^ low) = value / 2 ^ low * 2 ^ low := by
  have mask : 2 ^ width - 2 ^ low = (2 ^ (width - low) - 1) <<< low := by
    rw [Nat.shiftLeft_eq, Nat.sub_mul, ← Nat.pow_add, Nat.sub_add_cancel order, one_mul]
  rw [mask, ← Nat.shiftRight_eq_div_pow, ← Nat.shiftLeft_eq]
  apply Nat.eq_of_testBit_eq
  intro index
  rw [Nat.testBit_and, Nat.testBit_shiftLeft, Nat.testBit_shiftLeft, Nat.testBit_shiftRight,
    Nat.testBit_two_pow_sub_one]
  by_cases above : low ≤ index
  · rw [Nat.add_sub_cancel' above]
    by_cases inside : index < width
    · have offset : index - low < width - low := by omega
      simp [above, offset]
    · have zero : value.testBit index = false :=
        Nat.testBit_lt_two_pow (lt_of_lt_of_le bounded (Nat.pow_le_pow_right (by omega) (by omega)))
      simp [zero]
  · simp [above]

/-- Low bits fill a multiple of a power of two without a carry. -/
theorem or_low_bits (low : Nat) {value bits : Nat} (aligned : value % 2 ^ low = 0) (small : bits < 2 ^ low) :
    value ||| bits = value + bits := by
  have split : value = 2 ^ low * (value / 2 ^ low) := by
    have division := Nat.div_add_mod value (2 ^ low)
    omega
  rw [split]
  exact (Nat.two_pow_add_eq_or_of_lt small _).symm

end WordBits

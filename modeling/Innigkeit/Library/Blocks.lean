import Mathlib.Algebra.Order.Ring.Nat
import Mathlib.Data.List.Basic

/-!
An interval of natural numbers cut into blocks of equal size: going through the
blocks and through the part of each is going through the interval.
-/

namespace Blocks

open List

variable {α : Type*} {k a b : ℕ}

/-- The part of the interval from `a` to `b` that lies in block `s`, counted from the beginning of
the block. -/
def part (k a b s : ℕ) : List ℕ :=
  range' (max a (s * k) - s * k)
    (min b (s * k + (k - 1)) - s * k + 1 - (max a (s * k) - s * k))

theorem flatMap_part_eq (hk : 0 < k) (f : ℕ → List α) {s : ℕ} (hlo : a / k ≤ s) (hhi : s ≤ b / k) :
    ((part k a b s).flatMap fun i => f (s * k + i)) =
      (range' (max a (s * k)) (min b (s * k + (k - 1)) + 1 - max a (s * k))).flatMap f := by
  have ha : a < (s + 1) * k := (Nat.div_lt_iff_lt_mul hk).mp (Nat.lt_succ_of_le hlo)
  have hb : s * k ≤ b := (Nat.le_div_iff_mul_le hk).mp hhi
  rw [Nat.succ_mul] at ha
  rw [part, ← flatMap_map (s * k + ·) f, map_add_range']
  congr 2 <;> omega

theorem flatMap_part (hk : 0 < k) (hab : a ≤ b) (f : ℕ → List α) :
    ((range' (a / k) (b / k + 1 - a / k)).flatMap fun s =>
      (part k a b s).flatMap fun i => f (s * k + i)) = (range' a (b + 1 - a)).flatMap f := by
  obtain ⟨n, hn⟩ : ∃ n, b / k = a / k + n := Nat.exists_eq_add_of_le (Nat.div_le_div_right hab)
  have hcount : b / k + 1 - a / k = n + 1 := by omega
  rw [hcount]
  induction n generalizing a with
  | zero =>
    have ha := Nat.div_mul_le_self a k
    have hb : b < (b / k + 1) * k := Nat.lt_mul_of_div_lt (Nat.lt_succ_self _) hk
    rw [hn, add_zero, Nat.succ_mul] at hb
    rw [range'_one, flatMap_singleton, flatMap_part_eq hk f le_rfl (le_of_eq hn.symm),
      Nat.max_eq_left ha, Nat.min_eq_left (by omega)]
  | succ n ih =>
    have ha := Nat.div_mul_le_self a k
    have ha' : a < (a / k + 1) * k := Nat.lt_mul_of_div_lt (Nat.lt_succ_self _) hk
    have hle : (a / k + 1) * k ≤ b := (Nat.le_div_iff_mul_le hk).mp (by omega)
    have hdiv : (a / k + 1) * k / k = a / k + 1 := Nat.mul_div_cancel _ hk
    have hrest := ih hle (by rw [hdiv]; omega) (by rw [hdiv]; omega)
    rw [hdiv] at hrest
    rw [range'_succ, flatMap_cons, flatMap_part_eq hk f le_rfl (by omega), Nat.max_eq_left ha]
    -- the later blocks do not see where the interval begins
    have hlater : ((range' (a / k + 1) (n + 1)).flatMap fun s =>
        (part k a b s).flatMap fun i => f (s * k + i)) =
        (range' (a / k + 1) (n + 1)).flatMap fun s =>
          (part k ((a / k + 1) * k) b s).flatMap fun i => f (s * k + i) := by
      apply flatMap_congr
      intro s hs
      rw [mem_range'_1] at hs
      have hmul : (a / k + 1) * k ≤ s * k := Nat.mul_le_mul_right k hs.1
      rw [part, part, Nat.max_eq_right (le_trans (le_of_lt ha') hmul), Nat.max_eq_right hmul]
    rw [hlater, hrest, ← flatMap_append]
    congr 1
    rw [Nat.succ_mul] at *
    rw [Nat.min_eq_right (by omega)]
    have hstop : a / k * k + k = a + 1 * (a / k * k + (k - 1) + 1 - a) := by omega
    rw [hstop, range'_append]
    congr 1
    omega

end Blocks

import Mathlib.Algebra.BigOperators.Group.Finset.Piecewise
import Mathlib.Algebra.Order.BigOperators.Group.Finset
import Mathlib.Algebra.Order.Ring.Nat

/-!
Counting agents by where they stand. `total weight pc` adds up the weight of
every agent's position; a step that moves one agent changes the total by the
difference of two weights, so an invariant that ties a shared counter to
positions is kept by comparing the step with those two weights only.
-/

namespace Counting

open Function Finset

variable {Agent Position : Type*} [Fintype Agent] (weight : Position → ℕ) (pc : Agent → Position)

def total : ℕ := ∑ a, weight (pc a)

theorem le_total (a : Agent) : weight (pc a) ≤ total weight pc :=
  single_le_sum (fun b _ => Nat.zero_le (weight (pc b))) (mem_univ a)

theorem total_eq_zero : total weight pc = 0 ↔ ∀ a, weight (pc a) = 0 := by
  simp [total]

theorem exists_of_total_pos (h : 0 < total weight pc) : ∃ a, 0 < weight (pc a) := by
  by_contra hnone
  have hzero : total weight pc = 0 := by
    rw [total_eq_zero]
    intro a
    by_contra ha
    exact hnone ⟨a, pos_of_ne_zero ha⟩
  omega

private theorem total_split [DecidableEq Agent] (a : Agent) :
    weight (pc a) + ∑ b ∈ univ.erase a, weight (pc b) = total weight pc :=
  add_sum_erase univ (fun b => weight (pc b)) (mem_univ a)

theorem total_update [DecidableEq Agent] (a : Agent) (p : Position) :
    total weight (update pc a p) + weight (pc a) = total weight pc + weight p := by
  have hbefore := total_split weight pc a
  have hafter := total_split weight (update pc a p) a
  have hrest : ∑ b ∈ univ.erase a, weight (update pc a p b) =
      ∑ b ∈ univ.erase a, weight (pc b) := by
    refine sum_congr rfl fun b hb => ?_
    rw [update_of_ne (ne_of_mem_erase hb)]
  rw [update_self, hrest] at hafter
  omega

theorem total_update_of_eq [DecidableEq Agent] {a : Agent} {p : Position}
    (h : weight p = weight (pc a)) : total weight (update pc a p) = total weight pc := by
  have hmove := total_update weight pc a p
  rw [h] at hmove
  exact add_right_cancel hmove

/-- A weight of at most one that two different agents never have together. -/
theorem total_le_one (hone : ∀ a, weight (pc a) ≤ 1)
    (hsame : ∀ a b, 0 < weight (pc a) → 0 < weight (pc b) → a = b) : total weight pc ≤ 1 := by
  classical
  by_contra hmany
  obtain ⟨a, ha⟩ := exists_of_total_pos weight pc (by omega)
  have hrest : ∑ b ∈ univ.erase a, weight (pc b) = 0 := by
    refine sum_eq_zero fun b hb => ?_
    by_contra hne
    exact ne_of_mem_erase hb (hsame b a (pos_of_ne_zero hne) ha)
  have hsplit := total_split weight pc a
  have hle := hone a
  omega

end Counting

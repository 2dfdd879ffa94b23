import Mathlib.Data.List.FinRange

/-!
Free lists threaded through an array. The cells of an array of `n` that are not
in use hold the index of the next such cell; the last one holds a stop mark.
`Exact` says that following the links from `head` passes every free cell once
and no other, and both ends of the list are handled by one lemma each: taking
the first cell and putting a cell in front.
-/

namespace FreeList

open List

variable {n : ℕ} {next next' : Fin n → ℕ} {stop head : ℕ} {cells : List (Fin n)} {i : Fin n}
  {free free' : Fin n → Prop}

/-- The cells that are passed from `head` until the stop mark. -/
def Linked (next : Fin n → ℕ) (stop : ℕ) : ℕ → List (Fin n) → Prop
  | head, [] => head = stop
  | head, i :: rest => head = i ∧ Linked next stop (next i) rest

theorem linked_congr (hnext : ∀ j ∈ cells, next' j = next j) (h : Linked next stop head cells) :
    Linked next' stop head cells := by
  induction cells generalizing head with
  | nil => exact h
  | cons i rest ih =>
    rw [forall_mem_cons] at hnext
    refine ⟨h.1, ?_⟩
    rw [hnext.1]
    exact ih hnext.2 h.2

theorem Linked.head_cases (h : Linked next stop head cells) : head < n ∨ head = stop := by
  cases cells with
  | nil => exact .inr h
  | cons i rest => exact .inl (h.1 ▸ i.isLt)

theorem linked_drop_finRange (hnext : ∀ j : Fin n, next j = if j.val + 1 < n then j.val + 1 else stop)
    (k : ℕ) : Linked next stop (if k < n then k else stop) ((List.finRange n).drop k) := by
  by_cases hk : k < n
  · rw [if_pos hk, drop_eq_getElem_cons (by simpa using hk)]
    refine ⟨by simp, ?_⟩
    rw [hnext]
    simpa using linked_drop_finRange hnext (k + 1)
  · rw [if_neg hk, drop_eq_nil_of_le (by simpa using hk)]
    rfl
termination_by n - k

structure Exact (next : Fin n → ℕ) (stop head : ℕ) (free : Fin n → Prop)
    (cells : List (Fin n)) : Prop where
  linked : Linked next stop head cells
  nodup : cells.Nodup
  mem_iff : ∀ i, i ∈ cells ↔ free i

namespace Exact

theorem finRange (hnext : ∀ j : Fin n, next j = if j.val + 1 < n then j.val + 1 else stop)
    (hfree : ∀ j, free j) :
    Exact next stop (if 0 < n then 0 else stop) free (List.finRange n) where
  linked := linked_drop_finRange hnext 0
  nodup := nodup_finRange n
  mem_iff j := iff_of_true (mem_finRange j) (hfree j)

theorem pop (h : Exact next stop head free (i :: cells)) (hnext : ∀ j ≠ i, next' j = next j)
    (hfree : ∀ j ≠ i, (free' j ↔ free j)) (hi : ¬ free' i) :
    Exact next' stop (next i) free' cells := by
  obtain ⟨hnot, hnodup⟩ := nodup_cons.mp h.nodup
  refine ⟨linked_congr ?_ h.linked.2, hnodup, fun j => ?_⟩
  · intro j hj
    exact hnext j fun heq => hnot (heq ▸ hj)
  · by_cases hj : j = i
    · rw [hj]
      exact iff_of_false hnot hi
    · rw [hfree j hj, ← h.mem_iff j, mem_cons, or_iff_right hj]

theorem push (h : Exact next stop head free cells) (hi : ¬ free i)
    (hnext : ∀ j ≠ i, next' j = next j) (hhead : next' i = head)
    (hfree : ∀ j ≠ i, (free' j ↔ free j)) (hi' : free' i) :
    Exact next' stop i free' (i :: cells) := by
  have hnot : i ∉ cells := fun hmem => hi ((h.mem_iff i).mp hmem)
  refine ⟨⟨rfl, ?_⟩, nodup_cons.mpr ⟨hnot, h.nodup⟩, fun j => ?_⟩
  · rw [hhead]
    exact linked_congr (fun j hj => hnext j fun heq => hnot (heq ▸ hj)) h.linked
  · by_cases hj : j = i
    · rw [hj]
      exact iff_of_true mem_cons_self hi'
    · rw [hfree j hj, ← h.mem_iff j, mem_cons, or_iff_right hj]

end Exact

end FreeList

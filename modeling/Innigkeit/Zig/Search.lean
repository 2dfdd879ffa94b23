import Innigkeit.Zig.Checked

/-!
The searches of `std.sort` over a slice that is partitioned by the comparison:
`partitionPoint`, `lowerBound` and `binarySearch`. Comparisons may trap, so the
loops run in `Checked`; the correctness statements give the slice as the
concatenation of the parts that compare alike, which is the form in which
callers cut their lists.
-/

namespace Zig

open List Nat

variable {α : Type}

/-- The halving loop: the boundary lies in `[it, it + len]`. -/
def partitionPoint.loop (predicate : α → Checked Bool) (items : List α) :
    (fuel it len : ℕ) → Checked ℕ
  | 0, it, _ => .ok it
  | fuel + 1, it, len =>
    if 1 < len then do
      let half := len / 2
      let below ← predicate (← index items (it + half - 1))
      loop predicate items fuel (if below then it + half else it) (len - half)
    else .ok it

def partitionPoint (predicate : α → Checked Bool) (items : List α) : Checked ℕ := do
  let it ← partitionPoint.loop predicate items items.length 0 items.length
  if it < items.length then
    let below ← predicate (← index items it)
    return if below then it + 1 else it
  else return it

/-- The first item that `compare` does not put below the searched position. -/
def lowerBound (compare : α → Checked Ordering) (items : List α) : Checked ℕ :=
  partitionPoint (fun item => do return (← compare item) == .gt) items

def binarySearch.loop (compare : α → Checked Ordering) (items : List α) :
    (fuel low high : ℕ) → Checked (Option ℕ)
  | 0, _, _ => .ok none
  | fuel + 1, low, high =>
    if low < high then do
      let mid := low + (high - low) / 2
      match ← compare (← index items mid) with
      | .eq => return some mid
      | .gt => loop compare items fuel (mid + 1) high
      | .lt => loop compare items fuel low mid
    else .ok none

def binarySearch (compare : α → Checked Ordering) (items : List α) : Checked (Option ℕ) :=
  binarySearch.loop compare items items.length 0 items.length

section

variable {predicate : α → Checked Bool} {xs ys : List α}
  (hx : ∀ x ∈ xs, predicate x = .ok true) (hy : ∀ y ∈ ys, predicate y = .ok false)

include hx hy

private theorem predicate_at {i : ℕ} (h : i < (xs ++ ys).length) :
    (do predicate (← index (xs ++ ys) i)) = .ok (decide (i < xs.length)) := by
  by_cases hi : i < xs.length
  · have hget : (xs ++ ys)[i]? = some xs[i] := by simp [getElem?_append_left hi, hi]
    simp [index_of hget, hi, hx _ (getElem_mem hi)]
  · have hi' : i - xs.length < ys.length := by
      rw [length_append] at h
      omega
    have hget : (xs ++ ys)[i]? = some ys[i - xs.length] := by
      simp [getElem?_append_right (Nat.le_of_not_lt hi), hi']
    simp [index_of hget, hi, hy _ (getElem_mem hi')]

private theorem partitionPoint_loop_spec (fuel it len : ℕ) (hf : len ≤ fuel)
    (hlo : it ≤ xs.length) (hhi : xs.length ≤ it + len) (hlen : it + len ≤ (xs ++ ys).length) :
    ∃ k, partitionPoint.loop predicate (xs ++ ys) fuel it len = .ok k ∧
      k ≤ xs.length ∧ xs.length ≤ k + 1 := by
  induction fuel generalizing it len with
  | zero => exact ⟨it, rfl, hlo, by omega⟩
  | succ fuel ih =>
    simp only [partitionPoint.loop]
    split
    · have hat := predicate_at hx hy (i := it + len / 2 - 1) (by omega)
      rw [bind_eq_ok] at hat
      obtain ⟨x, hget, hp⟩ := hat
      simp only [hget, hp, ok_bind]
      by_cases hb : it + len / 2 - 1 < xs.length
      · simp only [hb, decide_true, if_true]
        exact ih _ _ (by omega) (by omega) (by omega) (by omega)
      · simp only [hb, decide_false, Bool.false_eq_true, if_false]
        exact ih _ _ (by omega) (by omega) (by omega) (by omega)
    · exact ⟨it, rfl, hlo, by omega⟩

theorem partitionPoint_append : partitionPoint predicate (xs ++ ys) = .ok xs.length := by
  obtain ⟨k, hk, hle, hge⟩ := partitionPoint_loop_spec hx hy (xs ++ ys).length 0 (xs ++ ys).length
    (le_refl _) (zero_le _) (by simp) (by simp)
  unfold partitionPoint
  rw [hk, ok_bind]
  split
  · rename_i hlt
    have hat := predicate_at hx hy hlt
    rw [bind_eq_ok] at hat
    obtain ⟨x, hget, hp⟩ := hat
    simp only [hget, hp, ok_bind]
    by_cases hb : k < xs.length
    · simp only [hb, decide_true, if_true, pure_eq_ok]
      congr 1
      omega
    · simp only [hb, decide_false, Bool.false_eq_true, if_false, pure_eq_ok]
      congr 1
      omega
  · rename_i hlt
    have : xs.length ≤ (xs ++ ys).length := by simp
    rw [pure_eq_ok]
    congr 1
    omega

end

theorem lowerBound_append {compare : α → Checked Ordering} {xs ys : List α}
    (hx : ∀ x ∈ xs, compare x = .ok .gt) (hy : ∀ y ∈ ys, ∃ o, compare y = .ok o ∧ o ≠ .gt) :
    lowerBound compare (xs ++ ys) = .ok xs.length := by
  refine partitionPoint_append (fun x h => ?_) (fun y h => ?_)
  · simp [hx x h]
  · obtain ⟨o, ho, hne⟩ := hy y h
    cases o <;> simp_all

section

variable {compare : α → Checked Ordering} {xs zs : List α}

/-- The items before `n` lie below the searched position, the next `k` at it, the others above. -/
private theorem binarySearch_loop {items : List α} {n k : ℕ}
    (h : ∀ i x, items[i]? = some x →
      compare x = .ok (if i < n then .gt else if i < n + k then .eq else .lt))
    (hk : k ≤ 1) (fuel low high : ℕ) (hf : high - low ≤ fuel) (hlo : low ≤ n)
    (hhi : n + k ≤ high) (hlen : high ≤ items.length) :
    binarySearch.loop compare items fuel low high = .ok (if k = 0 then none else some n) := by
  induction fuel generalizing low high with
  | zero =>
    rw [if_pos (by omega)]
    rfl
  | succ fuel ih =>
    simp only [binarySearch.loop]
    split
    case isFalse =>
      rw [if_pos (by omega)]
    obtain ⟨mid, hmid⟩ : ∃ mid, mid = low + (high - low) / 2 := ⟨_, rfl⟩
    have hget : items[mid]? = some items[mid] := getElem?_eq_getElem (by omega)
    rw [← hmid, index_of hget, ok_bind, h mid _ hget]
    by_cases hbelow : mid < n
    · simp only [if_pos hbelow, ok_bind]
      exact ih _ _ (by omega) (by omega) (by omega) (by omega)
    · by_cases hat : mid < n + k
      · simp only [if_neg hbelow, if_pos hat, ok_bind, pure_eq_ok]
        rw [if_neg (by omega), show mid = n by omega]
      · simp only [if_neg hbelow, if_neg hat, ok_bind]
        exact ih _ _ (by omega) (by omega) (by omega) (by omega)

theorem binarySearch_none (hx : ∀ x ∈ xs, compare x = .ok .gt)
    (hz : ∀ z ∈ zs, compare z = .ok .lt) : binarySearch compare (xs ++ zs) = .ok none := by
  refine binarySearch_loop (n := xs.length) (k := 0) (fun i x hget => ?_) (zero_le 1) _ _ _
    (le_refl _) (zero_le _) (by simp) (le_refl _)
  rw [getElem?_append] at hget
  grind [mem_of_getElem?]

theorem binarySearch_some {y : α} (hx : ∀ x ∈ xs, compare x = .ok .gt)
    (hy : compare y = .ok .eq) (hz : ∀ z ∈ zs, compare z = .ok .lt) :
    binarySearch compare (xs ++ y :: zs) = .ok (some xs.length) := by
  refine binarySearch_loop (n := xs.length) (k := 1) (fun i x hget => ?_) (le_refl 1) _ _ _
    (le_refl _) (zero_le _) (by simp) (le_refl _)
  rw [getElem?_append, getElem?_cons] at hget
  grind [mem_of_getElem?]

end

end Zig

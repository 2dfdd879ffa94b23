import Mathlib.Algebra.Order.Ring.Nat
import Mathlib.Data.List.Range

/-!
A ring buffer addressed by free-running counters: slot `k` of the stream lies
at index `k % cap`. `window buf head n` reads the `n` slots from `head` on.
-/

namespace Ring

open List Function

variable {α : Type*} {cap : Nat} [NeZero cap]

def index (cap : Nat) [NeZero cap] (k : Nat) : Fin cap := Fin.ofNat cap k

def window (buf : Fin cap → α) (head n : Nat) : List α :=
  (List.range n).map fun i => buf (index cap (head + i))

@[simp]
theorem window_zero (buf : Fin cap → α) (head : Nat) : window buf head 0 = [] := rfl

theorem index_ne {h i n : Nat} (hi : i < n) (hn : n < cap) :
    index cap (h + i) ≠ index cap (h + n) := by
  intro heq
  have hmod : (h + i) % cap = (h + n) % cap := congrArg Fin.val heq
  have hdvd : cap ∣ (h + n) - (h + i) := 
    Nat.dvd_of_mod_eq_zero (Nat.sub_mod_eq_zero_of_mod_eq hmod.symm)
  have := Nat.le_of_dvd (by omega) hdvd
  omega

/-- Writing the slot after a window that does not fill the buffer extends the window. -/
theorem window_update {buf : Fin cap → α} {head n : Nat} (hn : n < cap) (x : α) :
    window (update buf (index cap (head + n)) x) head (n + 1) =
      window buf head n ++ [x] := by
  rw [window, range_succ, map_append]
  congr 1
  · refine map_congr_left fun i hi => ?_
    exact update_of_ne (index_ne (mem_range.mp hi) hn) ..
  · simp

theorem window_succ (buf : Fin cap → α) (head n : Nat) :
    window buf head (n + 1) = buf (index cap head) :: window buf (head + 1) n := by
  simp only [window, range_succ_eq_map, map_cons, map_map, add_zero]
  congr 1
  refine map_congr_left fun i _ => ?_
  show buf (index cap (head + (i + 1))) = _
  congr 2
  omega

/-- Counters that differ by a multiple of the capacity have the same window. -/
theorem window_congr {buf : Fin cap → α} {h h' : Nat} (heq : h % cap = h' % cap) (n : Nat) :
    window buf h n = window buf h' n := by
  refine map_congr_left fun i _ => congrArg buf (Fin.ext ?_)
  show (h + i) % cap = (h' + i) % cap
  rw [Nat.add_mod, heq, ← Nat.add_mod]

end Ring

import Mathlib.Tactic.Common
import Mathlib.Data.Option.Basic

/-!
Editing a list at the end of a known front part, and lifting relations to
options. The operations on an indexed list are stated for an append, which is
the form in which their callers know the list.
-/

namespace Surgery

open Option

variable {α : Type*} {pre post : List α} {x y : α}

@[simp] theorem insertIdx_length : (pre ++ post).insertIdx pre.length x = pre ++ x :: post := by
  induction pre with
  | nil => simp
  | cons z pre ih => simpa using ih

theorem insertIdx_length_add_one :
    (pre ++ x :: post).insertIdx (pre.length + 1) y = pre ++ x :: y :: post := by
  induction pre with
  | nil => simp
  | cons z pre ih => simpa using ih

theorem eraseIdx_length : (pre ++ x :: post).eraseIdx pre.length = pre ++ post := by
  rw [List.eraseIdx_append_of_length_le (Nat.le_refl _)]
  simp

theorem eraseIdx_length_add_one :
    (pre ++ x :: y :: post).eraseIdx (pre.length + 1) = pre ++ x :: post := by
  rw [List.eraseIdx_append_of_length_le (Nat.le_succ _)]
  simp

theorem set_length : (pre ++ x :: post).set pre.length y = pre ++ y :: post := by
  simp

theorem rel_refl {R : α → α → Prop} (h : ∀ a, R a a) (o : Option α) : Rel R o o := by
  cases o with
  | none => exact .none
  | some a => exact .some (h a)

theorem rel_mono {R S : α → α → Prop} (h : ∀ a b, R a b → S a b) {o p : Option α}
    (h1 : Rel R o p) : Rel S o p := by
  cases h1 with
  | none => exact .none
  | some hab => exact .some (h _ _ hab)

theorem rel_trans {R : α → α → Prop} (h : ∀ a b c, R a b → R b c → R a c) {o p q : Option α}
    (h1 : Rel R o p) (h2 : Rel R p q) : Rel R o q := by
  cases h1 with
  | none =>
    cases h2 with
    | none => exact .none
  | some hab =>
    cases h2 with
    | some hbc => exact .some (h _ _ _ hab hbc)

end Surgery

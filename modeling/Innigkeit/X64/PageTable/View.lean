import Innigkeit.X64.PageTable.RangeSpec

/-!
The entries of a page table by position. The entries of a level are counted
through all tables of that level, so that the page `p` has its leaf at position
`p`, the entry above it at position `p / 512`, and so on. An entry that no path of
present entries leads to counts as zero. The effect of a walk is read off
position by position.
-/

namespace Innigkeit.X64.PageTable

open Zig Memory Option Entry Nat

def nextTable {Next : Type} (table : ℕ → TableEntry Next) (i : ℕ) : Option Next :=
  if Entry.present (table i).raw = true then some (table i).next else none

section

variable (table : Level4Table)

def level3Table (s : ℕ) : Option Level3Table := nextTable table s

def level2Table (r : ℕ) : Option Level2Table :=
  (level3Table table (r / 512)).bind fun t => nextTable t (r % 512)

def level1Table (q : ℕ) : Option Level1Table :=
  (level2Table table (q / 512)).bind fun t => nextTable t (q % 512)

def level4Entry (s : ℕ) : Raw := (table s).raw

def level3Entry (r : ℕ) : Raw := (level3Table table (r / 512)).elim 0 fun t => (t (r % 512)).raw

def level2Entry (q : ℕ) : Raw := (level2Table table (q / 512)).elim 0 fun t => (t (q % 512)).raw

def level1Entry (p : ℕ) : Raw := (level1Table table (p / 512)).elim 0 fun t => t (p % 512)

end

/-- The table at position `x` is empty, its entries being given by position. -/
def Emptied (entries : ℕ → Raw) (x : ℕ) : Prop := ∀ k < 512, entries (x * 512 + k) = 0

instance (entries : ℕ → Raw) (x : ℕ) : Decidable (Emptied entries x) :=
  decidableBallLT 512 fun k _ => entries (x * 512 + k) = 0

open TableEntry

section

variable {span : PageSpan} {Next : Type} {β : Type*} {size : ℕ} {Trim : ℕ → Prop}
  {decision : CleanupDecision} {empty : Next → Bool} {below : Effect Next}
variable {E : Type} {j : ℕ}

theorem tableEffect_result_outside {entry : Effect E}
    (h : ¬ (span.first / (512 * size) ≤ j ∧ j ≤ span.last / (512 * size))) (table : ℕ → E) :
    (tableEffect span size Trim entry).result j table = table := by
  funext i
  refine if_neg fun hin => h ?_
  obtain ⟨hi, hlo, hhi⟩ := hin
  rw [mul_comm, ← Nat.div_div_eq_div_mul, ← Nat.div_div_eq_div_mul]
  omega

theorem raw_result (j i : ℕ) (table : ℕ → TableEntry Next) :
    ((tableEffect span size Trim (entryEffect span size decision empty below)).result j table
        i).raw =
      if span.InSlots size j i ∧ present (table i).raw = true ∧ decision = .free ∧
        empty (below.result (j * 512 + i) (table i).next) = true then 0 else (table i).raw := by
  simp only [tableEffect, entryEffect]
  by_cases hin : span.InSlots size j i
  · by_cases hp : present (table i).raw = true
    · simp only [hin, hp, if_true, true_and]
    · simp only [hin, hp, if_true, if_false, Bool.false_eq_true, false_and, and_false]
  · simp only [hin, if_false, false_and]

theorem isEmpty_eq_true {raw : E → Raw} {table : ℕ → E} :
    isEmpty raw table = true ↔ ∀ i < 512, raw (table i) = 0 := by
  exact decide_eq_true_iff

variable {i : ℕ}

/-- The table at a position after the walk shows what the effect makes of the table before it, to
everyone who cannot tell an empty table from none: a table that was unlinked was empty. -/
def Shows {T : Type} (empty : T → Bool) (result : T → T) (old new : Option T) : Prop :=
  ∀ (β : Type) (default : β) (observe : T → β), (∀ t, empty t = true → observe t = default) →
    new.elim default observe = old.elim default fun t => observe (result t)

theorem shows_next (houtside : ∀ k, ¬ (span.first / size ≤ k ∧ k ≤ span.last / size) → ∀ next,
      below.result k next = next) (hi : i < 512) (j : ℕ) (table : ℕ → TableEntry Next) :
    Shows empty (below.result (j * 512 + i)) (nextTable table i)
      (nextTable ((tableEffect span size Trim
        (entryEffect span size decision empty below)).result j table) i) := by
  intro β default observe hempty
  unfold nextTable
  by_cases hp : present (table i).raw = true
  · rw [if_pos hp, elim_some]
    by_cases hin : span.InSlots size j i
    · simp only [tableEffect, entryEffect, hin, if_true, hp]
      by_cases hfree : decision = .free ∧ empty (below.result (j * 512 + i) (table i).next) = true
      · rw [if_pos hfree, not_present_zero, if_neg Bool.false_ne_true, elim_none]
        exact (hempty _ hfree.2).symm
      · rw [if_neg hfree, if_pos hp, elim_some]
    · have hout := houtside (j * 512 + i) (fun h => hin ⟨hi, h⟩) (table i).next
      simp only [tableEffect, hin, if_false, hp, if_true, elim_some, hout]
  · have hraw : ((tableEffect span size Trim
        (entryEffect span size decision empty below)).result j table i).raw = _ :=
      raw_result j i table
    rw [if_neg (fun h => hp h.2.1)] at hraw
    rw [hraw, if_neg hp, if_neg hp, elim_none, elim_none]

private theorem elim_bind {α γ β : Type} (o : Option α) (f : α → Option γ) (default : β)
    (g : γ → β) : (o.bind f).elim default g = o.elim default fun a => (f a).elim default g := by
  cases o <;> rfl

theorem Shows.next (houtside : ∀ k, ¬ (span.first / size ≤ k ∧ k ≤ span.last / size) → ∀ next,
      below.result k next = next) (hi : i < 512) {old new : Option (ℕ → TableEntry Next)}
    (h : Shows (isEmpty raw)
      ((tableEffect span size Trim (entryEffect span size decision empty below)).result j) old new) :
    Shows empty (below.result (j * 512 + i)) (old.bind fun t => nextTable t i)
      (new.bind fun t => nextTable t i) := by
  intro β default observe hempty
  rw [elim_bind, elim_bind, h]
  · cases old with
    | none => rfl
    | some t => exact shows_next houtside hi j t β default observe hempty
  · intro t ht
    rw [nextTable, isEmpty_eq_true.mp ht i hi, not_present_zero, if_neg Bool.false_ne_true,
      elim_none]

theorem Shows.raw (hi : i < 512) {old new : Option (ℕ → TableEntry Next)} (h : Shows (isEmpty raw)
      ((tableEffect span size Trim (entryEffect span size decision empty below)).result j) old new) :
    (new.elim 0 fun t => (t i).raw) = old.elim 0 fun t =>
      if span.InSlots size j i ∧ present (t i).raw = true ∧ decision = .free ∧
        empty (below.result (j * 512 + i) (t i).next) = true then 0 else (t i).raw := by
  rw [h]
  · cases old with
    | none => rfl
    | some t => exact raw_result j i t
  · intro t ht
    exact isEmpty_eq_true.mp ht i hi

theorem inSlots_div_mod (x : ℕ) : span.InSlots size (x / 512) (x % 512) ↔
    span.first / size ≤ x ∧ x ≤ span.last / size := by
  simp only [PageSpan.InSlots, div_add_mod', mod_lt x (show 512 > 0 by decide), true_and]

end

section

variable (span : PageSpan) (visitor : Visitor) (table : Level4Table)

def walked : Level4Table := (level4Effect span visitor).result 0 table

variable {s : ℕ}

theorem level3Table_walked (hs : s < 512) :
    Shows (isEmpty raw) ((level3Effect span visitor).result s) (level3Table table s)
      (level3Table (walked span visitor table) s) := by
  have h : Shows (isEmpty raw) ((level3Effect span visitor).result (0 * 512 + s))
      (nextTable table s) (nextTable (walked span visitor table) s) :=
    shows_next (fun k hk t => tableEffect_result_outside hk t) hs 0 table
  rwa [zero_mul, zero_add] at h

variable {r : ℕ}

theorem level2Table_walked (hr : r < 512 ^ 2) :
    Shows (isEmpty raw) ((level2Effect span visitor).result r) (level2Table table r)
      (level2Table (walked span visitor table) r) := by
  have h : Shows (isEmpty raw)
      ((level2Effect span visitor).result (r / 512 * 512 + r % 512)) (level2Table table r)
      (level2Table (walked span visitor table) r) :=
    (level3Table_walked span visitor table (by omega)).next
      (fun k hk t => tableEffect_result_outside hk t) (mod_lt r (by decide))
  rwa [div_add_mod'] at h

variable {q : ℕ}

theorem level1Table_walked (hq : q < 512 ^ 3) :
    Shows (isEmpty id) ((level1Effect span visitor).result q) (level1Table table q)
      (level1Table (walked span visitor table) q) := by
  have h : Shows (isEmpty id)
      ((level1Effect span visitor).result (q / 512 * 512 + q % 512)) (level1Table table q)
      (level1Table (walked span visitor table) q) :=
    (level2Table_walked span visitor table (by omega)).next
      (fun k hk t => tableEffect_result_outside hk t) (mod_lt q (by decide))
  rwa [div_add_mod'] at h

variable {table}

private theorem block_div {x k : ℕ} (hk : k < 512) : (x * 512 + k) / 512 = x := by omega

private theorem block_mod {x k : ℕ} (hk : k < 512) : (x * 512 + k) % 512 = k := by omega

theorem level1_emptied_iff (hq : q < 512 ^ 3) {t : Level1Table}
    (ht : level1Table table q = some t) :
    isEmpty id ((level1Effect span visitor).result q t) = true ↔
      Emptied (level1Entry (walked span visitor table)) q := by
  rw [isEmpty_eq_true]
  refine forall₂_congr fun k hk => ?_
  rw [level1Entry, block_div hk, block_mod hk, level1Table_walked span visitor table hq, ht]
  · rfl
  · intro t ht
    exact isEmpty_eq_true.mp ht k hk

theorem level2_emptied_iff (hr : r < 512 ^ 2) {t : Level2Table}
    (ht : level2Table table r = some t) :
    isEmpty raw ((level2Effect span visitor).result r t) = true ↔
      Emptied (level2Entry (walked span visitor table)) r := by
  rw [isEmpty_eq_true]
  refine forall₂_congr fun k hk => ?_
  rw [level2Entry, block_div hk, block_mod hk, level2Table_walked span visitor table hr, ht]
  · rfl
  · intro t ht
    exact isEmpty_eq_true.mp ht k hk

theorem level3_emptied_iff (hs : s < 512) {t : Level3Table} (ht : level3Table table s = some t) :
    isEmpty raw ((level3Effect span visitor).result s t) = true ↔
      Emptied (level3Entry (walked span visitor table)) s := by
  rw [isEmpty_eq_true]
  refine forall₂_congr fun k hk => ?_
  rw [level3Entry, block_div hk, block_mod hk, level3Table_walked span visitor table hs, ht]
  · rfl
  · intro t ht
    exact isEmpty_eq_true.mp ht k hk

variable (table)

theorem level1Entry_walked {p : ℕ} (hp : p < 512 ^ 4) :
    level1Entry (walked span visitor table) p =
      if (span.first ≤ p ∧ p ≤ span.last) ∧ present (level1Entry table p) = true then
        visitor.update (level1Entry table p) else level1Entry table p := by
  have hmod : p % 512 < 512 := Nat.mod_lt p (by decide)
  rw [level1Entry, level1Table_walked span visitor table (by omega)]
  case a =>
    intro t ht
    exact isEmpty_eq_true.mp ht _ hmod
  rw [level1Entry]
  cases level1Table table (p / 512) with
  | none =>
    rw [elim_none, elim_none, not_present_zero, if_neg (fun h => Bool.false_ne_true h.2)]
  | some t =>
    simp only [elim_some, level1Effect, tableEffect, pageEffect, inSlots_div_mod, Nat.div_one]
    by_cases h : span.first ≤ p ∧ p ≤ span.last
    · simp only [h, and_self, true_and, if_true]
    · simp only [h, false_and, if_false]

theorem level2Entry_walked (hq : q < 512 ^ 3) :
    level2Entry (walked span visitor table) q =
      if (span.first / 512 ≤ q ∧ q ≤ span.last / 512) ∧
          present (level2Entry table q) = true ∧ visitor.lowerTables = .free ∧
          Emptied (level1Entry (walked span visitor table)) q then 0
      else level2Entry table q := by
  have hmod : q % 512 < 512 := mod_lt q (by decide)
  rw [level2Entry, (level2Table_walked span visitor table (by omega)).raw hmod, level2Entry]
  cases ht : level2Table table (q / 512) with
  | none =>
    rw [elim_none, elim_none, ite_self]
  | some t =>
    rw [elim_some, elim_some, div_add_mod']
    refine if_congr (and_congr (inSlots_div_mod _) (and_congr_right fun hp => ?_)) rfl rfl
    rw [level1_emptied_iff span visitor hq]
    rw [level1Table, ht, bind_some, nextTable, if_pos hp]

theorem level3Entry_walked (hr : r < 512 ^ 2) :
    level3Entry (walked span visitor table) r =
      if (span.first / 512 ^ 2 ≤ r ∧ r ≤ span.last / 512 ^ 2) ∧
          present (level3Entry table r) = true ∧ visitor.lowerTables = .free ∧
          Emptied (level2Entry (walked span visitor table)) r then 0
      else level3Entry table r := by
  have hmod : r % 512 < 512 := mod_lt r (by decide)
  rw [level3Entry, (level3Table_walked span visitor table (by omega)).raw hmod, level3Entry]
  cases ht : level3Table table (r / 512) with
  | none =>
    rw [elim_none, elim_none, ite_self]
  | some t =>
    rw [elim_some, elim_some, div_add_mod']
    refine if_congr (and_congr (inSlots_div_mod _) (and_congr_right fun hp => ?_)) rfl rfl
    rw [level2_emptied_iff span visitor hr]
    rw [level2Table, ht, bind_some, nextTable, if_pos hp]

theorem level4Entry_walked (hs : s < 512) :
    level4Entry (walked span visitor table) s =
      if (span.first / 512 ^ 3 ≤ s ∧ s ≤ span.last / 512 ^ 3) ∧
          present (level4Entry table s) = true ∧ visitor.topLevel = .free ∧
          Emptied (level3Entry (walked span visitor table)) s then 0
      else level4Entry table s := by
  have hslot : span.InSlots (512 ^ 3) 0 s ↔
      span.first / 512 ^ 3 ≤ s ∧ s ≤ span.last / 512 ^ 3 := by
    simp only [PageSpan.InSlots, zero_mul, zero_add, hs, true_and]
  rw [level4Entry, walked, level4Effect, raw_result, level4Entry, zero_mul, zero_add]
  refine if_congr (and_congr hslot (and_congr_right fun hp => ?_)) rfl rfl
  rw [level3_emptied_iff span visitor hs]
  · rfl
  · rw [level3Table, nextTable, if_pos hp]

end

end Innigkeit.X64.PageTable

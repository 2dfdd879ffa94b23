import Innigkeit.X64.PageTable.View
import Innigkeit.Library.Blocks
import Mathlib.Data.List.Perm.Basic

/-!
The conditions and the other outcomes of a walk by position: which tables a walk
accepts, when it stays in the address space, which pages it flushes, and the list
of pages that it frees.
-/

namespace Innigkeit.X64.PageTable

open Zig Memory List Option Entry Perm PageSpan

variable {Next : Type}

theorem nextTable_eq_some {table : ℕ → TableEntry Next} {i : ℕ} {next : Next} :
    nextTable table i = some next ↔
      present (table i).raw = true ∧ (table i).next = next := by
  unfold nextTable
  split
  · simp_all
  · simp_all

theorem position_lt {n x k : ℕ} (hx : x < 512 ^ n) (hk : k < 512) : x * 512 + k < 512 ^ (n + 1) := by
  rw [pow_succ]
  omega

/-- A table without huge pages, whose tables are pages that were allocated, and whose pages are such
pages too if they are to be freed. -/
structure WellFormed (backingPage : CleanupDecision) (table : Level4Table) : Prop where
  level4 : ∀ s < 512, present (level4Entry table s) = true →
    huge (level4Entry table s) = false ∧ IsPage (level4Entry table s)
  level3 : ∀ r < 512 ^ 2, present (level3Entry table r) = true →
    huge (level3Entry table r) = false ∧ IsPage (level3Entry table r)
  level2 : ∀ q < 512 ^ 3, present (level2Entry table q) = true →
    huge (level2Entry table q) = false ∧ IsPage (level2Entry table q)
  level1 : backingPage = .free → ∀ p < 512 ^ 4, present (level1Entry table p) = true →
    IsPage (level1Entry table p)

/-- No loop is stopped at the index of the last address in a table that is not the last one. -/
structure Trimmed (span : PageSpan) (table : Level4Table) : Prop where
  level2 : ∀ r, span.first / 512 ^ 2 ≤ r → r ≤ span.last / 512 ^ 2 →
    present (level3Entry table r) = true → span.Trim 512 r
  level1 : ∀ q, span.first / 512 ≤ q → q ≤ span.last / 512 →
    present (level2Entry table q) = true → span.Trim 1 q

/-- The walk does not leave the address space behind the last page: it ends where the address space
does only if the entries of the last page are present. -/
def EndsInside (span : PageSpan) (table : Level4Table) : Prop :=
  span.last / 512 ^ 3 = 511 → present (level4Entry table (span.last / 512 ^ 3)) = true ∧
    (span.last / 512 ^ 2 = 512 ^ 2 - 1 →
      present (level3Entry table (span.last / 512 ^ 2)) = true ∧
      (span.last / 512 = 512 ^ 3 - 1 → present (level2Entry table (span.last / 512)) = true ∧
        span.last ≠ 512 ^ 4 - 1))

section

variable {span : PageSpan} {visitor : Visitor} {table : Level4Table}

theorem level3Table_of_present {s : ℕ} (h : present (table s).raw = true) :
    level3Table table s = some (table s).next :=
  nextTable_eq_some.mpr ⟨h, rfl⟩

variable {t : Level3Table}

theorem level2Table_of_present {s i : ℕ} (hi : i < 512) (ht : level3Table table s = some t)
    (h : present (t i).raw = true) : level2Table table (s * 512 + i) = some (t i).next := by
  have hdiv : (s * 512 + i) / 512 = s := by omega
  have hmod : (s * 512 + i) % 512 = i := by omega
  rw [level2Table, hdiv, hmod, ht]
  exact nextTable_eq_some.mpr ⟨h, rfl⟩

theorem level1Table_of_present {r i : ℕ} (hi : i < 512) {t : Level2Table}
    (ht : level2Table table r = some t) (h : present (t i).raw = true) :
    level1Table table (r * 512 + i) = some (t i).next := by
  have hdiv : (r * 512 + i) / 512 = r := by omega
  have hmod : (r * 512 + i) % 512 = i := by omega
  rw [level1Table, hdiv, hmod, ht]
  exact nextTable_eq_some.mpr ⟨h, rfl⟩

theorem level3Entry_of_table {s i : ℕ} (hi : i < 512)
    (ht : level3Table table s = some t) : level3Entry table (s * 512 + i) = (t i).raw := by
  have hdiv : (s * 512 + i) / 512 = s := by omega
  have hmod : (s * 512 + i) % 512 = i := by omega
  rw [level3Entry, hdiv, hmod, ht, elim_some]

theorem level2Entry_of_table {r i : ℕ} (hi : i < 512) {t : Level2Table}
    (ht : level2Table table r = some t) : level2Entry table (r * 512 + i) = (t i).raw := by
  have hdiv : (r * 512 + i) / 512 = r := by omega
  have hmod : (r * 512 + i) % 512 = i := by omega
  rw [level2Entry, hdiv, hmod, ht, elim_some]

theorem level1Entry_of_table {q i : ℕ} (hi : i < 512) {t : Level1Table}
    (ht : level1Table table q = some t) : level1Entry table (q * 512 + i) = t i := by
  have hdiv : (q * 512 + i) / 512 = q := by omega
  have hmod : (q * 512 + i) % 512 = i := by omega
  rw [level1Entry, hdiv, hmod, ht, elim_some]

theorem level4Effect_ok (hwf : WellFormed visitor.backingPage table) (htrim : Trimmed span table) :
    (level4Effect span visitor).Ok 0 table := by
  have hlast := span.last_lt
  refine ⟨trivial, fun s hs hp => ?_⟩
  obtain ⟨hslt, -, hshi⟩ := hs
  rw [zero_mul, zero_add] at hshi ⊢
  obtain ⟨hhuge, hpage⟩ := hwf.level4 s hslt hp
  have ht := level3Table_of_present hp
  refine ⟨hhuge, fun _ => hpage, fun hmod => .inl ?_, fun i hin hp => ?_⟩
  · rw [show 512 * 512 ^ 2 = 512 ^ 3 from rfl] at *
    omega
  have hr : s * 512 + i < 512 ^ 2 := position_lt (n := 1) hslt hin.1
  rw [← level3Entry_of_table hin.1 ht] at hp
  obtain ⟨hhuge, hpage⟩ := hwf.level3 (s * 512 + i) hr hp
  have htrim2 := htrim.level2 _ hin.2.1 hin.2.2 hp
  rw [level3Entry_of_table hin.1 ht] at hhuge hpage hp
  have ht := level2Table_of_present hin.1 ht hp
  refine ⟨hhuge, fun _ => hpage, htrim2, fun k hkin hp => ?_⟩
  have hq := position_lt hr hkin.1
  rw [← level2Entry_of_table hkin.1 ht] at hp
  obtain ⟨hhuge, hpage⟩ := hwf.level2 _ hq hp
  have htrim1 := htrim.level1 _ hkin.2.1 hkin.2.2 hp
  rw [level2Entry_of_table hkin.1 ht] at hhuge hpage hp
  have ht := level1Table_of_present hkin.1 ht hp
  refine ⟨hhuge, fun _ => hpage, htrim1, fun l hlin hp hfree => ?_⟩
  rw [← level1Entry_of_table hlin.1 ht] at hp ⊢
  exact hwf.level1 hfree _ (position_lt hq hlin.1) hp

/-- An absent entry of the last page ends the walk one slot further on. -/
private theorem skip_fits_iff (size : ℕ) (h : size = 512 ^ 3 ∨ size = 512 ^ 2 ∨ size = 512) :
    span.address (max span.first (span.last / size * size) + size) < 2 ^ 64 ↔
      span.last / size ≠ 512 ^ 4 / size - 1 := by
  have hlast := span.last_lt
  have hfirst := span.first_le
  have hbase := span.base_eq
  have hhalf := span.lower_half
  simp only [address]
  rcases h with rfl | rfl | rfl <;> omega

private theorem level1Effect_ends_iff (t : Level1Table) :
    (level1Effect span visitor).Ends t ↔ span.last ≠ 512 ^ 4 - 1 := by
  have hlast := span.last_lt
  have hbase := span.base_eq
  have hhalf := span.lower_half
  show span.base + 4096 * (span.last + 1) < 2 ^ 64 ↔ _
  omega

private theorem level2Effect_ends_iff (t : Level2Table) :
    (level2Effect span visitor).Ends t ↔
      (span.last / 512 = 512 ^ 3 - 1 → present (t (span.last / 512 % 512)).raw = true ∧
        span.last ≠ 512 ^ 4 - 1) := by
  show (if present (t (span.last / 512 % 512)).raw = true then _ else _) ↔ _
  split
  case isTrue hp =>
    rw [level1Effect_ends_iff]
    simp only [hp, true_and]
    omega
  case isFalse hp =>
    rw [skip_fits_iff 512 (by simp)]
    exact ⟨fun hne heq => absurd heq hne, fun h heq => hp (h heq).1⟩

private theorem level3Effect_ends_iff (t : Level3Table) :
    (level3Effect span visitor).Ends t ↔
      (span.last / 512 ^ 2 = 512 ^ 2 - 1 →
        present (t (span.last / 512 ^ 2 % 512)).raw = true ∧
        (level2Effect span visitor).Ends (t (span.last / 512 ^ 2 % 512)).next) := by
  show (if present (t (span.last / 512 ^ 2 % 512)).raw = true then _ else _) ↔ _
  split
  case isTrue hp =>
    rw [level2Effect_ends_iff]
    simp only [hp, true_and]
    constructor
    · exact fun h _ => h
    · intro h heq
      exact h (by omega) heq
  case isFalse hp =>
    rw [skip_fits_iff (512 ^ 2) (by simp)]
    exact ⟨fun hne heq => absurd heq hne, fun h heq => hp (h heq).1⟩

theorem level4Effect_ends_iff : (level4Effect span visitor).Ends table ↔ EndsInside span table := by
  have hlast := span.last_lt
  have hindex : span.last / 512 ^ 3 % 512 = span.last / 512 ^ 3 := by omega
  have hdiv3 : span.last / 512 ^ 2 / 512 = span.last / 512 ^ 3 := by omega
  have hdiv2 : span.last / 512 / 512 = span.last / 512 ^ 2 := by omega
  show (if present (table (span.last / 512 ^ 3 % 512)).raw = true then _ else _) ↔ _
  rw [hindex, EndsInside, level4Entry]
  split
  case isTrue hp =>
    have h3 := level3Table_of_present hp
    rw [level3Effect_ends_iff, level2Effect_ends_iff]
    simp only [hp, true_and, level3Entry, level2Entry, level2Table, hdiv3, hdiv2, h3,
      elim_some, bind_some]
    have htop : span.last / 512 ^ 2 = 512 ^ 2 - 1 → span.last / 512 ^ 3 = 511 := by omega
    constructor
    · intro h _ heq
      obtain ⟨hp2, hrest⟩ := h heq
      rw [nextTable_eq_some.mpr ⟨hp2, rfl⟩]
      exact ⟨hp2, hrest⟩
    · intro h heq
      obtain ⟨hp2, hrest⟩ := h (htop heq) heq
      rw [nextTable_eq_some.mpr ⟨hp2, rfl⟩] at hrest
      exact ⟨hp2, hrest⟩
  case isFalse hp =>
    rw [skip_fits_iff (512 ^ 3) (by simp)]
    exact ⟨fun hne heq => absurd heq hne, fun h heq => hp (h heq).1⟩

theorem level4Effect_touches {p : ℕ} (hlo : span.first ≤ p) (hhi : p ≤ span.last)
    (hp : present (level1Entry table p) = true) :
    (level4Effect span visitor).Touches 0 table p := by
  have hlast := span.last_lt
  cases h1 : level1Table table (p / 512) with
  | none =>
    rw [level1Entry, h1, elim_none, not_present_zero] at hp
    cases hp
  | some t1 =>
    obtain ⟨t2, h2, h1'⟩ := bind_eq_some_iff.mp h1
    obtain ⟨t3, h3, h2'⟩ := bind_eq_some_iff.mp h2
    obtain ⟨hp4, rfl⟩ := nextTable_eq_some.mp h3
    obtain ⟨hp3, rfl⟩ := nextTable_eq_some.mp h2'
    obtain ⟨hp2, rfl⟩ := nextTable_eq_some.mp h1'
    rw [level1Entry, h1, elim_some] at hp
    refine ⟨p / 512 / 512 / 512, ⟨by omega, by omega, by omega⟩, hp4, p / 512 / 512 % 512, ?_, hp3,
      p / 512 % 512, ?_, hp2, p % 512, ?_, hp, ?_⟩
    all_goals simp only [zero_mul, zero_add, Nat.div_add_mod']
    · exact (inSlots_div_mod _).mpr ⟨by omega, by omega⟩
    · exact (inSlots_div_mod _).mpr ⟨by omega, by omega⟩
    · exact (inSlots_div_mod _).mpr ⟨by omega, by omega⟩

end

section

variable (span : PageSpan)

def PageSpan.places (size : ℕ) : List ℕ :=
  range' (span.first / size) (span.last / size + 1 - span.first / size)

variable {span}
variable {size : ℕ} {Trim : ℕ → Prop}

theorem tableEffect_freed {E : Type} {entry : Effect E} (tableAt : ℕ → Option (ℕ → E)) :
    ((span.places (512 * size)).flatMap fun j =>
      (tableAt j).elim [] ((tableEffect span size Trim entry).freed j)).Perm
    ((span.places size).flatMap fun x =>
      (tableAt (x / 512)).elim [] fun t => entry.freed x (t (x % 512))) := by
  have hle : span.first / size ≤ span.last / size := Nat.div_le_div_right span.first_le
  have hblocks := Blocks.flatMap_part (k := 512) (by decide) hle fun x =>
    (tableAt (x / 512)).elim [] fun t => entry.freed x (t (x % 512))
  have hdiv (x : ℕ) : x / size / 512 = x / (512 * size) := by
    rw [Nat.div_div_eq_div_mul, mul_comm]
  rw [places, places, ← hblocks, hdiv, hdiv]
  refine flatMap_left _ fun j _ => ?_
  have hpart : ∀ i ∈ Blocks.part 512 (span.first / size) (span.last / size) j, i < 512 := by
    intro i hi
    rw [Blocks.part, mem_range'_1] at hi
    omega
  cases ht : tableAt j with
  | none =>
    rw [elim_none]
    refine of_eq (Eq.symm (flatMap_eq_nil_iff.mpr fun i hi => ?_))
    have hi := hpart i hi
    rw [show (j * 512 + i) / 512 = j by omega, ht, elim_none]
  | some t =>
    rw [elim_some]
    refine ((reverse_perm _).flatMap_right _).trans (of_eq ?_)
    refine flatMap_congr fun i hi => ?_
    have hi := hpart i hi
    rw [show (j * 512 + i) / 512 = j by omega, ht, elim_some, show (j * 512 + i) % 512 = i by omega]

private theorem flatMap_ite {α β : Type} (xs : List α) (c : α → Prop) [DecidablePred c] (f : α → β) :
    (xs.flatMap fun x => if c x then [f x] else []) = (xs.filter c).map f := by
  induction xs with
  | nil => rfl
  | cons x xs ih =>
    rw [flatMap_cons, ih]
    by_cases h : c x
    · simp only [h, if_true, decide_true, filter_cons, map_cons, singleton_append]
    · simp only [h, if_false, decide_false, Bool.false_eq_true, filter_cons, nil_append]

def CleanupDecision.freed (decision : CleanupDecision) (pages : List PhysicalPage) :
    List PhysicalPage :=
  if decision = .free then pages else []

/-- The pages behind the entries of a level that are present and whose tables were left empty. -/
def released (span : PageSpan) (size : ℕ) (entries below : ℕ → Raw) : List PhysicalPage :=
  ((span.places size).filter fun x => present (entries x) = true ∧ Emptied below x).map
    fun x => physicalPage (entries x)

def mappedPages (span : PageSpan) (table : Level4Table) : List PhysicalPage :=
  ((span.places 1).filter fun p => present (level1Entry table p) = true).map
    fun p => physicalPage (level1Entry table p)

theorem entryTable_freed {decision : CleanupDecision}
    {empty : Next → Bool} {below : Effect Next} {tableAt : ℕ → Option (ℕ → TableEntry Next)}
    (nextAt : ℕ → Option Next) {entries entriesBelow : ℕ → Raw}
    (hentries : ∀ x ∈ span.places size,
      entries x = (tableAt (x / 512)).elim 0 fun t => (t (x % 512)).raw)
    (hnext : ∀ x ∈ span.places size,
      nextAt x = (tableAt (x / 512)).bind fun t => nextTable t (x % 512))
    (hempty : ∀ x ∈ span.places size, ∀ t, nextAt x = some t →
      (empty (below.result x t) = true ↔ Emptied entriesBelow x)) :
    ((span.places (512 * size)).flatMap fun j => (tableAt j).elim []
      ((tableEffect span size Trim (entryEffect span size decision empty below)).freed j)).Perm
    (decision.freed (released span size entries entriesBelow) ++
      (span.places size).flatMap fun x => (nextAt x).elim [] (below.freed x)) := by
  refine (tableEffect_freed tableAt).trans ?_
  have hreleased : decision.freed (released span size entries entriesBelow) =
      (span.places size).flatMap fun x =>
        if decision = .free ∧ present (entries x) = true ∧ Emptied entriesBelow x then
          [physicalPage (entries x)] else [] := by
    rw [CleanupDecision.freed, released]
    by_cases hfree : decision = .free
    · simp only [hfree, if_true, true_and, flatMap_ite]
    · simp only [hfree, if_false, false_and]
      exact (flatMap_eq_nil_iff.mpr fun _ _ => rfl).symm
  rw [hreleased]
  refine Perm.trans (Perm.of_eq ?_) (flatMap_append_perm (span.places size) _ _).symm
  refine flatMap_congr fun x hx => ?_
  have hempty := hempty x hx
  rw [hnext x hx] at hempty ⊢
  rw [hentries x hx]
  generalize tableAt (x / 512) = o at hempty ⊢
  cases o with
  | none =>
    simp only [elim_none, bind_none, not_present_zero, Bool.false_eq_true,
      false_and, and_false, if_false, append_nil]
  | some t =>
    simp only [elim_some, bind_some, entryEffect, nextTable] at hempty ⊢
    by_cases hp : present (t (x % 512)).raw = true
    · simp only [hp, if_true, true_and, elim_some] at hempty ⊢
      congr 1
      exact if_congr (and_congr_right fun _ => hempty _ rfl) rfl rfl
    · simp only [hp, if_false, false_and, and_false, elim_none, append_nil, Bool.false_eq_true]

theorem mem_places {x : ℕ} :
    x ∈ span.places size ↔ span.first / size ≤ x ∧ x ≤ span.last / size := by
  have hle : span.first / size ≤ span.last / size := Nat.div_le_div_right span.first_le
  rw [places, mem_range'_1]
  omega

variable {visitor : Visitor} {table : Level4Table}

/-- The freed pages: the tables that were left empty, and the pages that were mapped. -/
theorem level4Effect_freed :
    ((level4Effect span visitor).freed 0 table).Perm
      (visitor.topLevel.freed (released span (512 ^ 3) (level4Entry table)
          (level3Entry (walked span visitor table))) ++
        (visitor.lowerTables.freed (released span (512 ^ 2) (level3Entry table)
            (level2Entry (walked span visitor table))) ++
          (visitor.lowerTables.freed (released span 512 (level2Entry table)
              (level1Entry (walked span visitor table))) ++
            visitor.backingPage.freed (mappedPages span table)))) := by
  have hlast := span.last_lt
  have htop : (level4Effect span visitor).freed 0 table =
      (span.places (512 * 512 ^ 3)).flatMap fun j =>
        (some table).elim [] ((level4Effect span visitor).freed j) := by
    have hfirst : span.first / (512 * 512 ^ 3) = 0 := by
      have := span.first_le
      omega
    have hlast : span.last / (512 * 512 ^ 3) = 0 := by omega
    rw [places, hfirst, hlast, Nat.sub_zero, range'_one, flatMap_singleton, elim_some]
  rw [htop]
  refine (entryTable_freed (level3Table table) ?_ ?_ ?_).trans
    (append_left _ ?_)
  · intro s hs
    rw [elim_some, level4Entry, Nat.mod_eq_of_lt (by have := mem_places.mp hs; omega)]
  · intro s hs
    rw [bind_some, level3Table, Nat.mod_eq_of_lt (by have := mem_places.mp hs; omega)]
  · intro s hs t ht
    exact level3_emptied_iff span visitor (by have := mem_places.mp hs; omega) ht
  refine (entryTable_freed (level2Table table) (fun _ _ => rfl) (fun _ _ => rfl) ?_).trans
    (append_left _ ?_)
  · intro r hr t ht
    exact level2_emptied_iff span visitor (by have := mem_places.mp hr; omega) ht
  refine (entryTable_freed (level1Table table) (fun _ _ => rfl) (fun _ _ => rfl) ?_).trans
    (append_left _ ?_)
  · intro q hq t ht
    exact level1_emptied_iff span visitor (by have := mem_places.mp hq; omega) ht
  refine (tableEffect_freed (level1Table table)).trans (of_eq ?_)
  rw [CleanupDecision.freed, mappedPages]
  by_cases hfree : visitor.backingPage = .free
  · rw [if_pos hfree, ← flatMap_ite]
    refine flatMap_congr fun p _ => ?_
    rw [level1Entry]
    cases level1Table table (p / 512) with
    | none =>
      rw [elim_none, elim_none, not_present_zero, if_neg Bool.false_ne_true]
    | some t => exact if_congr (and_iff_left hfree) rfl rfl
  · rw [if_neg hfree]
    refine flatMap_eq_nil_iff.mpr fun p _ => ?_
    cases level1Table table (p / 512) with
    | none => rfl
    | some t => simp only [elim_some, pageEffect, hfree, and_false, if_false]

end

end Innigkeit.X64.PageTable

import Innigkeit.X64.PageTable.Missed

/-!
The ranges that a walk is asked for, and whether a loop over them can be stopped too
early: it can as soon as the range has two entries of a level with the same index and
does not end with the last entry of the level below. Then there is a page behind the
stop, and a table with nothing but this page shows it.
-/

namespace Innigkeit.X64.PageTable

open Zig Memory Option PageSpan

/-- A range of at least one page inside one canonical half of the address space. -/
structure InHalf (range : VirtualRange) : Prop where
  nonempty : 0 < range.size
  aligned : range.pageAligned = true
  half : range.stop ≤ 2 ^ 47 ∨ 2 ^ 64 - 2 ^ 47 ≤ range.address ∧ range.stop ≤ 2 ^ 64

namespace InHalf

variable {range : VirtualRange}

private theorem first_le_last (h : InHalf range) :
    range.address / 4096 % 512 ^ 4 ≤ (range.stop - 1) / 4096 % 512 ^ 4 := by
  have hpos := h.nonempty
  have hhalf := h.half
  simp only [VirtualRange.stop] at *
  omega

private theorem base_cases (range : VirtualRange) :
    (if range.stop ≤ 2 ^ 47 then 0 else 0xFFFF000000000000) = 0 ∨
      (if range.stop ≤ 2 ^ 47 then 0 else 0xFFFF000000000000) = 0xFFFF000000000000 := by
  split
  · exact .inl rfl
  · exact .inr rfl

private theorem last_lt_leaves (n : ℕ) : n % 512 ^ 4 < 512 ^ 4 := Nat.mod_lt _ (by decide)

private theorem last_lt_of_base (range : VirtualRange)
    (hbase : (if range.stop ≤ 2 ^ 47 then 0 else 0xFFFF000000000000) = 0) :
    (range.stop - 1) / 4096 % 512 ^ 4 < 2 ^ 35 := by
  split at hbase
  · omega
  · cases hbase

/-- The pages of the range, counted from the first leaf of the tables. -/
def span (h : InHalf range) : PageSpan where
  base := if range.stop ≤ 2 ^ 47 then 0 else 0xFFFF000000000000
  first := range.address / 4096 % 512 ^ 4
  last := (range.stop - 1) / 4096 % 512 ^ 4
  base_eq := base_cases range
  first_le := h.first_le_last
  last_lt := last_lt_leaves _
  lower_half := last_lt_of_base range

theorem span_of (h : InHalf range) : h.span.Of range := by
  have hpos := h.nonempty
  have hhalf := h.half
  obtain ⟨haddress, hsize⟩ := VirtualRange.pageAligned_eq_true.mp h.aligned
  rw [pageAligned_iff] at haddress hsize
  have hstop := range.stop_eq
  constructor
  · simp only [address, span]
    split <;> omega
  · simp only [span]
    omega

end InHalf

/-- No loop over a range like this is stopped too early, whatever the tables are. -/
structure PageSpan.StopsRight (span : PageSpan) : Prop where
  level2 : span.last / 512 % 512 = 511 ∨ span.last / 512 ^ 2 < span.first / 512 ^ 2 + 512
  level1 : span.last % 512 = 511 ∨ span.last / 512 < span.first / 512 + 512

variable {span : PageSpan}

theorem PageSpan.StopsRight.trimmed (h : span.StopsRight) (table : Level4Table) :
    Trimmed span table := by
  constructor
  · intro r hlo hhi _ hmod
    rw [show 512 * 512 = 512 ^ 2 from rfl] at *
    have := h.level2
    omega
  · intro q hlo hhi _ hmod
    rw [mul_one, Nat.div_one] at *
    have := h.level1
    omega

open Entry

theorem absent_zero : ¬ present 0 = true := by decide

theorem present_elim {T : Type} {o : Option T} {f : T → Raw}
    (h : present (o.elim 0 f) = true) : ∃ t, o = some t ∧ o.elim 0 f = f t := by
  cases o with
  | none => exact absurd h absent_zero
  | some t => exact ⟨t, rfl, rfl⟩

section

def emptyTable : Level4Table := fun _ => ⟨0, fun _ => ⟨0, fun _ => ⟨0, fun _ => 0⟩⟩⟩

private theorem emptyTable_level3Table {s : ℕ} {t : Level3Table} :
    level3Table emptyTable s ≠ some t :=
  fun h => absent_zero (nextTable_eq_some.mp h).1

private theorem emptyTable_level2Table {r : ℕ} {t : Level2Table} :
    level2Table emptyTable r ≠ some t := by
  intro h
  obtain ⟨t3, ht3, -⟩ := bind_eq_some_iff.mp h
  exact emptyTable_level3Table ht3

theorem emptyTable_wellFormed (backing : CleanupDecision) : WellFormed backing emptyTable := by
  constructor
  · intro s _ hp
    exact absurd hp absent_zero
  · intro r _ hp
    obtain ⟨t, ht, -⟩ := present_elim hp
    exact absurd ht emptyTable_level3Table
  · intro q _ hp
    obtain ⟨t, ht, -⟩ := present_elim hp
    exact absurd ht emptyTable_level2Table
  · intro _ p _ hp
    obtain ⟨t, ht, -⟩ := present_elim hp
    obtain ⟨t2, ht2, -⟩ := bind_eq_some_iff.mp ht
    exact absurd ht2 emptyTable_level2Table

theorem emptyTable_trimmed (span : PageSpan) : Trimmed span emptyTable := by
  constructor
  · intro r _ _ hp
    obtain ⟨t, ht, -⟩ := present_elim hp
    exact absurd ht emptyTable_level3Table
  · intro q _ _ hp
    obtain ⟨t, ht, -⟩ := present_elim hp
    exact absurd ht emptyTable_level2Table

/-- A walk over absent entries up to the end of the address space leaves it. -/
theorem emptyTable_endsInside : EndsInside span emptyTable ↔ span.last / 512 ^ 3 ≠ 511 :=
  ⟨fun h heq => absent_zero (h heq).1, fun hne heq => absurd heq hne⟩

end

section

def onlyEntry {Next : Type} (i : ℕ) (raw : Raw) (next : Next) : ℕ → TableEntry Next :=
  fun k => ⟨if k = i then raw else 0, next⟩

def singleLeaf : Raw := 0x4003

def singlePageTable (p : ℕ) : Level4Table :=
  onlyEntry (p / 512 ^ 3 % 512) 0x1003 (onlyEntry (p / 512 ^ 2 % 512) 0x2003
    (onlyEntry (p / 512 % 512) 0x3003 fun k => if k = p % 512 then singleLeaf else 0))

theorem singlePageTable_hasPage (p : ℕ) : HasPage p singleLeaf (singlePageTable p) := by
  simp only [HasPage, Leads, HasLeaf, singlePageTable, onlyEntry, if_true]
  decide

variable {raw : Raw}

private theorem nextTable_onlyEntry {Next : Type} {i k : ℕ} {next t : Next}
    (h : nextTable (onlyEntry i raw next) k = some t) : t = next :=
  (nextTable_eq_some.mp h).2.symm

private theorem singlePageTable_level2Table {p r : ℕ} {t : Level2Table}
    (h : level2Table (singlePageTable p) r = some t) :
    t = onlyEntry (p / 512 % 512) 0x3003 fun k => if k = p % 512 then singleLeaf else 0 := by
  obtain ⟨t3, ht3, ht⟩ := bind_eq_some_iff.mp h
  rw [nextTable_onlyEntry ht3] at ht
  exact nextTable_onlyEntry ht

private theorem good_word {c : Prop} [Decidable c] (hgood : huge raw = false ∧ IsPage raw)
    (hp : present (if c then raw else 0) = true) :
    huge (if c then raw else 0) = false ∧ IsPage (if c then raw else 0) := by
  by_cases hc : c
  · rwa [if_pos hc]
  · rw [if_neg hc] at hp
    exact absurd hp absent_zero

theorem singlePageTable_wellFormed (backing : CleanupDecision) (p : ℕ) :
    WellFormed backing (singlePageTable p) := by
  have hgood {raw : Raw} (h : huge raw = false ∧ physicalPage raw ≤ 4) :
      huge raw = false ∧ IsPage raw :=
    ⟨h.1, Nat.lt_of_le_of_lt h.2 (by omega)⟩
  constructor
  · intro s _ hp
    exact good_word (hgood (by decide)) hp
  · intro r _ hp
    obtain ⟨t, ht, heq⟩ := present_elim hp
    rw [nextTable_onlyEntry ht] at heq
    rw [level3Entry, heq] at hp ⊢
    exact good_word (hgood (by decide)) hp
  · intro q _ hp
    obtain ⟨t, ht, heq⟩ := present_elim hp
    rw [singlePageTable_level2Table ht] at heq
    rw [level2Entry, heq] at hp ⊢
    exact good_word (hgood (by decide)) hp
  · intro _ l _ hp
    obtain ⟨t, ht, heq⟩ := present_elim hp
    obtain ⟨t2, ht2, ht1⟩ := bind_eq_some_iff.mp ht
    rw [singlePageTable_level2Table ht2] at ht1
    rw [nextTable_onlyEntry ht1] at heq
    rw [level1Entry, heq] at hp ⊢
    exact (good_word (hgood (by decide)) hp).2

theorem exists_behindStop (h : ¬ span.StopsRight) :
    ∃ p, span.first ≤ p ∧ p ≤ span.last ∧ BehindStop (span.address span.last + 4095) p := by
  have hlast := span.last_lt
  have h3 : p3Index (span.address span.last + 4095) = span.last / 512 ^ 2 % 512 :=
    @lastAddress_index span (512 ^ 2) (by decide) ⟨512, by decide⟩
  have h2 : p2Index (span.address span.last + 4095) = span.last / 512 % 512 :=
    @lastAddress_index span 512 (by decide) ⟨512 ^ 2, by decide⟩
  have h1 : p1Index (span.address span.last + 4095) = span.last % 512 := by
    have := @lastAddress_index span 1 (by decide) ⟨512 ^ 3, by decide⟩
    rwa [Nat.div_one] at this
  simp only [BehindStop, h3, h2, h1]
  by_cases h2 : span.last / 512 % 512 = 511 ∨ span.last / 512 ^ 2 < span.first / 512 ^ 2 + 512
  · have h1 : ¬ (span.last % 512 = 511 ∨ span.last / 512 < span.first / 512 + 512) :=
      fun h1 => h ⟨h2, h1⟩
    -- the last page of the level 1 table with the same index as the last one
    refine ⟨(span.last / 512 - 512) * 512 + 511, ?_, ?_, .inr ?_⟩
    all_goals omega
  · -- the last page of the level 2 table with the same index as the last one
    refine ⟨((span.last / 512 ^ 2 - 512) * 512 + 511) * 512 + 511, ?_, ?_, .inl ?_⟩
    all_goals omega

end

theorem onePage_inHalf : InHalf ⟨4096, 4096⟩ :=
  ⟨by decide, by decide, .inl (by decide)⟩

theorem onePage_stopsRight :
    onePage_inHalf.span.StopsRight ∧ onePage_inHalf.span.last / 512 ^ 3 ≠ 511 := by
  have hfirst : onePage_inHalf.span.first = 1 := rfl
  have hlast : onePage_inHalf.span.last = 1 := rfl
  rw [hlast]
  refine ⟨⟨.inr ?_, .inr ?_⟩, by decide⟩
  all_goals
    rw [hfirst, hlast]
    decide

/-- One page more than 1 GiB, from the beginning of the address space. -/
theorem gibAndPage_inHalf : InHalf ⟨0, 0x40001000⟩ :=
  ⟨by decide, by decide, .inl (by decide)⟩

theorem gibAndPage_behindStop : gibAndPage_inHalf.span.first ≤ 511 ∧
    511 ≤ gibAndPage_inHalf.span.last ∧
    BehindStop (gibAndPage_inHalf.span.address gibAndPage_inHalf.span.last + 4095) 511 := by
  refine ⟨Nat.zero_le _, ?_, ?_⟩
  · decide
  · exact .inr (by decide)

end Innigkeit.X64.PageTable

import Innigkeit.X64.PageTable.Positions

/-!
Pages that no walk reaches. A loop stops at the index of the last address whenever
the index right above it is the one of the last address, in whatever tables the
loops further up have arrived. A present page behind that index is never visited,
and the tables that lead to it are never empty, so whatever else the walk does the
page is as it was.
-/

namespace Innigkeit.X64.PageTable

open Zig Memory List Function

section

def Keeps {Item : Type} (visit : ℕ → Item → Walk → Checked (Item × Walk)) (index : ℕ)
    (P : Item → Prop) : Prop :=
  ∀ item walk item' walk', visit index item walk = .ok (item', walk') → P item → P item'

variable {E : Type} {visit : ℕ → E → Walk → Checked (E × Walk)} {P : E → Prop}

/-- The loop over a table keeps an entry if each of its visits does that come by this entry. -/
theorem visitTable_keeps {first last k : ℕ} (h : k ≤ last → Keeps visit k P) {table table' : ℕ → E}
    {walk walk' : Walk} (hrun : visitTable visit first last table walk = .ok (table', walk'))
    (hk : P (table k)) : P (table' k) := by
  have hindices : ∀ i ∈ List.range' first (last + 1 - first), i ≤ last := by
    intro i hi
    rw [mem_range'_1] at hi
    omega
  rw [visitTable] at hrun
  generalize List.range' first (last + 1 - first) = indices at hrun hindices
  induction indices generalizing table walk with
  | nil =>
    cases hrun
    exact hk
  | cons i indices ih =>
    rw [foldlM_cons] at hrun
    obtain ⟨⟨middle, walk₁⟩, hstep, hrest⟩ := bind_eq_ok.mp hrun
    obtain ⟨⟨entry, walk₂⟩, hvisit, hset⟩ := bind_eq_ok.mp hstep
    cases hset
    rw [forall_mem_cons] at hindices
    refine ih ?_ hrest hindices.2
    by_cases heq : k = i
    · subst heq
      rw [update_self]
      exact h hindices.1 _ _ _ _ hvisit hk
    · rwa [update_of_ne heq]

/-- An entry whose table is kept from being empty stays linked. -/
theorem visitEntry_keeps {Next : Type} {size index : ℕ} {decision : CleanupDecision}
    {empty : Next → Bool} {visitNext : ℕ → Next → Walk → Checked (Next × Walk)} {P : Next → Prop}
    (h : Keeps visitNext index P) (hempty : ∀ next, P next → empty next = false) :
    Keeps (visitEntry size decision empty visitNext) index
      (fun entry => Entry.present entry.raw = true ∧ P entry.next) := by
  intro entry walk entry' walk' hrun hentry
  rw [visitEntry] at hrun
  split at hrun
  · obtain ⟨w, -, hrun⟩ := bind_eq_ok.mp hrun
    obtain ⟨w, -, hrun⟩ := bind_eq_ok.mp hrun
    cases hrun
    exact hentry
  · cases hrun
  · obtain ⟨⟨next, w⟩, hnext, hrun⟩ := bind_eq_ok.mp hrun
    have hP := h _ _ _ _ hnext hentry.2
    simp only [hempty next hP, Bool.false_eq_true, and_false, if_false] at hrun
    cases hrun
    exact ⟨hentry.1, hP⟩

end

section

def HasLeaf (i : ℕ) (leaf : Raw) (table : Level1Table) : Prop := table i = leaf

def Leads {Next : Type} (i : ℕ) (P : Next → Prop) (table : ℕ → TableEntry Next) : Prop :=
  Entry.present (table i).raw = true ∧ P (table i).next

theorem HasLeaf.not_isEmpty {i : ℕ} (hi : i < 512) {leaf : Raw} (hleaf : leaf ≠ 0)
    {table : Level1Table} (h : HasLeaf i leaf table) : isEmpty id table = false := by
  refine Bool.eq_false_iff.mpr fun hempty => hleaf ?_
  rw [← h]
  exact isEmpty_eq_true.mp hempty i hi

theorem Leads.not_isEmpty {Next : Type} {i : ℕ} (hi : i < 512) {P : Next → Prop}
    {table : ℕ → TableEntry Next} (h : Leads i P table) : isEmpty TableEntry.raw table = false := by
  refine Bool.eq_false_iff.mpr fun hempty => ?_
  have hp := h.1
  rw [isEmpty_eq_true.mp hempty i hi] at hp
  cases hp

def HasPage (p : ℕ) (leaf : Raw) : Level4Table → Prop :=
  Leads (p / 512 ^ 3 % 512) (Leads (p / 512 ^ 2 % 512) (Leads (p / 512 % 512)
    (HasLeaf (p % 512) leaf)))

theorem HasPage.level1Entry {p : ℕ} (hp : p < 512 ^ 4) {leaf : Raw} {table : Level4Table}
    (h : HasPage p leaf table) : level1Entry table p = leaf := by
  obtain ⟨h4, h3, h2, h1⟩ := h
  have hindex (x : ℕ) : x % 512 < 512 := Nat.mod_lt x (by decide)
  have hr : p / 512 ^ 3 % 512 * 512 + p / 512 ^ 2 % 512 = p / 512 ^ 2 := by omega
  have hq : p / 512 ^ 2 * 512 + p / 512 % 512 = p / 512 := by
    rw [Nat.pow_two, ← Nat.div_div_eq_div_mul, Nat.div_add_mod']
  have ht3 := level3Table_of_present h4
  have ht2 := level2Table_of_present (hindex (p / 512 ^ 2)) ht3 h3
  rw [hr] at ht2
  have ht1 := level1Table_of_present (hindex (p / 512)) ht2 h2
  rw [hq] at ht1
  rw [PageTable.level1Entry, ht1, Option.elim_some]
  exact h1

def BehindStop (lastAddress p : ℕ) : Prop :=
  (p3Index lastAddress = p / 512 ^ 2 % 512 ∧ p2Index lastAddress < p / 512 % 512) ∨
    (p2Index lastAddress = p / 512 % 512 ∧ p1Index lastAddress < p % 512)

variable {visitor : Visitor} {lastAddress p : ℕ} {leaf : Raw}

private theorem visitLevel1_keeps (hstop : BehindStop lastAddress p)
    (hreach : ¬ (p3Index lastAddress = p / 512 ^ 2 % 512 ∧ p2Index lastAddress < p / 512 % 512)) :
    Keeps (visitLevel1 visitor lastAddress) (p / 512 % 512) (HasLeaf (p % 512) leaf) := by
  intro table walk table' walk' hrun hleaf
  refine visitTable_keeps (P := fun entry => entry = leaf) (fun hle => ?_) hrun hleaf
  cases hstop with
  | inl hstop => exact absurd hstop hreach
  | inr hstop =>
    rw [lastIndex, if_pos hstop.1] at hle
    omega

private theorem visitLevel2_keeps (hleaf : leaf ≠ 0) (hstop : BehindStop lastAddress p) :
    Keeps (visitLevel2 visitor lastAddress) (p / 512 ^ 2 % 512)
      (Leads (p / 512 % 512) (HasLeaf (p % 512) leaf)) := by
  intro table walk table' walk' hrun hpage
  refine visitTable_keeps (fun hle => visitEntry_keeps (visitLevel1_keeps hstop fun hno => ?_)
    fun next h => h.not_isEmpty (Nat.mod_lt _ (by decide)) hleaf) hrun hpage
  rw [lastIndex, if_pos hno.1] at hle
  omega

/-- A present page behind the stop of a loop is still there after every walk that returns. -/
theorem visitLevel4_keeps (hleaf : leaf ≠ 0) (hstop : BehindStop lastAddress p)
    {table table' : Level4Table} {walk walk' : Walk}
    (hrun : visitLevel4 visitor lastAddress table walk = .ok (table', walk'))
    (hpage : HasPage p leaf table) : HasPage p leaf table' := by
  have hindex (x : ℕ) : x % 512 < 512 := Nat.mod_lt x (by decide)
  have hlevel3 : Keeps (visitLevel3 visitor lastAddress) (p / 512 ^ 3 % 512)
      (Leads (p / 512 ^ 2 % 512) (Leads (p / 512 % 512) (HasLeaf (p % 512) leaf))) := by
    intro table walk table' walk' hrun hpage
    exact visitTable_keeps (fun _ => visitEntry_keeps (visitLevel2_keeps hleaf hstop)
      fun next h => h.not_isEmpty (hindex _)) hrun hpage
  exact visitTable_keeps (fun _ => visitEntry_keeps hlevel3
    fun next h => h.not_isEmpty (hindex _)) hrun hpage

theorem visitRange_keeps {span : PageSpan} {range : VirtualRange} (hspan : span.Of range)
    (hleaf : leaf ≠ 0) (hstop : BehindStop (span.address span.last + 4095) p)
    {table table' : Level4Table} {flushBatch : VirtualRangeBatch} {pages : List PhysicalPage}
    {walk : Walk} (hrun : visitRange visitor table range flushBatch pages = .ok (table', walk))
    (hpage : HasPage p leaf table) : HasPage p leaf table' := by
  rw [visitRange] at hrun
  obtain ⟨-, -, hrun⟩ := bind_eq_ok.mp hrun
  rw [hspan.last_eq, ok_bind] at hrun
  obtain ⟨⟨table₁, walk₁⟩, hvisit, hrun⟩ := bind_eq_ok.mp hrun
  obtain ⟨walk₂, -, hrun⟩ := bind_eq_ok.mp hrun
  cases hrun
  exact visitLevel4_keeps hleaf hstop hvisit hpage

end

end Innigkeit.X64.PageTable

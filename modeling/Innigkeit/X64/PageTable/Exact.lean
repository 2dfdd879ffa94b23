import Innigkeit.X64.PageTable.Ranges

/-!
Unmapping and changing the protection of a range are exact on every table in
which no loop is stopped too early, unless the walk leaves the address space
behind the last page.
-/

namespace Innigkeit.X64.PageTable

open Zig Memory Entry

def Precedes (flushBatch : VirtualRangeBatch) (range : VirtualRange) : Prop :=
  ∀ last ∈ flushBatch.head?, last.stop ≤ range.address

theorem precedes_nil (range : VirtualRange) : Precedes [] range := by
  intro last hlast
  cases hlast

section

variable (span : PageSpan) (range : VirtualRange) (table : Level4Table)
  (backing top : CleanupDecision) (flushBatch : VirtualRangeBatch) (pages : List PhysicalPage)

/-- An entry of a level is cleared, if the decision is so, exactly if it was on the way to the span
and its table was left empty. -/
def Unlinks (decision : CleanupDecision) (size count : ℕ) (entries entries' below : ℕ → Raw) :
    Prop :=
  ∀ x < count, entries' x =
    if (span.first / size ≤ x ∧ x ≤ span.last / size) ∧ present (entries x) = true ∧
      decision = .free ∧ Emptied below x then 0
    else entries x

/-- The pages of the span are unmapped and nothing else is. -/
structure Unmapped (table' : Level4Table) (flushBatch' : VirtualRangeBatch)
    (freed : List PhysicalPage) : Prop where
  cleared : ∀ p, span.first ≤ p → p ≤ span.last → present (level1Entry table' p) = false
  kept : ∀ p < 512 ^ 4, ¬ (span.first ≤ p ∧ p ≤ span.last) →
    level1Entry table' p = level1Entry table p
  level2 : Unlinks span .free 512 (512 ^ 3) (level2Entry table) (level2Entry table')
    (level1Entry table')
  level3 : Unlinks span .free (512 ^ 2) (512 ^ 2) (level3Entry table) (level3Entry table')
    (level2Entry table')
  level4 : Unlinks span top (512 ^ 3) 512 (level4Entry table) (level4Entry table')
    (level3Entry table')
  freed : freed.Perm (top.freed (released span (512 ^ 3) (level4Entry table) (level3Entry table')) ++
    (released span (512 ^ 2) (level3Entry table) (level2Entry table') ++
      (released span 512 (level2Entry table) (level1Entry table') ++
        backing.freed (mappedPages span table))))
  flushed : ∀ p, span.first ≤ p → p ≤ span.last → present (level1Entry table p) = true →
    ∀ address, VirtualRange.Contains ⟨span.address p, 4096⟩ address → flushBatch'.Covers address

/-- Unmapping returns, and it has unmapped the pages of the span and nothing else. -/
def Unmaps : Prop :=
  ∃ table' flushBatch' freed,
    unmap table range backing top flushBatch pages = .ok (table', flushBatch', freed ++ pages) ∧
      Unmapped span table backing top table' flushBatch' freed

variable {span range table backing top flushBatch pages}

theorem unmaps_iff_endsInside (hspan : span.Of range) (hwf : WellFormed backing table)
    (hbatch : Precedes flushBatch range) (htrim : Trimmed span table) :
    Unmaps span range table backing top flushBatch pages ↔ EndsInside span table := by
  have hlast := span.last_lt
  obtain ⟨hrun, htrap⟩ := @visitRange_spec span (unmapVisitor backing top) range table flushBatch
    pages hspan (level4Effect_ok hwf htrim) hbatch
  rw [level4Effect_ends_iff] at hrun htrap
  constructor
  · intro hunmaps
    obtain ⟨table', flushBatch', freed, hunmap, -⟩ := hunmaps
    refine Classical.byContradiction fun hends => ?_
    obtain ⟨trap, htrap⟩ := htrap hends
    rw [unmap, htrap] at hunmap
    cases hunmap
  · intro hends
    obtain ⟨walk, hwalk, hpages, hcovers⟩ := hrun hends
    refine ⟨walked span (unmapVisitor backing top) table, walk.flushBatch,
      (level4Effect span (unmapVisitor backing top)).freed 0 table, ?_, ?_⟩
    · rw [unmap, hwalk, ok_bind, ← hpages]
      rfl
    · constructor
      · intro p hlo hhi
        rw [level1Entry_walked _ _ _ (by omega)]
        by_cases hp : present (level1Entry table p) = true
        · rw [if_pos ⟨⟨hlo, hhi⟩, hp⟩]
          exact not_present_zero
        · rw [if_neg fun h => hp h.2]
          exact Bool.eq_false_iff.mpr hp
      · intro p hp hout
        rw [level1Entry_walked _ _ _ hp, if_neg fun h => hout h.1]
      · intro q hq
        exact level2Entry_walked _ _ _ hq
      · intro r hr
        exact level3Entry_walked _ _ _ hr
      · intro s hs
        exact level4Entry_walked _ _ _ hs
      · exact level4Effect_freed
      · intro p hlo hhi hp
        exact hcovers rfl p (level4Effect_touches hlo hhi hp)

theorem not_unmaps_of_behindStop (hspan : span.Of range) {p : ℕ} (hlo : span.first ≤ p)
    (hhi : p ≤ span.last) (hstop : BehindStop (span.address span.last + 4095) p) {leaf : Raw}
    (hleaf : present leaf = true) (hpage : HasPage p leaf table) :
    ¬ Unmaps span range table backing top flushBatch pages := by
  intro hunmaps
  obtain ⟨table', flushBatch', freed, hunmap, hunmapped⟩ := hunmaps
  obtain ⟨⟨table₁, walk⟩, hrun, hret⟩ := bind_eq_ok.mp hunmap
  obtain rfl : table₁ = table' := congrArg Prod.fst (Except.ok.inj hret)
  have hne : leaf ≠ 0 := fun heq => absent_zero (heq ▸ hleaf)
  have hkept := visitRange_keeps hspan hne hstop hrun hpage
  have hclear := hunmapped.cleared p hlo hhi
  rw [hkept.level1Entry (lt_of_le_of_lt hhi span.last_lt), hleaf] at hclear
  cases hclear

/-- Unmapping is exact on every table exactly for the ranges over which no loop can be stopped too
early and which end before the last top-level entry; on a table in which no loop is stopped too
early it is exact exactly if the walk stays in the address space. -/
theorem unmap_exact_iff (h : InHalf range) :
    (∀ table backing top flushBatch pages, WellFormed backing table → Precedes flushBatch range →
      Trimmed h.span table →
        (Unmaps h.span range table backing top flushBatch pages ↔ EndsInside h.span table)) ∧
    ((∀ table backing top flushBatch pages, WellFormed backing table → Precedes flushBatch range →
      Unmaps h.span range table backing top flushBatch pages) ↔
        h.span.StopsRight ∧ h.span.last / 512 ^ 3 ≠ 511) := by
  have hnil := precedes_nil range
  refine ⟨fun _ _ _ _ _ hwf hbatch htrim => unmaps_iff_endsInside h.span_of hwf hbatch htrim,
    ?_, ?_⟩
  · intro hall
    constructor
    · refine Classical.byContradiction fun hstops => ?_
      obtain ⟨p, hlo, hhi, hstop⟩ := exists_behindStop hstops
      exact not_unmaps_of_behindStop h.span_of hlo hhi hstop (by decide)
        (singlePageTable_hasPage p)
        (hall _ .free .free [] [] (singlePageTable_wellFormed _ p) hnil)
    · have hunmaps := hall emptyTable .free .free [] [] (emptyTable_wellFormed _) hnil
      exact emptyTable_endsInside.mp ((unmaps_iff_endsInside h.span_of (emptyTable_wellFormed _)
        hnil (emptyTable_trimmed _)).mp hunmaps)
  · intro hcond table backing top flushBatch pages hwf hbatch
    exact (unmaps_iff_endsInside h.span_of hwf hbatch (hcond.1.trimmed table)).mpr
      fun heq => absurd heq hcond.2

theorem unmap_exact_page : ∃ h : InHalf ⟨4096, 4096⟩,
    Unmaps h.span ⟨4096, 4096⟩ (singlePageTable 1) .free .free [] [] := by
  exact ⟨onePage_inHalf, (unmap_exact_iff onePage_inHalf).2.mpr onePage_stopsRight
    _ _ _ _ _ (singlePageTable_wellFormed _ 1) (precedes_nil _)⟩

/-- Unmapping one page more than 1 GiB leaves the last page of the first 2 MiB mapped. -/
theorem unmap_leaves_page_mapped : ∃ h : InHalf ⟨0, 0x40001000⟩,
    WellFormed .free (singlePageTable 511) ∧
    ¬ Unmaps h.span ⟨0, 0x40001000⟩ (singlePageTable 511) .free .free [] [] := by
  obtain ⟨hlo, hhi, hstop⟩ := gibAndPage_behindStop
  refine ⟨gibAndPage_inHalf, singlePageTable_wellFormed _ 511, ?_⟩
  exact not_unmaps_of_behindStop gibAndPage_inHalf.span_of hlo hhi hstop (by decide)
    (singlePageTable_hasPage 511)

end

section

variable (executeDisable : Bool) (span : PageSpan) (range : VirtualRange) (table : Level4Table)
  (previous new : MapType) (flushBatch : VirtualRangeBatch)

def readOnlyUser : MapType := { type := .user, protection := { read := true } }

def readWriteUser : MapType := { type := .user, protection := { read := true, write := true } }

theorem singleLeaf_writeable : ¬ HasMapType executeDisable singleLeaf readOnlyUser := by
  intro h
  exact absurd h.writeable (by decide)

/-- The present pages of the span have the new map type, and nothing else is changed. -/
structure Reprotected (table' : Level4Table) (flushBatch' : VirtualRangeBatch) : Prop where
  changed : ∀ p, span.first ≤ p → p ≤ span.last → present (level1Entry table p) = true →
    getAddress4kib (level1Entry table' p) = getAddress4kib (level1Entry table p) ∧
      HasMapType executeDisable (level1Entry table' p) new
  kept : ∀ p < 512 ^ 4,
    ¬ ((span.first ≤ p ∧ p ≤ span.last) ∧ present (level1Entry table p) = true) →
      level1Entry table' p = level1Entry table p
  level2 : ∀ q < 512 ^ 3, level2Entry table' q = level2Entry table q
  level3 : ∀ r < 512 ^ 2, level3Entry table' r = level3Entry table r
  level4 : ∀ s < 512, level4Entry table' s = level4Entry table s
  flushed : needToFlush previous new = true → ∀ p, span.first ≤ p → p ≤ span.last →
    present (level1Entry table p) = true →
      ∀ address, VirtualRange.Contains ⟨span.address p, 4096⟩ address → flushBatch'.Covers address

/-- Changing the protection returns, and it has changed the pages of the span and nothing else. -/
def Reprotects : Prop :=
  ∃ table' flushBatch',
    changeProtection executeDisable table range previous new flushBatch =
      .ok (table', flushBatch') ∧
    Reprotected executeDisable span table previous new table' flushBatch'

variable {executeDisable span range table previous new flushBatch}

theorem reprotects_iff_endsInside (hspan : span.Of range) (hwf : WellFormed .keep table)
    (hbatch : Precedes flushBatch range) (htrim : Trimmed span table) :
    Reprotects executeDisable span range table previous new flushBatch ↔
      EndsInside span table := by
  have hlast := span.last_lt
  obtain ⟨visitor, hvisitor⟩ : ∃ visitor : Visitor,
    visitor = changeProtectionVisitor executeDisable previous new := ⟨_, rfl⟩
  have hkeep : visitor.lowerTables ≠ .free ∧ visitor.topLevel ≠ .free := by
    rw [hvisitor]
    constructor <;>
      intro h <;>
      cases h
  have hok : (level4Effect span visitor).Ok 0 table := by
    rw [hvisitor]
    exact level4Effect_ok hwf htrim
  obtain ⟨hrun, htrap⟩ := @visitRange_spec span visitor range table flushBatch [] hspan hok hbatch
  rw [level4Effect_ends_iff] at hrun htrap
  constructor
  · intro hreprotects
    obtain ⟨table', flushBatch', hchange, -⟩ := hreprotects
    refine Classical.byContradiction fun hends => ?_
    obtain ⟨trap, htrap⟩ := htrap hends
    rw [changeProtection, ← hvisitor, htrap] at hchange
    cases hchange
  · intro hends
    obtain ⟨walk, hwalk, -, hcovers⟩ := hrun hends
    refine ⟨walked span visitor table, walk.flushBatch, ?_, ?_⟩
    · rw [changeProtection, ← hvisitor, hwalk, ok_bind]
      rfl
    · constructor
      · intro p hlo hhi hp
        rw [level1Entry_walked _ _ _ (by omega), if_pos ⟨⟨hlo, hhi⟩, hp⟩, hvisitor]
        exact ⟨applyMapType_address _ _ _, applyMapType_hasMapType _ _ _⟩
      · intro p hp hout
        rw [level1Entry_walked _ _ _ hp, if_neg hout]
      · intro q hq
        rw [level2Entry_walked _ _ _ hq, if_neg fun h => hkeep.1 h.2.2.1]
      · intro r hr
        rw [level3Entry_walked _ _ _ hr, if_neg fun h => hkeep.1 h.2.2.1]
      · intro s hs
        rw [level4Entry_walked _ _ _ hs, if_neg fun h => hkeep.2 h.2.2.1]
      · intro hflush p hlo hhi hp
        exact hcovers (by rw [hvisitor]; exact hflush) p (level4Effect_touches hlo hhi hp)

theorem not_reprotects_of_behindStop (hspan : span.Of range) {p : ℕ} (hlo : span.first ≤ p)
    (hhi : p ≤ span.last) (hstop : BehindStop (span.address span.last + 4095) p) {leaf : Raw}
    (hleaf : present leaf = true) (hold : ¬ HasMapType executeDisable leaf new)
    (hpage : HasPage p leaf table) :
    ¬ Reprotects executeDisable span range table previous new flushBatch := by
  intro hreprotects
  obtain ⟨table', flushBatch', hchange, hreprotected⟩ := hreprotects
  obtain ⟨⟨table₁, walk⟩, hrun, hret⟩ := bind_eq_ok.mp hchange
  cases hret
  have hp := lt_of_le_of_lt hhi span.last_lt
  have hne : leaf ≠ 0 := fun heq => absent_zero (heq ▸ hleaf)
  have hkept := visitRange_keeps hspan hne hstop hrun hpage
  have hpresent : present (level1Entry table p) = true := by
    rw [hpage.level1Entry hp, hleaf]
  have hnew := (hreprotected.changed p hlo hhi hpresent).2
  rw [hkept.level1Entry hp] at hnew
  exact hold hnew

/-- Changing the protection is exact on every table exactly for the ranges for which unmapping is,
and on a table in which no loop is stopped too early exactly if the walk stays in the address space.
-/
theorem changeProtection_exact_iff (h : InHalf range) :
    (∀ executeDisable table previous new flushBatch, WellFormed .keep table →
      Precedes flushBatch range → Trimmed h.span table →
        (Reprotects executeDisable h.span range table previous new flushBatch ↔
          EndsInside h.span table)) ∧
    ((∀ executeDisable table previous new flushBatch, WellFormed .keep table →
      Precedes flushBatch range →
        Reprotects executeDisable h.span range table previous new flushBatch) ↔
          h.span.StopsRight ∧ h.span.last / 512 ^ 3 ≠ 511) := by
  have hnil := precedes_nil range
  refine ⟨fun _ _ _ _ _ hwf hbatch htrim => reprotects_iff_endsInside h.span_of hwf hbatch htrim,
    ?_, ?_⟩
  · intro hall
    constructor
    · refine Classical.byContradiction fun hstops => ?_
      obtain ⟨p, hlo, hhi, hstop⟩ := exists_behindStop hstops
      exact not_reprotects_of_behindStop h.span_of hlo hhi hstop (by decide)
        (singleLeaf_writeable true) (singlePageTable_hasPage p)
        (hall true _ readWriteUser readOnlyUser [] (singlePageTable_wellFormed _ p) hnil)
    · have hreprotects :=
        hall true emptyTable readWriteUser readOnlyUser [] (emptyTable_wellFormed _) hnil
      exact emptyTable_endsInside.mp ((reprotects_iff_endsInside h.span_of
        (emptyTable_wellFormed _) hnil (emptyTable_trimmed _)).mp hreprotects)
  · intro hcond executeDisable table previous new flushBatch hwf hbatch
    exact (reprotects_iff_endsInside h.span_of hwf hbatch (hcond.1.trimmed table)).mpr
      fun heq => absurd heq hcond.2

theorem changeProtection_exact_page : ∃ h : InHalf ⟨4096, 4096⟩,
    Reprotects true h.span ⟨4096, 4096⟩ (singlePageTable 1) readWriteUser readOnlyUser [] := by
  exact ⟨onePage_inHalf, (changeProtection_exact_iff onePage_inHalf).2.mpr onePage_stopsRight
    _ _ _ _ _ (singlePageTable_wellFormed _ 1) (precedes_nil _)⟩

/-- Write protecting one page more than 1 GiB leaves the last page of the first 2 MiB writeable. -/
theorem changeProtection_leaves_page_writeable : ∃ h : InHalf ⟨0, 0x40001000⟩,
    WellFormed .keep (singlePageTable 511) ∧
    ¬ Reprotects true h.span ⟨0, 0x40001000⟩ (singlePageTable 511) readWriteUser readOnlyUser
      [] := by
  obtain ⟨hlo, hhi, hstop⟩ := gibAndPage_behindStop
  refine ⟨gibAndPage_inHalf, singlePageTable_wellFormed _ 511, ?_⟩
  exact not_reprotects_of_behindStop gibAndPage_inHalf.span_of hlo hhi hstop (by decide)
    (singleLeaf_writeable true) (singlePageTable_hasPage 511)

end

end Innigkeit.X64.PageTable

import Innigkeit.Memory.AddressSpace.EntrySteps

/-!
The removal of an entry, which may destroy its anonymous map, and the insertion
of a new one.
-/

namespace Innigkeit.Memory

open Zig List Function Entry AnonMap

open AddressSpace

section

/-- The heap after pages with a single reference were released. -/
def Heap.dropPages (heap : Heap) (ids : List AnonPageId) : Heap :=
  { heap with anonymousPages := fun id => if id ∈ ids then none else heap.anonymousPages id }

private theorem dropPages_cons (heap : Heap) (id : AnonPageId) (ids : List AnonPageId) :
    Heap.dropPages { heap with anonymousPages := update heap.anonymousPages id none } ids =
      heap.dropPages (id :: ids) := by
  simp only [Heap.dropPages, Heap.mk.injEq, true_and, and_true]
  funext id'
  by_cases heq : id' = id
  · simp [heq]
  · simp [heq]

theorem AnonMap.releasePages_eq (slots : List (ℕ × AnonPageId)) (heap : Heap)
    (pages : List PhysicalPage)
    (hlive : ∀ slot ∈ slots, ∃ page, heap.anonymousPages slot.2 = some page ∧
      page.referenceCount = 1)
    (hnodup : (slots.map Prod.snd).Nodup) :
    ∃ pages', releasePages slots heap pages = .ok (heap.dropPages (slots.map Prod.snd), pages') := by
  induction slots generalizing heap pages with
  | nil => exact ⟨pages, by simp [releasePages, Heap.dropPages]⟩
  | cons slot slots ih =>
    obtain ⟨i, id⟩ := slot
    simp only [forall_mem_cons] at hlive
    obtain ⟨⟨page, hpage, hone⟩, hlive⟩ := hlive
    rw [map_cons, nodup_cons] at hnodup
    have hdec : AnonPage.decrementReferenceCount heap id pages = .ok
        ({ heap with anonymousPages := update heap.anonymousPages id none },
          page.physicalPage :: pages) := by
      simp [AnonPage.decrementReferenceCount, Heap.anonymousPage, unwrap, hpage, assert, hone]
    obtain ⟨pages', hrest⟩ := ih
      { heap with anonymousPages := update heap.anonymousPages id none }
      (page.physicalPage :: pages) (fun slot hslot => by
        have hne : slot.2 ≠ id := fun h => hnodup.1 (mem_map.mpr ⟨slot, hslot, h⟩)
        simpa [update_of_ne hne] using hlive slot hslot) hnodup.2
    refine ⟨pages', ?_⟩
    simp only [releasePages, hdec, ok_bind, hrest, dropPages_cons, map_cons]

variable {limit : ℕ} {heap : Heap} {entry : Entry} {pre post : List Entry} {id : AnonMapId}
  {map : AnonMap}

private theorem Heap.Good.destroy (h : heap.Good) (hmap : heap.anonymousMaps id = some map) :
    Heap.Good { heap.dropPages (map.anonymousPageChunks.map Prod.snd) with
      anonymousMaps := update heap.anonymousMaps id none } := by
  have hget (id' : AnonMapId) (map' : AnonMap)
      (hm : update heap.anonymousMaps id none id' = some map') :
      id' ≠ id ∧ heap.anonymousMaps id' = some map' := by
    by_cases heq : id' = id
    · subst heq
      simp at hm
    · rw [update_of_ne heq] at hm
      exact ⟨heq, hm⟩
  constructor
  case maps =>
    intro id' map' hm
    obtain ⟨hne, hm'⟩ := hget id' map' hm
    refine { h.maps id' map' hm' with live := fun slot hslot => ?_ }
    have hnot : slot.2 ∉ map.anonymousPageChunks.map Prod.snd := by
      rw [mem_map]
      rintro ⟨slot', hslot', heq⟩
      exact h.disjoint id' id map' map hne hm' hmap slot hslot slot' hslot' heq.symm
    simp only [Heap.dropPages, hnot, if_false]
    exact (h.maps id' map' hm').live slot hslot
  case disjoint =>
    intro id1 id2 map1 map2 hne h1 h2
    exact h.disjoint id1 id2 map1 map2 hne (hget id1 map1 h1).2 (hget id2 map2 h2).2
  case freshMap =>
    intro id' hid'
    by_cases heq : id' = id
    · subst heq
      simp
    · simpa [update_of_ne heq] using h.freshMap id' hid'
  case freshPage =>
    intro id' hid'
    simp [Heap.dropPages, h.freshPage id' hid']
  case noObjects => exact h.noObjects

theorem Consistent.release (h : Consistent limit heap (pre ++ [entry] ++ post))
    (pages : List PhysicalPage) : ∃ heap' pages',
      releaseEntry heap entry pages = .ok (heap', pages') ∧
        Consistent limit heap' (pre ++ post) := by
  have hg : entry.Good limit heap := h.entry entry (by simp)
  have hsub : (pre ++ post).Sublist (pre ++ [entry] ++ post) := by
    simp
  have hord : (pre ++ post).Pairwise Entry.Precedes := h.ordered.sublist hsub
  have hcount (id : AnonMapId) : (pre ++ [entry] ++ post).countP (refersTo id) =
      (pre ++ post).countP (refersTo id) +
        (if entry.anonymousMap = some id then 1 else 0) := by
    simp only [countP_append, countP_cons, countP_nil, refersTo, beq_iff_eq]
    split <;> omega
  cases hid : entry.anonymousMapReference.anonymousMap with
  | none =>
    refine ⟨heap, pages, ?_, fun e he => h.entry e (hsub.subset he), hord, fun id map hmap => ?_,
      h.heap⟩
    · simp only [releaseEntry, hid, hg.noObject, ok_bind, pure_eq_ok]
    · rw [h.references id map hmap, hcount, anonymousMap, hid, if_neg (by simp), add_zero]
  | some id =>
    obtain ⟨-, map, hmap, -⟩ := hg.window id hid
    have href := h.references id map hmap
    rw [hcount, if_pos hid] at href
    have hne0 : map.referenceCount ≠ 0 := by omega
    by_cases hone : map.referenceCount = 1
    · have hm := h.heap.maps id map hmap
      obtain ⟨pages', hrel⟩ := releasePages_eq map.anonymousPageChunks heap pages hm.live
        hm.pages
      refine ⟨{ heap.dropPages (map.anonymousPageChunks.map Prod.snd) with
        anonymousMaps := update heap.anonymousMaps id none }, pages', ?_, ?_⟩
      · simp only [releaseEntry, hid, hg.noObject, decrementReferenceCount,
          Heap.anonymousMap_eq_ok.mpr hmap, hone, if_true, hrel, ok_bind, pure_eq_ok]
        rfl
      · have hnot : ∀ e ∈ pre ++ post, e.anonymousMap ≠ some id := by
          have hzero : (pre ++ post).countP (refersTo id) = 0 := by omega
          rw [countP_eq_zero] at hzero
          exact fun e he hide => hzero e he (refersTo_iff.mpr hide)
        refine ⟨fun e he => (h.entry e (hsub.subset he)).mono fun id' map' hid' hm' => ?_, hord,
          fun id' map' hm' => ?_, h.heap.destroy hmap⟩
        · have hne : id' ≠ id := fun heq => hnot e he (heq ▸ hid')
          exact ⟨map', by simpa [update_of_ne hne] using hm', le_rfl⟩
        · by_cases heq : id' = id
          · subst heq
            simp at hm'
          · rw [h.references id' map' (by simpa [update_of_ne heq] using hm'), hcount,
              anonymousMap, hid, if_neg (by simpa using Ne.symm heq), add_zero]
    · refine ⟨heap.setAnonymousMap id { map with referenceCount := map.referenceCount - 1 }, pages,
        ?_, ?_⟩
      · simp only [releaseEntry, hid, hg.noObject, decrementReferenceCount,
          Heap.anonymousMap_eq_ok.mpr hmap, assert_of hne0, hone, if_false, ok_bind, pure_eq_ok]
      · refine h.setCounts hmap le_rfl (h.heap.maps id map hmap).pageCount
          (fun e he => (h.entry e (hsub.subset he)).setCounts hmap le_rfl) hord
          (by omega) (fun id' hne => ?_)
        rw [hcount id', anonymousMap, hid, if_neg (by simpa using hne.symm), add_zero]

end

/-- A new entry has no map yet, so it only has to fit between its neighbours. -/
theorem Consistent.insert {limit : ℕ} {heap : Heap} {entry : Entry} {pre post : List Entry}
    (h : Consistent limit heap (pre ++ post)) (hg : entry.Good limit heap)
    (hnone : entry.anonymousMap = none) (hpre : ∀ x ∈ pre, x.range.stop ≤ entry.range.address)
    (hpost : ∀ y ∈ post, entry.range.stop ≤ y.range.address) :
    Consistent limit heap (pre ++ [entry] ++ post) where
  entry e he := by
    simp only [mem_append, mem_singleton] at he
    rcases he with (he | rfl) | he
    · exact h.entry e (by simp [he])
    · exact hg
    · exact h.entry e (by simp [he])
  ordered := by
    have hord := h.ordered
    simp only [pairwise_append, mem_append, mem_singleton, pairwise_singleton, true_and] at hord ⊢
    obtain ⟨h1, h2, h3⟩ := hord
    refine ⟨⟨h1, ?_⟩, h2, ?_⟩
    · rintro x hx y rfl
      exact ⟨hpre x hx, fun id _ hid => by simp [hnone] at hid⟩
    · rintro x (hx | rfl) y hy
      · exact h3 x hx y hy
      · exact ⟨hpost y hy, fun id hid _ => by simp [hnone] at hid⟩
  references id map hmap := by
    rw [h.references id map hmap]
    simp [countP_append, refersTo, hnone]
  heap := h.heap

end Innigkeit.Memory

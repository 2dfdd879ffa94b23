import Innigkeit.Memory.AddressSpace.EntrySteps
import Innigkeit.Memory.AddressSpace.FreeRange
import Mathlib.Data.Finset.Card

/-!
What a page fault does to the heap: it gives an entry without an anonymous map
one of its own, or fills the slot of the faulting page with a fresh page. The
slot lies in the window of the entry, so its index is a 32-bit number below the
page count of the map, and the count of used pages has room for one more.
-/

namespace Innigkeit.Memory

open Zig List Option Function AnonMap

section

variable {limit : ℕ} {heap heap' : Heap} {entries : List Entry}

theorem Consistent.heapStep (h : Consistent limit heap entries) (hgood : heap'.Good)
    (hold : ∀ id map', heap'.anonymousMaps id = some map' →
      ∃ map, heap.anonymousMaps id = some map ∧ map'.referenceCount = map.referenceCount)
    (hnew : ∀ id map, heap.anonymousMaps id = some map →
      ∃ map', heap'.anonymousMaps id = some map' ∧ map.numberOfPages ≤ map'.numberOfPages) :
    Consistent limit heap' entries where
  entry e he := (h.entry e he).mono fun id map _ hmap => hnew id map hmap
  ordered := h.ordered
  references id map' hmap' := by
    obtain ⟨map, hmap, hcount⟩ := hold id map' hmap'
    rw [hcount, h.references id map hmap]
  heap := hgood

def Heap.addPage (heap : Heap) (page : PhysicalPage) : Heap :=
  { heap.setAnonymousPage heap.nextAnonymousPage { physicalPage := page } with
    nextAnonymousPage := heap.nextAnonymousPage + 1 }

theorem AnonPage.create_eq {allocation : Allocation} {page : PhysicalPage} :
    AnonPage.create allocation heap page =
      if allocation.succeeds .anonymousPage then
        some (heap.nextAnonymousPage, heap.addPage page) else none := rfl

variable {id : AnonMapId} {map : AnonMap} {slot : ℕ}

theorem Heap.Good.slot_ne_fresh (h : heap.Good) (hmap : heap.anonymousMaps id = some map)
    {slot : ℕ × AnonPageId} (hslot : slot ∈ map.anonymousPageChunks) :
    slot.2 ≠ heap.nextAnonymousPage := by
  obtain ⟨page, hpage, -⟩ := (h.maps id map hmap).live slot hslot
  intro heq
  rw [heq, h.freshPage _ le_rfl] at hpage
  cases hpage

theorem Heap.Good.addPage (h : heap.Good) (page : PhysicalPage) : (heap.addPage page).Good where
  maps id map hmap :=
    { h.maps id map hmap with
      live := fun slot hslot => by
        have hne := h.slot_ne_fresh hmap hslot
        simpa [Heap.addPage, Heap.setAnonymousPage, update_of_ne hne] using
          (h.maps id map hmap).live slot hslot }
  disjoint := h.disjoint
  freshMap := h.freshMap
  freshPage id hid := by
    have hne : id ≠ heap.nextAnonymousPage := ne_of_gt hid
    simpa [Heap.addPage, Heap.setAnonymousPage, update_of_ne hne] using
      h.freshPage id (Nat.le_of_succ_le hid)
  noObjects := h.noObjects

theorem Consistent.addPage (h : Consistent limit heap entries) (page : PhysicalPage) :
    Consistent limit (heap.addPage page) entries :=
  h.heapStep (h.heap.addPage page) (fun _ map hmap => ⟨map, hmap, rfl⟩)
    (fun _ map hmap => ⟨map, hmap, le_rfl⟩)

def Heap.fillSlot (heap : Heap) (id : AnonMapId) (map : AnonMap) (slot : ℕ) (page : AnonPageId) :
    Heap :=
  heap.setAnonymousMap id { map.setSlot slot page with pagesInUse := map.pagesInUse + 1 }

theorem AnonMap.ne_of_get_none (h : map.get slot = none) {s : ℕ × AnonPageId}
    (hs : s ∈ map.anonymousPageChunks) : s.1 ≠ slot := by
  have hne := lookup_eq_none_iff.mp h s hs
  rw [bne_iff_ne] at hne
  exact hne.symm

theorem AnonMap.setSlot_of_get_none (h : map.get slot = none) (page : AnonPageId) :
    (map.setSlot slot page).anonymousPageChunks = (slot, page) :: map.anonymousPageChunks := by
  have hfilter : map.anonymousPageChunks.filter (fun s => s.1 ≠ slot) =
      map.anonymousPageChunks := by
    rw [filter_eq_self]
    intro s hs
    exact decide_eq_true (ne_of_get_none h hs)
  rw [setSlot, hfilter]

theorem AnonMap.Good.pagesInUse_lt (h : map.Good heap) (hslot : slot < map.numberOfPages)
    (hnone : map.get slot = none) : map.pagesInUse < map.numberOfPages := by
  have hnot : slot ∉ map.anonymousPageChunks.map Prod.fst := by
    rw [List.mem_map]
    rintro ⟨s, hs, heq⟩
    exact ne_of_get_none hnone hs heq
  have hsub : (slot :: map.anonymousPageChunks.map Prod.fst).toFinset ⊆
      Finset.range map.numberOfPages := by
    intro i hi
    rw [List.mem_toFinset, mem_cons, List.mem_map] at hi
    rw [Finset.mem_range]
    rcases hi with rfl | ⟨s, hs, rfl⟩
    · exact hslot
    · exact h.slots s hs
  have hcard := Finset.card_le_card hsub
  rw [toFinset_card_of_nodup (nodup_cons.mpr ⟨hnot, h.indices⟩), Finset.card_range] at hcard
  rw [h.inUse]
  exact Nat.lt_of_succ_le (by simpa using hcard)

theorem Consistent.fillSlot (h : Consistent limit heap entries)
    (hmap : heap.anonymousMaps id = some map) (hslot : slot < map.numberOfPages)
    (hnone : map.get slot = none) {page : AnonPageId} {content : AnonPage}
    (hpage : heap.anonymousPages page = some content) (hone : content.referenceCount = 1)
    (hunused : ∀ id map, heap.anonymousMaps id = some map → ∀ s ∈ map.anonymousPageChunks,
      s.2 ≠ page) :
    Consistent limit (heap.fillSlot id map slot page) entries := by
  have hchunks := setSlot_of_get_none hnone page
  have hm := h.heap.maps id map hmap
  have hget (id' : AnonMapId) (map' : AnonMap)
      (hmap' : (heap.fillSlot id map slot page).anonymousMaps id' = some map') :
      id' = id ∧ map' = { map.setSlot slot page with pagesInUse := map.pagesInUse + 1 } ∨
        id' ≠ id ∧ heap.anonymousMaps id' = some map' := by
    by_cases heq : id' = id
    · subst heq
      rw [Heap.fillSlot, Heap.setAnonymousMap_anonymousMaps_self, some.injEq] at hmap'
      exact .inl ⟨rfl, hmap'.symm⟩
    · rw [Heap.fillSlot, Heap.setAnonymousMap_anonymousMaps_of_ne heq] at hmap'
      exact .inr ⟨heq, hmap'⟩
  have hgood : (heap.fillSlot id map slot page).Good := by
    constructor
    case maps =>
      intro id' map' hmap'
      rcases hget id' map' hmap' with ⟨rfl, rfl⟩ | ⟨-, hold⟩
      · have hnot : slot ∉ map.anonymousPageChunks.map Prod.fst := by
          rw [List.mem_map]
          rintro ⟨s, hs, heq⟩
          exact ne_of_get_none hnone hs heq
        have hpageNot : page ∉ map.anonymousPageChunks.map Prod.snd := by
          rw [List.mem_map]
          rintro ⟨s, hs, heq⟩
          exact hunused id' map hmap s hs heq
        constructor
        · exact hm.pageCount
        · simp only [hchunks, forall_mem_cons]
          exact ⟨hslot, hm.slots⟩
        · simp only [hchunks, forall_mem_cons]
          exact ⟨⟨content, hpage, hone⟩, hm.live⟩
        · simp only [hchunks, map_cons]
          exact nodup_cons.mpr ⟨hnot, hm.indices⟩
        · simp only [hchunks, map_cons]
          exact nodup_cons.mpr ⟨hpageNot, hm.pages⟩
        · simp only [hchunks, length_cons, hm.inUse]
      · exact { h.heap.maps id' map' hold with }
    case disjoint =>
      intro id1 id2 map1 map2 hne h1 h2 s1 hs1 s2 hs2
      rcases hget id1 map1 h1 with ⟨rfl, rfl⟩ | ⟨-, hold1⟩
      · rcases hget id2 map2 h2 with ⟨rfl, -⟩ | ⟨-, hold2⟩
        · exact absurd rfl hne
        · simp only [hchunks, mem_cons] at hs1
          rcases hs1 with rfl | hs1
          · exact (hunused id2 map2 hold2 s2 hs2).symm
          · exact h.heap.disjoint id1 id2 map map2 hne hmap hold2 s1 hs1 s2 hs2
      · rcases hget id2 map2 h2 with ⟨rfl, rfl⟩ | ⟨-, hold2⟩
        · simp only [hchunks, mem_cons] at hs2
          rcases hs2 with rfl | hs2
          · exact hunused id1 map1 hold1 s1 hs1
          · exact h.heap.disjoint id1 id2 map1 map hne hold1 hmap s1 hs1 s2 hs2
        · exact h.heap.disjoint id1 id2 map1 map2 hne hold1 hold2 s1 hs1 s2 hs2
    case freshMap =>
      intro id' hid'
      have hne : id' ≠ id := by
        rintro rfl
        rw [h.heap.freshMap id' hid'] at hmap
        cases hmap
      rw [Heap.fillSlot, Heap.setAnonymousMap_anonymousMaps_of_ne hne]
      exact h.heap.freshMap id' hid'
    case freshPage => exact h.heap.freshPage
    case noObjects => exact h.heap.noObjects
  refine h.heapStep hgood (fun id' map' hmap' => ?_) (fun id' map' hmap' => ?_)
  · rcases hget id' map' hmap' with ⟨rfl, rfl⟩ | ⟨-, hold⟩
    · exact ⟨map, hmap, rfl⟩
    · exact ⟨map', hold, rfl⟩
  · by_cases heq : id' = id
    · subst heq
      rw [hmap, some.injEq] at hmap'
      subst hmap'
      exact ⟨_, Heap.setAnonymousMap_anonymousMaps_self, le_rfl⟩
    · exact ⟨map', by rw [Heap.fillSlot, Heap.setAnonymousMap_anonymousMaps_of_ne heq, hmap'],
        le_rfl⟩

def Heap.addMap (heap : Heap) (numberOfPages : ℕ) : Heap :=
  { heap.setAnonymousMap heap.nextAnonymousMap { numberOfPages } with
    nextAnonymousMap := heap.nextAnonymousMap + 1 }

def Entry.withMap (entry : Entry) (id : AnonMapId) : Entry :=
  { entry with anonymousMapReference := ⟨some id, 0⟩, needsCopy := false }

@[simp] theorem Entry.withMap_anonymousMap {entry : Entry} {id : AnonMapId} :
    (entry.withMap id).anonymousMap = some id := rfl

theorem Heap.Good.addMap (h : heap.Good) {numberOfPages : ℕ} (hlt : numberOfPages < 2 ^ 32) :
    (heap.addMap numberOfPages).Good := by
  have hget (id : AnonMapId) (map : AnonMap)
      (hmap : (heap.addMap numberOfPages).anonymousMaps id = some map) :
      map = { numberOfPages } ∨ heap.anonymousMaps id = some map := by
    by_cases heq : id = heap.nextAnonymousMap
    · subst heq
      left
      simpa [Heap.addMap] using hmap.symm
    · right
      simpa [Heap.addMap, Heap.setAnonymousMap, update_of_ne heq] using hmap
  constructor
  case maps =>
    intro id map hmap
    rcases hget id map hmap with rfl | hold
    · exact ⟨hlt, by simp, by simp, by simp, by simp, by simp⟩
    · exact { h.maps id map hold with }
  case disjoint =>
    intro id1 id2 map1 map2 hne h1 h2 s1 hs1 s2 hs2
    rcases hget id1 map1 h1 with rfl | hold1
    · simp at hs1
    · rcases hget id2 map2 h2 with rfl | hold2
      · simp at hs2
      · exact h.disjoint id1 id2 map1 map2 hne hold1 hold2 s1 hs1 s2 hs2
  case freshMap =>
    intro id hid
    have hne : id ≠ heap.nextAnonymousMap := ne_of_gt hid
    simpa [Heap.addMap, Heap.setAnonymousMap, update_of_ne hne] using
      h.freshMap id (Nat.le_of_succ_le hid)
  case freshPage => exact h.freshPage
  case noObjects => exact h.noObjects

end

open Entry

/-- An entry without a map gets a fresh one over its whole range. -/
theorem Consistent.addMap {limit : ℕ} {heap : Heap} {pre post : List Entry} {entry : Entry}
    (h : Consistent limit heap (pre ++ entry :: post)) (hnone : entry.anonymousMap = none)
    (hlt : entry.range.size / standardPageSize < 2 ^ 32) :
    Consistent limit (heap.addMap (entry.range.size / standardPageSize))
      (pre ++ entry.withMap heap.nextAnonymousMap :: post) := by
  have hg := h.entry entry (by simp)
  -- no entry refers to the fresh map yet
  have hfresh : ∀ e ∈ pre ++ entry :: post, e.anonymousMap ≠ some heap.nextAnonymousMap := by
    intro e he hid
    obtain ⟨-, map, hmap, -⟩ := (h.entry e he).window _ hid
    rw [h.heap.freshMap _ le_rfl] at hmap
    cases hmap
  have hself : (heap.addMap (entry.range.size / standardPageSize)).anonymousMaps
      heap.nextAnonymousMap = some { numberOfPages := entry.range.size / standardPageSize } := by
    simp [Heap.addMap]
  have hother {id : AnonMapId} (hne : id ≠ heap.nextAnonymousMap) :
      (heap.addMap (entry.range.size / standardPageSize)).anonymousMaps id =
        heap.anonymousMaps id := by
    simp [Heap.addMap, Heap.setAnonymousMap, update_of_ne hne]
  have hgood : ∀ e ∈ pre ++ entry :: post,
      e.Good limit (heap.addMap (entry.range.size / standardPageSize)) := by
    intro e he
    refine (h.entry e he).mono fun id map hid hmap => ⟨map, ?_, le_rfl⟩
    rw [hother, hmap]
    rintro rfl
    exact hfresh e he hid
  have hmem {e : Entry} (he : e ∈ pre ∨ e ∈ post) : e ∈ pre ++ entry :: post := by
    rcases he with he | he <;> simp [he]
  constructor
  case entry =>
    intro e he
    simp only [mem_append, mem_cons] at he
    rcases he with he | rfl | he
    · exact hgood e (hmem (.inl he))
    · refine { hg with needsCopy := by simp [withMap], window := ?_ }
      rintro id ⟨⟩
      refine ⟨pageAligned_iff.mpr rfl, _, hself, ?_⟩
      have := pageAligned_iff.mp hg.alignedSize
      simp only [Entry.windowStop, Entry.windowStart, Entry.withMap, standardPageSize]
      omega
    · exact hgood e (hmem (.inr he))
  case ordered =>
    have hord := h.ordered
    simp only [pairwise_append, pairwise_cons, mem_cons] at hord ⊢
    obtain ⟨hpre, ⟨hentry, hpost⟩, hacross⟩ := hord
    refine ⟨hpre, ⟨fun y hy => ⟨(hentry y hy).ranges, ?_⟩, hpost⟩, fun x hx y hy => ?_⟩
    · rintro id ⟨⟩ hid
      exact absurd hid (hfresh y (hmem (.inr hy)))
    · rcases hy with rfl | hy
      · refine ⟨(hacross x hx entry (.inl rfl)).ranges, ?_⟩
        rintro id hid ⟨⟩
        exact absurd hid (hfresh x (hmem (.inl hx)))
      · exact hacross x hx y (.inr hy)
  case references =>
    intro id map hmap
    by_cases heq : id = heap.nextAnonymousMap
    · subst heq
      rw [hself, some.injEq] at hmap
      have hzero (xs : List Entry) (hxs : ∀ x ∈ xs, x ∈ pre ∨ x ∈ post) :
          xs.countP (refersTo heap.nextAnonymousMap) = 0 := by
        rw [countP_eq_zero]
        intro x hx hid
        exact hfresh x (hmem (hxs x hx)) (refersTo_iff.mp hid)
      rw [countP_append, countP_cons, hzero pre (fun _ => .inl), hzero post (fun _ => .inr), ← hmap]
      simp [refersTo]
    · rw [hother heq] at hmap
      rw [h.references id map hmap]
      simp only [countP_append, countP_cons, refersTo, hnone, withMap_anonymousMap]
      simp [Ne.symm heq]
  case heap => exact h.heap.addMap hlt

end Innigkeit.Memory

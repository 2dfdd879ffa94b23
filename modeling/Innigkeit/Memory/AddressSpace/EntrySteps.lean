import Innigkeit.Memory.AddressSpace.Consistent

/-!
What `split`, `shrink`, `merge` and the release of an entry do in a consistent
address space. Each operation on the entries is a sequence of these steps, and
each step keeps the invariant: `front` and `rest` are the two halves of a cut
entry, `join` is the merged one.
-/

namespace Innigkeit.Memory

open Zig List Option Heap Entry VirtualRange

namespace Entry

def front (entry : Entry) (size : ℕ) : Entry :=
  { entry with range := { entry.range with size } }

def rest (entry : Entry) (size : ℕ) : Entry :=
  { entry with
    range := ⟨entry.range.address + size, entry.range.size - size⟩
    anonymousMapReference := match entry.anonymousMapReference.anonymousMap with
      | none => entry.anonymousMapReference
      | some _ => { entry.anonymousMapReference with
          startOffset := entry.anonymousMapReference.startOffset + size } }

def join (first second : Entry) : Entry :=
  { first with range := { first.range with size := first.range.size + second.range.size } }

variable {limit size : ℕ} {heap : Heap} {entry first second : Entry}

@[simp] theorem front_anonymousMap : (entry.front size).anonymousMap = entry.anonymousMap := rfl

@[simp] theorem join_anonymousMap : (first.join second).anonymousMap = first.anonymousMap := rfl

@[simp] theorem rest_anonymousMap : (entry.rest size).anonymousMap = entry.anonymousMap := by
  unfold rest anonymousMap
  cases h : entry.anonymousMapReference.anonymousMap <;> simp [h]

theorem rest_windowStart {id : AnonMapId} (h : entry.anonymousMap = some id) :
    (entry.rest size).windowStart = entry.windowStart + size := by
  simp only [rest, windowStart]
  rw [show entry.anonymousMapReference.anonymousMap = some id from h]

theorem front_within (h : size ≤ entry.range.size) : Within (entry.front size) entry where
  start := le_rfl
  stop := Nat.add_le_add_left h _
  map := rfl
  windowStart _ _ := le_rfl
  windowStop _ _ := Nat.add_le_add_left h _

theorem rest_within (h : size ≤ entry.range.size) : Within (entry.rest size) entry where
  start := Nat.le_add_right _ _
  stop := by
    simp only [stop, rest]
    omega
  map := rest_anonymousMap
  windowStart _ hid := by
    rw [rest_windowStart hid]
    exact Nat.le_add_right _ _
  windowStop _ hid := by
    rw [windowStop, windowStop, rest_windowStart hid]
    simp only [rest]
    omega

theorem front_precedes_rest : Precedes (entry.front size) (entry.rest size) where
  ranges := Nat.le_refl _
  windows _ h1 _ := by
    rw [front_anonymousMap] at h1
    rw [rest_windowStart h1]
    exact le_rfl

section

variable (h : entry.Good limit heap)
include h

theorem Good.fits (hl : limit < 2 ^ 64) : entry.range.Fits :=
  lt_of_le_of_lt h.below hl

theorem Good.windowStop_lt (hh : heap.Good) {id : AnonMapId}
    (hid : entry.anonymousMap = some id) : entry.windowStop < 2 ^ 64 := by
  obtain ⟨-, map, hmap, hstop⟩ := h.window id hid
  have := (hh.maps id map hmap).pageCount
  unfold standardPageSize at hstop
  omega

theorem Good.front (hpos : 0 < size) (hle : size ≤ entry.range.size)
    (ha : PageAligned size) : (entry.front size).Good limit heap where
  alignedAddress := h.alignedAddress
  alignedSize := ha
  nonempty := hpos
  below := Nat.le_trans (front_within hle).stop h.below
  noObject := h.noObject
  unwired := h.unwired
  needsCopy := h.needsCopy
  window id hid := by
    obtain ⟨haligned, map, hmap, hstop⟩ := h.window id hid
    exact ⟨haligned, map, hmap, le_trans ((front_within hle).windowStop id hid) hstop⟩

theorem Good.rest (hlt : size < entry.range.size)
    (ha : PageAligned size) : (entry.rest size).Good limit heap where
  alignedAddress := by
    have := h.alignedAddress
    rw [pageAligned_iff] at *
    simp only [Entry.rest]
    omega
  alignedSize := by
    have := h.alignedSize
    rw [pageAligned_iff] at *
    simp only [Entry.rest]
    omega
  nonempty := Nat.sub_pos_of_lt hlt
  below := le_trans (rest_within (le_of_lt hlt)).stop h.below
  noObject := h.noObject
  unwired := h.unwired
  needsCopy := by
    rw [rest_anonymousMap]
    exact h.needsCopy
  window id hid := by
    rw [rest_anonymousMap] at hid
    obtain ⟨haligned, map, hmap, hstop⟩ := h.window id hid
    refine ⟨?_, map, hmap,
      le_trans ((rest_within (le_of_lt hlt)).windowStop id hid) hstop⟩
    rw [rest_windowStart hid]
    rw [pageAligned_iff] at *
    omega

end

theorem front_page (address : ℕ) : (entry.front size).page address = entry.page address := rfl

variable {address : ℕ}

theorem rest_page (hobj : entry.objectReference.object = none)
    (h : entry.range.address + size ≤ address) :
    (entry.rest size).page address = entry.page address := by
  unfold page
  rw [rest_anonymousMap]
  cases hid : entry.anonymousMap with
  | none => simp [rest, hobj]
  | some id =>
    rw [rest_windowStart hid]
    simp only [rest, hobj, map_some, map_none, Page.mk.injEq, true_and,
      some.injEq, Prod.mk.injEq, and_true]
    omega

theorem front_contains : (entry.front size).range.Contains address ↔
    entry.range.address ≤ address ∧ address < entry.range.address + size := Iff.rfl

theorem rest_contains (h : size ≤ entry.range.size) :
    (entry.rest size).range.Contains address ↔
      entry.range.address + size ≤ address ∧ address < entry.range.stop := by
  simp only [Contains, stop, rest]
  omega

theorem pageAt_cut (hobj : entry.objectReference.object = none) (h : size ≤ entry.range.size) :
    pageAt [entry.front size, entry.rest size] address = pageAt [entry] address := by
  rw [pageAt_cons, pageAt_singleton, pageAt_singleton, front_page]
  have hstop := entry.range.stop_eq
  simp only [front_contains, rest_contains h, @contains_iff entry.range]
  split
  · rw [if_pos (by omega)]
  · split
    · rw [if_pos (by omega), rest_page hobj (by omega)]
    · rw [if_neg (by omega)]

end Entry

section

variable {limit : ℕ} {heap heap' : Heap} {id : AnonMapId} {map : AnonMap} {entry : Entry}

theorem Entry.Good.mono (h : entry.Good limit heap)
    (hmaps : ∀ id map, entry.anonymousMap = some id → heap.anonymousMaps id = some map →
      ∃ map', heap'.anonymousMaps id = some map' ∧ map.numberOfPages ≤ map'.numberOfPages) :
    entry.Good limit heap' :=
  { h with
    window := fun id hid => by
      obtain ⟨haligned, map, hmap, hstop⟩ := h.window id hid
      obtain ⟨map', hmap', hle⟩ := hmaps id map hid hmap
      exact ⟨haligned, map', hmap', le_trans hstop (Nat.mul_le_mul_right _ hle)⟩ }

theorem Heap.Good.setCounts (h : heap.Good) (hmap : heap.anonymousMaps id = some map) {r n : ℕ}
    (hle : map.numberOfPages ≤ n) (hlt : n < 2 ^ 32) :
    (heap.setAnonymousMap id { map with referenceCount := r, numberOfPages := n }).Good := by
  have hget (id' : AnonMapId) (map' : AnonMap)
      (hm : (heap.setAnonymousMap id
        { map with referenceCount := r, numberOfPages := n }).anonymousMaps id' = some map') :
      ∃ m, heap.anonymousMaps id' = some m ∧ m.numberOfPages ≤ map'.numberOfPages ∧
        map'.numberOfPages < 2 ^ 32 ∧ map'.anonymousPageChunks = m.anonymousPageChunks ∧
        map'.pagesInUse = m.pagesInUse := by
    by_cases heq : id' = id
    · subst heq
      rw [setAnonymousMap_anonymousMaps_self, some.injEq] at hm
      subst hm
      exact ⟨map, hmap, hle, hlt, rfl, rfl⟩
    · rw [setAnonymousMap_anonymousMaps_of_ne heq] at hm
      exact ⟨map', hm, le_rfl, (h.maps _ _ hm).pageCount, rfl, rfl⟩
  constructor
  case maps =>
    intro id' map' hm
    obtain ⟨m, hm', hle', hlt', hchunks, huse⟩ := hget id' map' hm
    have hg := h.maps id' m hm'
    constructor
    · exact hlt'
    · rw [hchunks]
      exact fun slot hs => lt_of_lt_of_le (hg.slots slot hs) hle'
    · rw [hchunks]
      exact hg.live
    · rw [hchunks]
      exact hg.indices
    · rw [hchunks]
      exact hg.pages
    · rw [hchunks, huse]
      exact hg.inUse
  case disjoint =>
    intro id1 id2 map1 map2 hne h1 h2
    obtain ⟨m1, hm1, -, -, hc1, -⟩ := hget id1 map1 h1
    obtain ⟨m2, hm2, -, -, hc2, -⟩ := hget id2 map2 h2
    rw [hc1, hc2]
    exact h.disjoint id1 id2 m1 m2 hne hm1 hm2
  case freshMap =>
    intro id' hid'
    have hne : id' ≠ id := by
      rintro rfl
      rw [h.freshMap id' hid'] at hmap
      cases hmap
    rw [setAnonymousMap_anonymousMaps_of_ne hne]
    exact h.freshMap id' hid'
  case freshPage => exact h.freshPage
  case noObjects => exact h.noObjects

theorem Entry.Good.setCounts (h : entry.Good limit heap) (hmap : heap.anonymousMaps id = some map)
    {r n : ℕ} (hle : map.numberOfPages ≤ n) :
    entry.Good limit
      (heap.setAnonymousMap id { map with referenceCount := r, numberOfPages := n }) := by
  refine h.mono fun id' map' _ hm => ?_
  by_cases heq : id' = id
  · subst heq
    rw [hmap, some.injEq] at hm
    subst hm
    exact ⟨_, setAnonymousMap_anonymousMaps_self, hle⟩
  · exact ⟨map', by rw [setAnonymousMap_anonymousMaps_of_ne heq, hm], le_rfl⟩

end

open Entry

section

variable {limit : ℕ} {heap : Heap} {pre mid mid' post : List Entry}

theorem ordered_refine (h : (pre ++ mid ++ post).Pairwise Precedes)
    (hmid : mid'.Pairwise Precedes) (hin : ∀ y ∈ mid', ∃ z ∈ mid, Within y z) :
    (pre ++ mid' ++ post).Pairwise Precedes := by
  simp only [pairwise_append, mem_append] at h ⊢
  obtain ⟨⟨hpre, -, hpm⟩, hpost, hacross⟩ := h
  refine ⟨⟨hpre, hmid, fun x hx y hy => ?_⟩, hpost, fun x hx y hy => ?_⟩
  · obtain ⟨z, hz, hw⟩ := hin y hy
    exact (hpm x hx z hz).within_right hw
  · rcases hx with hx | hx
    · exact hacross x (.inl hx) y hy
    · obtain ⟨z, hz, hw⟩ := hin x hx
      exact (hacross z (.inr hz) y hy).within_left hw

/-- Entries may be replaced by parts of themselves, if every map keeps its number of entries. -/
theorem Consistent.refine (h : Consistent limit heap (pre ++ mid ++ post))
    (hgood : ∀ y ∈ mid', y.Good limit heap) (hmid : mid'.Pairwise Precedes)
    (hin : ∀ y ∈ mid', ∃ z ∈ mid, Within y z)
    (hcount : ∀ id, mid'.countP (refersTo id) = mid.countP (refersTo id)) :
    Consistent limit heap (pre ++ mid' ++ post) where
  entry e he := by
    simp only [mem_append] at he
    rcases he with (he | he) | he
    · exact h.entry e (by simp [he])
    · exact hgood e he
    · exact h.entry e (by simp [he])
  ordered := ordered_refine h.ordered hmid hin
  references id map hmap := by
    rw [h.references id map hmap]
    simp only [countP_append, hcount]
  heap := h.heap

end

/-- A step that changes the counts of one map and brings its entries in line with them. -/
theorem Consistent.setCounts {limit : ℕ} {heap : Heap} {entries entries' : List Entry}
    (h : Consistent limit heap entries) {id : AnonMapId} {map : AnonMap}
    (hmap : heap.anonymousMaps id = some map) {r n : ℕ} (hle : map.numberOfPages ≤ n)
    (hlt : n < 2 ^ 32)
    (hentry : ∀ e ∈ entries', e.Good limit
      (heap.setAnonymousMap id { map with referenceCount := r, numberOfPages := n }))
    (hord : entries'.Pairwise Precedes)
    (hself : r = entries'.countP (refersTo id))
    (hother : ∀ id', id' ≠ id →
      entries'.countP (refersTo id') = entries.countP (refersTo id')) :
    Consistent limit
      (heap.setAnonymousMap id { map with referenceCount := r, numberOfPages := n }) entries' where
  entry := hentry
  ordered := hord
  references id' map' hm := by
    by_cases heq : id' = id
    · subst heq
      rw [setAnonymousMap_anonymousMaps_self, some.injEq] at hm
      rw [← hm]
      exact hself
    · rw [setAnonymousMap_anonymousMaps_of_ne heq] at hm
      rw [h.references id' map' hm, hother id' heq]
  heap := h.heap.setCounts hmap hle hlt

end Innigkeit.Memory

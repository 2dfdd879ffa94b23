import Innigkeit.Memory.AddressSpace.EntrySteps

/-!
`shrink` and `split` in a consistent address space. They do not trap there: the
halves of an entry are two windows of its map, so the 32-bit reference count of
the map has room for one more.
-/

namespace Innigkeit.Memory

open Zig List VirtualAddress VirtualRange

namespace Entry

variable {limit size : ℕ} {heap : Heap} {entry first second : Entry}

theorem shrink_end (hpos : 0 < size) (hlt : size < entry.range.size) (ha : PageAligned size) :
    entry.shrink .end_ size = .ok (entry.front size) := by
  have hne : size ≠ 0 := by omega
  simp only [shrink, assert_of hne, assert_of hlt, assert_of ha, sub_of_le (le_of_lt hlt),
    ok_bind, pure_eq_ok, Entry.front]

theorem Good.advanceReferences_eq (h : entry.Good limit heap) (hh : heap.Good)
    (hle : size ≤ entry.range.size) {range : VirtualRange} :
    advanceReferences { entry with range := range } size =
      .ok { entry.rest size with range := range } := by
  cases hid : entry.anonymousMapReference.anonymousMap with
  | none =>
    simp only [advanceReferences, hid, h.noObject, ok_bind, pure_eq_ok, Entry.rest]
  | some id =>
    have hlt : entry.anonymousMapReference.startOffset + size < 2 ^ 64 := by
      have := h.windowStop_lt hh hid
      simp only [windowStop, windowStart] at this
      omega
    simp only [advanceReferences, hid, h.noObject, add_of_lt hlt, ok_bind, pure_eq_ok, Entry.rest]

theorem Good.shrink_beginning (h : entry.Good limit heap) (hh : heap.Good) (hl : limit < 2 ^ 64)
    (hpos : 0 < size) (hlt : size < entry.range.size) (ha : PageAligned size) :
    entry.shrink .beginning size = .ok (entry.rest (entry.range.size - size)) := by
  have hne : size ≠ 0 := by omega
  have hmove : entry.range.address + (entry.range.size - size) < 2 ^ 64 := by
    have := h.fits hl
    simp only [Fits, stop] at this
    omega
  simp only [shrink, assert_of hne, assert_of hlt, assert_of ha, sub_of_le (le_of_lt hlt),
    moveForward, add_of_lt hmove, h.advanceReferences_eq hh (Nat.sub_le _ _), ok_bind, pure_eq_ok]
  simp only [Entry.rest, Nat.sub_sub_self (le_of_lt hlt)]

end Entry

/-- The reference that the second half of a split entry takes. -/
def Heap.addReference (heap : Heap) : Option AnonMapId → Heap
  | none => heap
  | some id =>
    match heap.anonymousMaps id with
    | none => heap
    | some map => heap.setAnonymousMap id { map with referenceCount := map.referenceCount + 1 }

variable {id : AnonMapId} {map : AnonMap}

theorem Heap.addReference_some {heap : Heap}
    (h : heap.anonymousMaps id = some map) : heap.addReference (some id) =
      heap.setAnonymousMap id { map with referenceCount := map.referenceCount + 1 } := by
  simp only [addReference, h]

open Entry

private theorem split_countP {size : ℕ} {entry : Entry} {pre post : List Entry} (id : AnonMapId) :
    (pre ++ [entry.front size, entry.rest size] ++ post).countP (refersTo id) =
      (pre ++ [entry] ++ post).countP (refersTo id) +
        (if entry.anonymousMap = some id then 1 else 0) := by
  simp only [countP_append, countP_cons, countP_nil, refersTo,
    front_anonymousMap, rest_anonymousMap, beq_iff_eq]
  split <;> omega

section

variable {limit size : ℕ} {heap : Heap} {entry : Entry} {pre post : List Entry}
  (h : Consistent limit heap (pre ++ [entry] ++ post)) (hpos : 0 < size)
  (hlt : size < entry.range.size) (ha : PageAligned size)

include h hpos hlt ha

private theorem split_entries :
    (∀ e ∈ pre ++ [entry.front size, entry.rest size] ++ post, e.Good limit heap) ∧
      (pre ++ [entry.front size, entry.rest size] ++ post).Pairwise Entry.Precedes := by
  have hg : entry.Good limit heap := h.entry entry (by simp)
  have hle := le_of_lt hlt
  constructor
  · intro e he
    simp only [mem_append, mem_cons, not_mem_nil, or_false] at he
    rcases he with (he | rfl | rfl) | he
    · exact h.entry e (by simp [he])
    · exact hg.front hpos hle ha
    · exact hg.rest hlt ha
    · exact h.entry e (by simp [he])
  · refine ordered_refine h.ordered (by simpa using front_precedes_rest) ?_
    simp only [mem_cons, not_mem_nil, or_false, forall_eq_or_imp, forall_eq, exists_eq_left]
    exact ⟨front_within hle, rest_within hle⟩

/-- The halves are two windows of one map, so the map has a page for each of its references. -/
private theorem split_referenceCount_lt (hid : entry.anonymousMap = some id)
    (hmap : heap.anonymousMaps id = some map) : map.referenceCount + 1 < 2 ^ 32 := by
  obtain ⟨hgood, hord⟩ := split_entries h hpos hlt ha
  have hbound := countP_refersTo_le_numberOfPages hgood hord hmap
  rw [split_countP, if_pos hid, ← h.references id map hmap] at hbound
  exact lt_of_le_of_lt hbound (h.heap.maps id map hmap).pageCount

theorem Consistent.split_eq (hl : limit < 2 ^ 64) : entry.split heap size =
    .ok (heap.addReference entry.anonymousMap, entry.front size, entry.rest size) := by
  have hg : entry.Good limit heap := h.entry entry (by simp)
  have hne : entry.range.size ≠ 0 := by omega
  have hmove : entry.range.address + size < 2 ^ 64 := by
    have := hg.fits hl
    simp only [Fits, stop] at this
    omega
  cases hid : entry.anonymousMapReference.anonymousMap with
  | none =>
    simp only [split, assert_of hne, assert_of (le_of_lt hlt), assert_of ha,
      moveForward, add_of_lt hmove, sub_of_le (le_of_lt hlt), hid,
      hg.noObject, ok_bind, pure_eq_ok, Heap.addReference, front, Entry.rest]
  | some id =>
    obtain ⟨-, map, hmap, -⟩ := hg.window id hid
    have hcount := split_referenceCount_lt h hpos hlt ha hid hmap
    have hoffset : entry.anonymousMapReference.startOffset + size < 2 ^ 64 := by
      have := hg.windowStop_lt h.heap hid
      simp only [windowStop, windowStart] at this
      omega
    simp only [split, assert_of hne, assert_of (le_of_lt hlt), assert_of ha,
      moveForward, add_of_lt hmove, sub_of_le (le_of_lt hlt), hid,
      hg.noObject, add_of_lt hoffset, Heap.anonymousMap_eq_ok.mpr hmap, add_of_lt hcount,
      ok_bind, pure_eq_ok, Heap.addReference_some hmap, front, Entry.rest]

theorem Consistent.split : Consistent limit (heap.addReference entry.anonymousMap)
    (pre ++ [entry.front size, entry.rest size] ++ post) := by
  obtain ⟨hgood, hord⟩ := split_entries h hpos hlt ha
  cases hid : entry.anonymousMap with
  | none =>
    exact ⟨hgood, hord, fun id map hmap => by
      rw [split_countP, hid, if_neg (by simp)]
      exact h.references id map hmap, h.heap⟩
  | some id =>
    obtain ⟨-, map, hmap, -⟩ := (h.entry entry (by simp)).window id hid
    rw [Heap.addReference_some hmap]
    refine h.setCounts hmap le_rfl (h.heap.maps id map hmap).pageCount
      (fun e he => (hgood e he).setCounts hmap le_rfl) hord ?_ (fun id' hne => ?_)
    · rw [split_countP, if_pos hid, ← h.references id map hmap]
    · rw [split_countP, hid, if_neg (by simpa using hne.symm), add_zero]

end

end Innigkeit.Memory

import Innigkeit.Memory.AddressSpace.Fault

/-!
The invariant of an address space, over its entries and the heap they refer to,
and the page view against which the operations are specified. Entries are
ordered and disjoint, and so are the windows that the entries of one anonymous
map have in it; the reference count of a map is the number of those entries.
-/

namespace Innigkeit.Memory

open Zig List Entry

namespace Entry

abbrev anonymousMap (entry : Entry) : Option AnonMapId :=
  entry.anonymousMapReference.anonymousMap

/-- The first byte of the anonymous map that the entry covers. -/
abbrev windowStart (entry : Entry) : ℕ := entry.anonymousMapReference.startOffset

def windowStop (entry : Entry) : ℕ := entry.windowStart + entry.range.size

def refersTo (id : AnonMapId) (entry : Entry) : Bool := entry.anonymousMap == some id

@[simp] theorem refersTo_iff {id : AnonMapId} {entry : Entry} :
    entry.refersTo id = true ↔ entry.anonymousMap = some id := by
  simp [refersTo]

/-- Address order, with the same order of the windows in a shared map. -/
structure Precedes (first second : Entry) : Prop where
  ranges : first.range.stop ≤ second.range.address
  windows : ∀ id, first.anonymousMap = some id → second.anonymousMap = some id →
    first.windowStop ≤ second.windowStart

/-- The part `inner` of an entry keeps its map and the window that goes with it. -/
structure Within (inner outer : Entry) : Prop where
  start : outer.range.address ≤ inner.range.address
  stop : inner.range.stop ≤ outer.range.stop
  map : inner.anonymousMap = outer.anonymousMap
  windowStart : ∀ id, outer.anonymousMap = some id → outer.windowStart ≤ inner.windowStart
  windowStop : ∀ id, outer.anonymousMap = some id → inner.windowStop ≤ outer.windowStop

theorem Precedes.within_right {first outer inner : Entry} (h : Precedes first outer)
    (hw : Within inner outer) : Precedes first inner where
  ranges := Nat.le_trans h.ranges hw.start
  windows id h1 h2 := by
    rw [hw.map] at h2
    exact le_trans (h.windows id h1 h2) (hw.windowStart id h2)

theorem Precedes.within_left {outer inner second : Entry} (h : Precedes outer second)
    (hw : Within inner outer) : Precedes inner second where
  ranges := Nat.le_trans hw.stop h.ranges
  windows id h1 h2 := by
    rw [hw.map] at h1
    exact le_trans (hw.windowStop id h1) (h.windows id h1 h2)

end Entry

/-- A map whose populated slots hold live pages that nothing else refers to. -/
structure AnonMap.Good (heap : Heap) (map : AnonMap) : Prop where
  pageCount : map.numberOfPages < 2 ^ 32
  slots : ∀ slot ∈ map.anonymousPageChunks, slot.1 < map.numberOfPages
  live : ∀ slot ∈ map.anonymousPageChunks, ∃ page,
    heap.anonymousPages slot.2 = some page ∧ page.referenceCount = 1
  indices : (map.anonymousPageChunks.map Prod.fst).Nodup
  pages : (map.anonymousPageChunks.map Prod.snd).Nodup
  inUse : map.pagesInUse = map.anonymousPageChunks.length

/-- No object is ever created by the code, so the heap holds none. -/
structure Heap.Good (heap : Heap) : Prop where
  maps : ∀ id map, heap.anonymousMaps id = some map → map.Good heap
  disjoint : ∀ id id' map map', id ≠ id' → heap.anonymousMaps id = some map →
    heap.anonymousMaps id' = some map' → ∀ slot ∈ map.anonymousPageChunks,
      ∀ slot' ∈ map'.anonymousPageChunks, slot.2 ≠ slot'.2
  freshMap : ∀ id, heap.nextAnonymousMap ≤ id → heap.anonymousMaps id = none
  freshPage : ∀ id, heap.nextAnonymousPage ≤ id → heap.anonymousPages id = none
  noObjects : ∀ id, heap.objects id = none

structure Entry.Good (limit : ℕ) (heap : Heap) (entry : Entry) : Prop where
  alignedAddress : PageAligned entry.range.address
  alignedSize : PageAligned entry.range.size
  nonempty : 0 < entry.range.size
  below : entry.range.stop ≤ limit
  noObject : entry.objectReference.object = none
  unwired : entry.wiredCount = 0
  needsCopy : entry.needsCopy = true ↔ entry.anonymousMap = none
  window : ∀ id, entry.anonymousMap = some id → PageAligned entry.windowStart ∧
    ∃ map, heap.anonymousMaps id = some map ∧
      entry.windowStop ≤ map.numberOfPages * standardPageSize

/-- The entries of an address space that ends at `limit`, over their heap. -/
structure Consistent (limit : ℕ) (heap : Heap) (entries : List Entry) : Prop where
  entry : ∀ e ∈ entries, e.Good limit heap
  ordered : entries.Pairwise Precedes
  references : ∀ id map, heap.anonymousMaps id = some map →
    map.referenceCount = entries.countP (refersTo id)
  heap : heap.Good

/-- What an address shows of the entry that contains it. -/
structure Page where
  protection : Protection
  maxProtection : Protection
  anonymousSlot : Option (AnonMapId × ℕ)
  objectOffset : Option (ObjectId × ℕ)
  deriving DecidableEq, Repr

def Entry.page (entry : Entry) (address : ℕ) : Page where
  protection := entry.protection
  maxProtection := entry.maxProtection
  anonymousSlot := entry.anonymousMap.map fun id =>
    (id, entry.windowStart + (address - entry.range.address))
  objectOffset := entry.objectReference.object.map fun id =>
    (id, entry.objectReference.startOffset + (address - entry.range.address))

def pageAt (entries : List Entry) (address : ℕ) : Option Page :=
  (entries.find? fun entry => decide (entry.range.Contains address)).map (·.page address)

def Mapped (entries : List Entry) (address : ℕ) : Prop :=
  ∃ entry ∈ entries, entry.range.Contains address

section

variable {entries xs ys : List Entry} {entry : Entry} {address : ℕ}

@[simp] theorem pageAt_nil : pageAt [] address = none := rfl

theorem pageAt_append : pageAt (xs ++ ys) address = (pageAt xs address).or (pageAt ys address) := by
  rw [pageAt, find?_append, Option.map_or]
  rfl

theorem pageAt_cons : pageAt (entry :: entries) address =
    if entry.range.Contains address then some (entry.page address) else pageAt entries address := by
  rw [pageAt, find?_cons]
  by_cases h : entry.range.Contains address
  · simp [h]
  · simp [h, pageAt]

theorem pageAt_eq_none : pageAt entries address = none ↔ ¬ Mapped entries address := by
  simp [pageAt, Mapped]

theorem pageAt_singleton : pageAt [entry] address =
    if entry.range.Contains address then some (entry.page address) else none := by
  rw [pageAt_cons, pageAt_nil]

theorem pageAt_of_mem_none (h : ∀ e ∈ entries, ¬ e.range.Contains address) :
    pageAt entries address = none :=
  pageAt_eq_none.mpr fun ⟨e, he, hc⟩ => h e he hc

@[simp] theorem mapped_append :
    Mapped (xs ++ ys) address ↔ Mapped xs address ∨ Mapped ys address := by
  simp only [Mapped, mem_append]
  constructor
  · rintro ⟨e, he | he, hc⟩
    · exact .inl ⟨e, he, hc⟩
    · exact .inr ⟨e, he, hc⟩
  · rintro (⟨e, he, hc⟩ | ⟨e, he, hc⟩)
    · exact ⟨e, .inl he, hc⟩
    · exact ⟨e, .inr he, hc⟩

@[simp] theorem mapped_cons :
    Mapped (entry :: entries) address ↔ entry.range.Contains address ∨ Mapped entries address := by
  simp [Mapped]

@[simp] theorem not_mapped_nil : ¬ Mapped [] address := by
  simp [Mapped]

end

section

variable {limit : ℕ} {heap : Heap} {entries : List Entry} {id : AnonMapId}

/-- Windows of at least a page each, in order between `low` and `high`, bound their number. -/
theorem countP_refersTo_le (low high : ℕ) (hsize : ∀ e ∈ entries, standardPageSize ≤ e.range.size)
    (hlow : ∀ e ∈ entries, e.anonymousMap = some id → low ≤ e.windowStart)
    (hhigh : ∀ e ∈ entries, e.anonymousMap = some id → e.windowStop ≤ high)
    (hord : entries.Pairwise Precedes) (hle : low ≤ high) :
    entries.countP (refersTo id) * standardPageSize + low ≤ high := by
  induction entries generalizing low with
  | nil => simpa using hle
  | cons e es ih =>
    rw [pairwise_cons] at hord
    simp only [forall_mem_cons] at hsize hlow hhigh
    by_cases he : e.anonymousMap = some id
    · have hrest := ih e.windowStop hsize.2 (fun y hy hid => (hord.1 y hy).windows id he hid)
        hhigh.2 hord.2 (hhigh.1 he)
      rw [countP_cons_of_pos (refersTo_iff.mpr he), Nat.succ_mul]
      have hw : e.windowStop = e.windowStart + e.range.size := rfl
      have := hlow.1 he
      have := hsize.1
      omega
    · rw [countP_cons_of_neg (by simpa using he)]
      exact ih low hsize.2 hlow.2 hhigh.2 hord.2 hle

theorem Entry.Good.page_le_size {e : Entry} (h : e.Good limit heap) :
    standardPageSize ≤ e.range.size := by
  have h1 := h.nonempty
  have h2 := pageAligned_iff.mp h.alignedSize
  unfold standardPageSize
  omega

theorem countP_refersTo_le_numberOfPages {map : AnonMap} (hentry : ∀ e ∈ entries, e.Good limit heap)
    (hord : entries.Pairwise Precedes) (hmap : heap.anonymousMaps id = some map) :
    entries.countP (refersTo id) ≤ map.numberOfPages := by
  have h := countP_refersTo_le 0 (map.numberOfPages * standardPageSize)
    (fun e he => (hentry e he).page_le_size) (fun _ _ _ => Nat.zero_le _)
    (fun e he hid => by
      obtain ⟨-, map', hmap', hstop⟩ := (hentry e he).window id hid
      rw [hmap, Option.some.injEq] at hmap'
      exact hmap' ▸ hstop)
    hord (Nat.zero_le _)
  exact Nat.le_of_mul_le_mul_right (by simpa using h) (by decide)

end

end Innigkeit.Memory

import Innigkeit.Address.VirtualRange

/-!
Anonymous maps, their pages, and memory objects, as the kernel heap holds them.
Entries of an address space refer to them by identity, so two entries can share
one map. The chunked hash map of an anonymous map is the list of its populated
slots. Locks are not part of this model: every function here runs under the
locks that its callers hold.
-/

namespace Innigkeit.Memory

open Zig Function

abbrev AnonMapId := ℕ
abbrev AnonPageId := ℕ
abbrev ObjectId := ℕ
abbrev PhysicalPage := ℕ

structure AnonPage where
  referenceCount : ℕ := 1
  physicalPage : PhysicalPage
  deriving DecidableEq, Repr

structure AnonMap where
  referenceCount : ℕ := 1
  numberOfPages : ℕ
  pagesInUse : ℕ := 0
  anonymousPageChunks : List (ℕ × AnonPageId) := []
  deriving DecidableEq, Repr

structure Object where
  referenceCount : ℕ := 1
  deriving DecidableEq, Repr

/-- A reference of an entry; the offset means nothing without a map. -/
structure AnonMap.Reference where
  anonymousMap : Option AnonMapId := none
  startOffset : ℕ := 0
  deriving DecidableEq, Repr

structure Object.Reference where
  object : Option ObjectId := none
  startOffset : ℕ := 0
  deriving DecidableEq, Repr

structure Heap where
  anonymousMaps : AnonMapId → Option AnonMap := fun _ => none
  anonymousPages : AnonPageId → Option AnonPage := fun _ => none
  objects : ObjectId → Option Object := fun _ => none
  /-- Identities from here on have not been handed out. -/
  nextAnonymousMap : AnonMapId := 0
  nextAnonymousPage : AnonPageId := 0
  /-- The pages returned to the physical page allocator, latest first. -/
  deallocated : List PhysicalPage := []

namespace Heap

def anonymousMap (heap : Heap) (id : AnonMapId) : Checked AnonMap := unwrap (heap.anonymousMaps id)

def anonymousPage (heap : Heap) (id : AnonPageId) : Checked AnonPage :=
  unwrap (heap.anonymousPages id)

def object (heap : Heap) (id : ObjectId) : Checked Object := unwrap (heap.objects id)

def setAnonymousMap (heap : Heap) (id : AnonMapId) (map : AnonMap) : Heap :=
  { heap with anonymousMaps := update heap.anonymousMaps id (some map) }

def setAnonymousPage (heap : Heap) (id : AnonPageId) (page : AnonPage) : Heap :=
  { heap with anonymousPages := update heap.anonymousPages id (some page) }

def setObject (heap : Heap) (id : ObjectId) (object : Object) : Heap :=
  { heap with objects := update heap.objects id (some object) }

section

variable {heap : Heap} {id id' : AnonMapId} {map : AnonMap}

@[simp] theorem anonymousMap_eq_ok :
    heap.anonymousMap id = .ok map ↔ heap.anonymousMaps id = some map :=
  unwrap_eq_ok

@[simp] theorem setAnonymousMap_anonymousMaps_self :
    (heap.setAnonymousMap id map).anonymousMaps id = some map := by
  simp [setAnonymousMap]

theorem setAnonymousMap_anonymousMaps_of_ne (h : id' ≠ id) :
    (heap.setAnonymousMap id map).anonymousMaps id' = heap.anonymousMaps id' := by
  simp [setAnonymousMap, h]

@[simp] theorem setAnonymousMap_objects :
    (heap.setAnonymousMap id map).objects = heap.objects := rfl

end

end Heap

/-- The places at which the code asks for memory; a run decides which of them fail. -/
inductive AllocationSite where
  | entry
  | entriesCapacity
  | anonymousMap
  | physicalPage
  | anonymousPage
  | anonymousPageChunk (index : ℕ)
  | pageTablePage
  deriving DecidableEq, Repr

/-- Which allocations succeed, and the page that the physical page allocator hands out. -/
structure Allocation where
  succeeds : AllocationSite → Bool := fun _ => true
  page : PhysicalPage := 0

/-- A new entry can be allocated, and the entry list can grow by it. -/
def Allocation.entryAvailable (allocation : Allocation) : Bool :=
  allocation.succeeds .entry && allocation.succeeds .entriesCapacity

namespace PageCount

/-- A page count is an `enum(u32)`. -/
def fromSize (size : ℕ) : Checked ℕ := intCast 32 (size / standardPageSize)

def increment (count : ℕ) : Checked ℕ := add 32 count 1

def increaseBySize (count : ℕ) (size : ℕ) : Checked ℕ := do
  assert (PageAligned size)
  add 32 count (← intCast 32 (size / standardPageSize))

end PageCount

namespace Heap

def deallocate (heap : Heap) (pages : List PhysicalPage) : Heap :=
  { heap with deallocated := pages ++ heap.deallocated }

end Heap

namespace AnonPage

/-- `none` stands for the failure of the page cache. -/
def create (allocation : Allocation) (heap : Heap) (page : PhysicalPage) :
    Option (AnonPageId × Heap) :=
  if allocation.succeeds .anonymousPage then
    let id := heap.nextAnonymousPage
    some (id,
      { heap.setAnonymousPage id { physicalPage := page } with nextAnonymousPage := id + 1 })
  else none

def incrementReferenceCount (heap : Heap) (id : AnonPageId) : Checked Heap := do
  let page ← heap.anonymousPage id
  assert (page.referenceCount ≠ 0)
  return heap.setAnonymousPage id { page with referenceCount := ← add 32 page.referenceCount 1 }

/-- Destroys the page when its last reference goes. -/
def decrementReferenceCount (heap : Heap) (id : AnonPageId) (pages : List PhysicalPage) :
    Checked (Heap × List PhysicalPage) := do
  let page ← heap.anonymousPage id
  assert (page.referenceCount ≠ 0)
  if page.referenceCount = 1 then
    return ({ heap with anonymousPages := update heap.anonymousPages id none },
      page.physicalPage :: pages)
  return (heap.setAnonymousPage id { page with referenceCount := page.referenceCount - 1 }, pages)

end AnonPage

namespace AnonMap

def slotsPerChunk : ℕ := 16

def chunkIndex (index : ℕ) : ℕ := index / slotsPerChunk

def get (map : AnonMap) (index : ℕ) : Option AnonPageId := map.anonymousPageChunks.lookup index

/-- A chunk exists once one of its slots is populated; otherwise it is allocated. -/
def ensureChunk (allocation : Allocation) (map : AnonMap) (index : ℕ) : Bool :=
  map.anonymousPageChunks.any (fun slot => chunkIndex slot.1 == chunkIndex index) ||
    allocation.succeeds (.anonymousPageChunk (chunkIndex index))

def setSlot (map : AnonMap) (index : ℕ) (page : AnonPageId) : AnonMap :=
  { map with anonymousPageChunks :=
      (index, page) :: map.anonymousPageChunks.filter (fun slot => slot.1 ≠ index) }

/-- `none` stands for `error.OutOfMemory`. -/
def create (allocation : Allocation) (heap : Heap) (size : ℕ) :
    Checked (Option (AnonMapId × Heap)) := do
  assert (PageAligned size)
  if allocation.succeeds .anonymousMap then
    let id := heap.nextAnonymousMap
    let map : AnonMap := { numberOfPages := ← PageCount.fromSize size }
    return some (id, { heap.setAnonymousMap id map with nextAnonymousMap := id + 1 })
  else return none

/-- Drop the reference of every populated slot. -/
def releasePages : List (ℕ × AnonPageId) → Heap → List PhysicalPage →
    Checked (Heap × List PhysicalPage)
  | [], heap, pages => .ok (heap, pages)
  | (_, page) :: slots, heap, pages => do
    let (heap, pages) ← AnonPage.decrementReferenceCount heap page pages
    releasePages slots heap pages

/-- Destroys the map, releasing its pages, when its last reference goes. -/
def decrementReferenceCount (heap : Heap) (id : AnonMapId) (pages : List PhysicalPage) :
    Checked (Heap × List PhysicalPage) := do
  let map ← heap.anonymousMap id
  assert (map.referenceCount ≠ 0)
  if map.referenceCount = 1 then
    let (heap, pages) ← releasePages map.anonymousPageChunks heap pages
    return ({ heap with anonymousMaps := update heap.anonymousMaps id none }, pages)
  return (heap.setAnonymousMap id { map with referenceCount := map.referenceCount - 1 }, pages)

end AnonMap

namespace Object

def incrementReferenceCount (heap : Heap) (id : ObjectId) : Checked Heap := do
  let object ← heap.object id
  assert (object.referenceCount ≠ 0)
  return heap.setObject id { object with referenceCount := ← add 32 object.referenceCount 1 }

/-- The destruction of an object is not implemented: dropping the last reference panics. -/
def decrementReferenceCount (heap : Heap) (id : ObjectId) : Checked Heap := do
  let object ← heap.object id
  assert (object.referenceCount ≠ 0)
  if object.referenceCount = 1 then throw .panic
  return heap.setObject id { object with referenceCount := object.referenceCount - 1 }

end Object

end Innigkeit.Memory

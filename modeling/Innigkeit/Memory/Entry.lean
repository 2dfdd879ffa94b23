import Innigkeit.Memory.AnonMap
import Innigkeit.Memory.MapType

/-!
Entries of an address space and the four operations that reshape them:
`canMerge`, `merge`, `split` and `shrink`. The operations also move the
references that the entries hold on anonymous maps and objects, so they take
and return the heap.
-/

namespace Innigkeit.Memory

open Zig

structure Entry where
  range : VirtualRange
  protection : Protection
  maxProtection : Protection
  anonymousMapReference : AnonMap.Reference := {}
  objectReference : Object.Reference := {}
  copyOnWrite : Bool
  needsCopy : Bool
  wiredCount : ℕ := 0
  deriving DecidableEq, Repr

namespace Entry

def anyOverlap (self other : Entry) : Checked Bool := self.range.anyOverlap other.range

def canMergeObjects (first second : Entry) : Checked Bool :=
  match first.objectReference.object, second.objectReference.object with
  | none, other => .ok other.isNone
  | some _, none => .ok false
  | some firstObject, some secondObject => do
    if firstObject ≠ secondObject then return false
    let offset ← add 64 first.objectReference.startOffset first.range.size
    return offset == second.objectReference.startOffset

def canMergeAnonymousMaps (heap : Heap) (first second : Entry) : Checked Bool :=
  match first.anonymousMapReference.anonymousMap,
    second.anonymousMapReference.anonymousMap with
  | none, other => .ok other.isNone
  | some firstMap, none => do
    let map ← heap.anonymousMap firstMap
    let offset ← add 64 first.anonymousMapReference.startOffset first.range.size
    return map.numberOfPages == offset / standardPageSize
  | some firstMap, some secondMap => do
    if firstMap ≠ secondMap then return false
    let offset ← add 64 first.anonymousMapReference.startOffset first.range.size
    return offset == second.anonymousMapReference.startOffset

def canMerge (heap : Heap) (first second : Entry) : Checked Bool := do
  if first.protection ≠ second.protection then return false
  if first.maxProtection ≠ second.maxProtection then return false
  if first.copyOnWrite ≠ second.copyOnWrite then return false
  if first.wiredCount ≠ second.wiredCount then return false
  if (← first.range.after) ≠ second.range.address then return false
  if !(← canMergeObjects first second) then return false
  canMergeAnonymousMaps heap first second

/-- The `object` block of `merge`: the second reference goes. -/
def mergeObjects (heap : Heap) (first second : Entry) : Checked Heap :=
  match first.objectReference.object with
  | none => do
    assert (second.objectReference.object = none)
    return heap
  | some id => do
    let secondId ← unwrap second.objectReference.object
    assert (id = secondId)
    let object ← heap.object id
    assert (2 ≤ object.referenceCount)
    return heap.setObject id { object with referenceCount := object.referenceCount - 1 }

/-- The `anonymous_map` block of `merge`: the second reference goes, or the map of the first
entry is extended over the second one. -/
def mergeAnonymousMaps (heap : Heap) (first second : Entry) : Checked Heap :=
  match first.anonymousMapReference.anonymousMap with
  | none => do
    assert (second.anonymousMapReference.anonymousMap = none)
    return heap
  | some id => do
    let map ← heap.anonymousMap id
    match second.anonymousMapReference.anonymousMap with
    | some secondId =>
      assert (id = secondId)
      assert (2 ≤ map.referenceCount)
      return heap.setAnonymousMap id { map with referenceCount := map.referenceCount - 1 }
    | none =>
      let pages ← PageCount.increaseBySize map.numberOfPages second.range.size
      return heap.setAnonymousMap id { map with numberOfPages := pages }

def merge (heap : Heap) (first second : Entry) : Checked (Heap × Entry) := do
  let heap ← mergeObjects heap first second
  let heap ← mergeAnonymousMaps heap first second
  let size ← add 64 first.range.size second.range.size
  return (heap, { first with range := { first.range with size } })

/-- Cut the entry at `splitSize`; both halves hold a reference afterwards. -/
def split (heap : Heap) (entry : Entry) (splitSize : ℕ) : Checked (Heap × Entry × Entry) := do
  assert (entry.range.size ≠ 0)
  assert (splitSize ≤ entry.range.size)
  assert (PageAligned splitSize)
  let address ← VirtualAddress.moveForward entry.range.address splitSize
  let size ← sub entry.range.size splitSize
  let second := { entry with range := ⟨address, size⟩ }
  let (heap, second) ← match entry.anonymousMapReference.anonymousMap with
    | none => pure (heap, second)
    | some id => do
      let startOffset ← add 64 second.anonymousMapReference.startOffset splitSize
      let map ← heap.anonymousMap id
      let referenceCount ← add 32 map.referenceCount 1
      pure (heap.setAnonymousMap id { map with referenceCount },
        { second with anonymousMapReference := { second.anonymousMapReference with startOffset } })
  let (heap, second) ← match entry.objectReference.object with
    | none => pure (heap, second)
    | some id => do
      let startOffset ← add 64 second.objectReference.startOffset splitSize
      let object ← heap.object id
      let referenceCount ← add 32 object.referenceCount 1
      pure (heap.setObject id { object with referenceCount },
        { second with objectReference := { second.objectReference with startOffset } })
  return (heap, { entry with range := { entry.range with size := splitSize } }, second)

inductive ShrinkDirection where
  | beginning
  | end_
  deriving DecidableEq, Repr

/-- Advance the references of an entry whose start moves forward by `size`. -/
def advanceReferences (entry : Entry) (size : ℕ) : Checked Entry := do
  let entry ← match entry.anonymousMapReference.anonymousMap with
    | none => pure entry
    | some _ => do
      let startOffset ← add 64 entry.anonymousMapReference.startOffset size
      pure { entry with
        anonymousMapReference := { entry.anonymousMapReference with startOffset } }
  match entry.objectReference.object with
  | none => return entry
  | some _ =>
    let startOffset ← add 64 entry.objectReference.startOffset size
    return { entry with objectReference := { entry.objectReference with startOffset } }

def shrink (entry : Entry) (direction : ShrinkDirection) (newSize : ℕ) : Checked Entry := do
  assert (newSize ≠ 0)
  assert (newSize < entry.range.size)
  assert (PageAligned newSize)
  let sizeChange ← sub entry.range.size newSize
  let entry ← match direction with
    | .beginning => do
      let address ← VirtualAddress.moveForward entry.range.address sizeChange
      advanceReferences { entry with range := { entry.range with address } } sizeChange
    | .end_ => pure entry
  return { entry with range := { entry.range with size := newSize } }

end Entry

end Innigkeit.Memory

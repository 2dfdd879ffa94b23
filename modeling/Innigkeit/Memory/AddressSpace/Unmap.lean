import Innigkeit.Memory.AddressSpace.Map
import Innigkeit.Memory.VirtualRangeBatch

/-!
`AddressSpace.unmap`: the entries that overlap a range, the batches of ranges
handed to the page table, and the removal itself. The page table is a module of
its own; here its requests are part of the result. The counters that the code
only logs are left out.
-/

namespace Innigkeit.Memory.AddressSpace

open Zig VirtualAddress

structure EntryRange where
  start : ℕ
  length : ℕ
  startOverlap : Bool := false
  endOverlap : Bool := false
  deriving DecidableEq, Repr

namespace EntryRange

def isWithinSingleEntry (self : EntryRange) : Bool :=
  self.length == 1 && self.startOverlap && self.endOverlap

/-- The part of `range` that `RangeIterator.next` yields for the entry at `i`. -/
def rangeAt (self : EntryRange) (range : VirtualRange) (entries : List Entry) (i : ℕ) :
    Checked VirtualRange := do
  let endIndex := self.start + self.length
  let entry ← index entries i
  if i = self.start ∧ self.startOverlap = true then
    if i = endIndex - 1 ∧ self.endOverlap = true then
      assert (self.length = 1)
      return range
    return ⟨range.address, ← difference range.address (← entry.range.after)⟩
  if i = endIndex - 1 ∧ self.endOverlap = true then
    return ⟨entry.range.address,
      ← difference entry.range.address (← range.after)⟩
  return entry.range

/-- The indices that the iterators run over. -/
def indices (self : EntryRange) : List ℕ := List.range' self.start self.length

end EntryRange

/-- The scan of `entryRange`: how many entries from the front overlap the range. -/
def overlapLength (range : VirtualRange) : List Entry → Checked ℕ
  | [] => .ok 0
  | entry :: entries => do
    if ← entry.range.anyOverlap range then return (← overlapLength range entries) + 1
    return 0

/-- The entries that overlap the given range; `none` if every entry ends before it. -/
def entryRange (self : AddressSpace) (range : VirtualRange) : Checked (Option EntryRange) := do
  let entries := self.entries
  let start ← lowerBound (entryAddressCompare range.address) entries
  if start = entries.length then return none
  let length ← overlapLength range (entries.drop start)
  assert (length ≠ 0)
  let first ← index entries start
  let startOverlap := decide (first.range.address < range.address)
  if startOverlap then assert (range.address ≤ (← first.range.after))
  let last ← index entries (← sub (start + length) 1)
  let endOverlap := decide ((← range.after) < (← last.range.after))
  if endOverlap then assert (last.range.address < (← range.after))
  return some { start, length, startOverlap, endOverlap }

inductive UnmapError where
  | outOfMemory
  | rangeNotPageAligned
  deriving DecidableEq, Repr

/-- The batches handed to the page table, from the entries at the given indices on. -/
def unmapBatches (entryRange : EntryRange) (range : VirtualRange) (entries : List Entry) :
    List ℕ → VirtualRangeBatch → Checked (List VirtualRangeBatch)
  | [], batch => .ok (if batch.isEmpty then [] else [batch])
  | i :: indices, batch => do
    let r ← entryRange.rangeAt range entries i
    match ← batch.append r with
    | some batch => unmapBatches entryRange range entries indices batch
    | none =>
      let next ← VirtualRangeBatch.appendMergeIfFull [] r
      return batch :: (← unmapBatches entryRange range entries indices next)

def releaseEntry (heap : Heap) (entry : Entry) (pages : List PhysicalPage) :
    Checked (Heap × List PhysicalPage) := do
  let (heap, pages) ← match entry.anonymousMapReference.anonymousMap with
    | none => pure (heap, pages)
    | some id => AnonMap.decrementReferenceCount heap id pages
  match entry.objectReference.object with
  | none => return (heap, pages)
  | some id => return (← Object.decrementReferenceCount heap id, pages)

/-- The removal loop of `performUnmap`, from the last of `count` entries down to `first`. -/
def removeEntries (first : ℕ) : (count : ℕ) → Heap → List Entry → List PhysicalPage →
    Checked (Heap × List Entry × List PhysicalPage)
  | 0, heap, entries, pages => .ok (heap, entries, pages)
  | count + 1, heap, entries, pages => do
    let entry ← index entries (first + count)
    let (heap, pages) ← releaseEntry heap entry pages
    removeEntries first count heap (entries.eraseIdx (first + count)) pages

/-- The branch for a range inside one entry, which leaves a hole in it. -/
def splitAround (heap : Heap) (entries : List Entry) (start : ℕ) (range : VirtualRange) :
    Checked (Heap × List Entry) := do
  let first ← index entries start
  let splitSize ← difference first.range.address range.address
  let (heap, first, second) ← first.split heap splitSize
  let newSize ← difference (← range.after) (← second.range.after)
  let second ← second.shrink .beginning newSize
  return (heap, (entries.set start first).insertIdx (start + 1) second)

def shrinkFirst (entries : List Entry) (start : ℕ) (range : VirtualRange) :
    Checked (List Entry) := do
  let first ← index entries start
  let newSize ← difference first.range.address range.address
  return entries.set start (← first.shrink .end_ newSize)

def shrinkLast (entries : List Entry) (i : ℕ) (range : VirtualRange) : Checked (List Entry) := do
  let last ← index entries i
  let newSize ← difference (← range.after) (← last.range.after)
  return entries.set i (← last.shrink .beginning newSize)

/-- Shrink the first entry if needed; the rest of the range begins with the next entry. -/
def shrinkFirstIfNeeded (entryRange : EntryRange) (range : VirtualRange) (entries : List Entry) :
    Checked (List Entry × ℕ × ℕ) :=
  if entryRange.startOverlap then do
    let entries ← shrinkFirst entries entryRange.start range
    return (entries, entryRange.start + 1, ← sub entryRange.length 1)
  else .ok (entries, entryRange.start, entryRange.length)

def shrinkLastIfNeeded (entryRange : EntryRange) (range : VirtualRange) (entries : List Entry)
    (first length : ℕ) : Checked (List Entry × ℕ) :=
  if entryRange.endOverlap then do
    let entries ← shrinkLast entries (← sub (first + length) 1) range
    return (entries, ← sub length 1)
  else .ok (entries, length)

def performUnmap (self : AddressSpace) (entryRange : EntryRange) (range : VirtualRange) :
    Checked AddressSpace := do
  if entryRange.isWithinSingleEntry then
    let (heap, entries) ← splitAround self.heap self.entries entryRange.start range
    return { self with heap, entries }
  let (entries, first, length) ← shrinkFirstIfNeeded entryRange range self.entries
  let (entries, length) ← shrinkLastIfNeeded entryRange range entries first length
  let (heap, entries, pages) ← removeEntries first length self.heap entries []
  return { self with heap := heap.deallocate pages, entries }

/-- The result carries the requests made of the page table. -/
def unmap (allocation : Allocation) (self : AddressSpace) (range : VirtualRange) :
    Checked (Except UnmapError (List VirtualRangeBatch) × AddressSpace) := do
  if range.pageAligned = false then return (.error .rangeNotPageAligned, self)
  if range.size = 0 then return (.ok [], self)
  match ← self.entryRange range with
  | none => return (.ok [], self)
  | some entryRange =>
    assert (entryRange.length ≠ 0)
    -- only an entry that contains the whole range needs a new one
    if entryRange.isWithinSingleEntry && !allocation.entryAvailable then
      return (.error .outOfMemory, self)
    let batches ← unmapBatches entryRange range self.entries entryRange.indices []
    let space ← performUnmap
      { self with entriesVersion := (self.entriesVersion + 1) % 2 ^ 32 } entryRange range
    return (.ok batches, space)

end Innigkeit.Memory.AddressSpace

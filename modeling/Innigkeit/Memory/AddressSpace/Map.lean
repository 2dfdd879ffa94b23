import Innigkeit.Memory.Entry
import Innigkeit.Zig.Search

/-!
`AddressSpace.map`: the search for a free range and the insertion of the new
entry, which may be merged with the entry that follows it, with the entry that
precedes it, or with both. The entries are held by value, in order of address;
the version counter is the code's own change detector.
-/

namespace Innigkeit.Memory

open Zig

structure AddressSpace where
  range : VirtualRange
  context : Context
  entries : List Entry := []
  entriesVersion : ℕ := 0
  heap : Heap := {}

namespace AddressSpace

inductive MapOptions.Type where
  | zeroFill
  | object (reference : Object.Reference)
  deriving DecidableEq, Repr

structure MapOptions where
  base : Option ℕ := none
  size : ℕ
  protection : Protection
  maxProtection : Option Protection := none
  type : MapOptions.Type
  deriving DecidableEq, Repr

inductive MapError where
  | zeroSize
  | requestedRangeUnavailable
  | outOfMemory
  | maxProtectionExceeded
  | maxProtectionNone
  | sizeNotMultipleOfAPage
  | baseNotPageAligned
  deriving DecidableEq, Repr

structure FreeRange where
  range : VirtualRange
  insertionIndex : ℕ
  deriving DecidableEq, Repr

def entryAddressCompare (address : ℕ) (entry : Entry) : Checked Ordering :=
  entry.range.containsAddressOrder address

/-- The given range with its insertion index, if no entry overlaps it. -/
def findExactFreeRange (self : AddressSpace) (range : VirtualRange) :
    Checked (Option FreeRange) := do
  let entries := self.entries
  let i ← lowerBound (entryAddressCompare range.address) entries
  if i = entries.length then
    if (← range.after) ≤ (← self.range.after) then return some ⟨range, i⟩
    return none
  let entry ← index entries i
  if ← entry.range.anyOverlap range then return none
  assert ((← range.after) ≤ entry.range.address)
  return some ⟨range, i⟩

/-- The loop of `findFreeRange`: the candidate moves past every entry that it meets. -/
def findFreeRange.loop : List Entry → VirtualRange → ℕ → Checked FreeRange
  | [], candidate, i => .ok ⟨candidate, i⟩
  | entry :: entries, candidate, i => do
    if (← candidate.after) ≤ entry.range.address then return ⟨candidate, i⟩
    let address ← entry.range.after
    let candidate := { candidate with address }
    let _ ← candidate.after
    loop entries candidate (i + 1)

def findFreeRange (self : AddressSpace) (size : ℕ) : Checked (Option FreeRange) := do
  let candidate : VirtualRange := ⟨self.range.address, size⟩
  let _ ← candidate.after
  let free ← findFreeRange.loop self.entries candidate 0
  if (← free.range.after) ≤ (← self.range.after) then return some free
  return none

def validateMapOptions (options : MapOptions) : Except MapError Unit :=
  if options.size = 0 then .error .zeroSize
  else if ¬ PageAligned options.size then .error .sizeNotMultipleOfAPage
  else if ∃ base ∈ options.base, ¬ PageAligned base then .error .baseNotPageAligned
  else if options.maxProtection = some .none then .error .maxProtectionNone
  else if ∃ max ∈ options.maxProtection, options.protection.exceeds max then
    .error .maxProtectionExceeded
  else .ok ()

def localEntry (options : MapOptions) (range : VirtualRange) : Entry where
  range := range
  protection := options.protection
  maxProtection := options.maxProtection.getD options.protection
  objectReference := match options.type with
    | .object reference => reference
    | .zeroFill => {}
  copyOnWrite := true
  needsCopy := true

def freeRange (self : AddressSpace) (options : MapOptions) : Checked (Option FreeRange) :=
  match options.base with
  | some base => self.findExactFreeRange ⟨base, options.size⟩
  | none => self.findFreeRange options.size

/-- Merge the new entry with the entry at `i`. The merged entry takes the place of the following
one and is also the new local entry. -/
def mergeFollowing (heap : Heap) (entries : List Entry) (i : ℕ) (entry : Entry) :
    Checked (Heap × List Entry × Entry × ℕ) := do
  if i = entries.length then return (heap, entries, entry, 0)
  let following ← index entries i
  assert ((← entry.anyOverlap following) = false)
  if ← entry.canMerge heap following then
    let (heap, merged) ← entry.merge heap following
    return (heap, entries.set i merged, merged, 1)
  return (heap, entries, entry, 0)

def mergePreceding (heap : Heap) (entries : List Entry) (i : ℕ) (entry : Entry) (merges : ℕ) :
    Checked (Heap × List Entry × ℕ) := do
  if i = 0 then return (heap, entries, merges)
  let preceding ← index entries (i - 1)
  assert ((← entry.anyOverlap preceding) = false)
  if ← preceding.canMerge heap entry then
    let (heap, merged) ← preceding.merge heap entry
    let entries := entries.set (i - 1) merged
    return (heap, if merges ≠ 0 then entries.eraseIdx i else entries, merges + 1)
  return (heap, entries, merges)

/-- The reference that a fresh entry takes on its object. -/
def referenceObject (heap : Heap) (options : MapOptions) : Checked Heap :=
  match options.type with
  | .object ⟨some id, _⟩ => Object.incrementReferenceCount heap id
  | _ => .ok heap

def insertEntry (allocation : Allocation) (self : AddressSpace) (options : MapOptions)
    (free : FreeRange) : Checked (Except MapError VirtualRange × AddressSpace) := do
  let i := free.insertionIndex
  let entry := localEntry options free.range
  let (heap, entries, entry, merges) ← mergeFollowing self.heap self.entries i entry
  let (heap, entries, merges) ← mergePreceding heap entries i entry merges
  if merges = 0 then
    if allocation.entryAvailable = false then
      return (.error .outOfMemory, self)
    let heap ← referenceObject heap options
    return (.ok entry.range, { self with
      heap, entries := entries.insertIdx i entry
      entriesVersion := (self.entriesVersion + 1) % 2 ^ 32 })
  return (.ok entry.range, { self with
    heap, entries, entriesVersion := (self.entriesVersion + 1) % 2 ^ 32 })

def map (allocation : Allocation) (self : AddressSpace) (options : MapOptions) :
    Checked (Except MapError VirtualRange × AddressSpace) :=
  match validateMapOptions options with
  | .error error => .ok (.error error, self)
  | .ok () => do
    match ← self.freeRange options with
    | none => return (.error .requestedRangeUnavailable, self)
    | some free => insertEntry allocation self options free

end AddressSpace

end Innigkeit.Memory

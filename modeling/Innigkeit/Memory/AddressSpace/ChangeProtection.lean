import Innigkeit.Memory.AddressSpace.Unmap

/-!
`AddressSpace.changeProtection`: validation of the request against every entry
of the range, the batches handed to the page table, and the rewriting of the
entries. The rewriting splits the entries that straddle an end of the range,
modifies the entries of the range from the last to the first, and merges each
with the entry that follows it; a last merge joins the first entry with the one
before the range. The counters are kept because one of them is decremented.
-/

namespace Innigkeit.Memory.AddressSpace

open Zig

inductive ChangeProtection where
  | protection (protection : Protection)
  | maxProtection (maxProtection : Protection)
  | both (protection maxProtection : Protection)
  deriving DecidableEq, Repr

namespace ChangeProtection

structure Request where
  protection : Option Protection
  maxProtection : Option Protection
  deriving DecidableEq, Repr

def toRequest : ChangeProtection → Request
  | .protection new => ⟨some new, none⟩
  | .maxProtection newMax => ⟨none, some newMax⟩
  | .both new newMax => ⟨some new, some newMax⟩

namespace Request

def satisfied (request : Request) (entry : Entry) : Bool :=
  decide ((∀ protection ∈ request.protection, entry.protection = protection) ∧
    ∀ maxProtection ∈ request.maxProtection, entry.maxProtection = maxProtection)

def apply (request : Request) (entry : Entry) : Entry :=
  { entry with
    protection := request.protection.getD entry.protection
    maxProtection := request.maxProtection.getD entry.maxProtection }

end Request

end ChangeProtection

inductive ChangeProtectionError where
  | maxProtectionIncreased
  | maxProtectionExceeded
  | maxProtectionNone
  | outOfMemory
  | rangeNotPageAligned
  deriving DecidableEq, Repr

structure ValidateChangeProtection where
  noOp : Bool := true
  updatePageTable : Bool := false
  deriving DecidableEq, Repr

def validateEntry (request : ChangeProtection.Request) (result : ValidateChangeProtection)
    (entry : Entry) : Except ChangeProtectionError ValidateChangeProtection := do
  let (plannedMaxProtection, result) ← match request.maxProtection with
    | some newMax => do
      if newMax.exceeds entry.maxProtection then throw .maxProtectionIncreased
      pure (newMax, { result with noOp := result.noOp && newMax == entry.maxProtection })
    | none => pure (entry.maxProtection, result)
  match request.protection with
  | some protection =>
    if protection.exceeds plannedMaxProtection then throw .maxProtectionExceeded
    return if protection = entry.protection then result
      else { noOp := false, updatePageTable := true }
  | none =>
    if entry.protection.exceeds plannedMaxProtection then throw .maxProtectionExceeded
    return result

def validateChangeProtection (self : AddressSpace) (entryRange : EntryRange)
    (request : ChangeProtection.Request) :
    Except ChangeProtectionError ValidateChangeProtection :=
  ((self.entries.drop entryRange.start).take entryRange.length).foldlM (validateEntry request) {}

/-- `memory.changeProtection` refuses a protection without permissions. -/
def submitChangeProtection (batch : ChangeProtectionBatch) (newMapType : MapType) :
    Checked (ChangeProtectionBatch × MapType) := do
  assert (newMapType.protection ≠ .none)
  return (batch, newMapType)

/-- The batches handed to the page table, from the entries at the given indices on. -/
def changeProtectionBatches (context : Context) (newMapType : MapType) (entryRange : EntryRange)
    (range : VirtualRange) (entries : List Entry) :
    List ℕ → ChangeProtectionBatch → Checked (List (ChangeProtectionBatch × MapType))
  | [], batch =>
    if batch.isEmpty then .ok [] else do return [← submitChangeProtection batch newMapType]
  | i :: indices, batch => do
    let virtualRange ← entryRange.rangeAt range entries i
    let entry ← index entries i
    let r : VirtualRangeWithMapType :=
      ⟨virtualRange, { type := context, protection := entry.protection }⟩
    match ← batch.append r with
    | some batch =>
      changeProtectionBatches context newMapType entryRange range entries indices batch
    | none =>
      let submitted ← submitChangeProtection batch newMapType
      -- the cleared batch always takes the range
      let next ← ChangeProtectionBatch.append [] r
      return submitted :: (← changeProtectionBatches context newMapType entryRange range entries
        indices (next.getD []))

structure ChangeProtectionResult where
  entriesSplit : ℕ := 0
  entriesModified : ℕ := 0
  entriesMerged : ℕ := 0
  deriving DecidableEq, Repr

def ChangeProtectionResult.count (result : ChangeProtectionResult) (merged modified : Bool) :
    ChangeProtectionResult :=
  if merged then { result with entriesMerged := result.entriesMerged + 1 }
  else if modified then { result with entriesModified := result.entriesModified + 1 }
  else result

/-- Split the entry at `i` and insert its second half behind it, unless the entry already is what
the request asks for. Tells whether it split. -/
def splitEntry (request : ChangeProtection.Request) (heap : Heap) (entries : List Entry) (i : ℕ)
    (address : ℕ) : Checked (Heap × List Entry × Bool) := do
  let entry ← index entries i
  if request.satisfied entry then return (heap, entries, false)
  let splitSize ← VirtualAddress.difference entry.range.address address
  let (heap, first, second) ← entry.split heap splitSize
  return (heap, (entries.set i first).insertIdx (i + 1) second, true)

def mergeAt (heap : Heap) (entries : List Entry) (i : ℕ) :
    Checked (Heap × List Entry × Bool) := do
  if i + 1 < entries.length then
    let entry ← index entries i
    let following ← index entries (i + 1)
    if ← entry.canMerge heap following then
      let (heap, merged) ← entry.merge heap following
      return (heap, (entries.set i merged).eraseIdx (i + 1), true)
  return (heap, entries, false)

/-- The loop over the entries of the range, from the last of `count` entries down to `first`. -/
def modifyEntries (request : ChangeProtection.Request) (first : ℕ) :
    (count : ℕ) → Heap → List Entry → ChangeProtectionResult →
    Checked (Heap × List Entry × ChangeProtectionResult)
  | 0, heap, entries, result => .ok (heap, entries, result)
  | count + 1, heap, entries, result => do
    let i := first + count
    let entry ← index entries i
    let modified := !request.satisfied entry
    let (heap, entries, merged) ← mergeAt heap (entries.set i (request.apply entry)) i
    modifyEntries request first count heap entries (result.count merged modified)

def splitFirstIfNeeded (entryRange : EntryRange) (range : VirtualRange)
    (request : ChangeProtection.Request) (heap : Heap) (entries : List Entry) :
    Checked (Heap × List Entry × Bool) :=
  if entryRange.startOverlap then
    splitEntry request heap entries entryRange.start range.address
  else .ok (heap, entries, false)

/-- The split at the end of the range, whose entries begin at the index `first` by now. -/
def splitLastIfNeeded (entryRange : EntryRange) (range : VirtualRange)
    (request : ChangeProtection.Request) (first : ℕ) (heap : Heap) (entries : List Entry) :
    Checked (Heap × List Entry × Bool) :=
  if entryRange.endOverlap then do
    let lastEntryIndex ← sub (first + entryRange.length) 1
    splitEntry request heap entries lastEntryIndex (← range.after)
  else .ok (heap, entries, false)

/-- The merge with the entry before the range. The code takes the first entry of the range to have
been counted as modified. -/
def mergeFirstIfPossible (entryRange : EntryRange) (index : ℕ) (heap : Heap) (entries : List Entry)
    (result : ChangeProtectionResult) : Checked (Heap × List Entry × ChangeProtectionResult) :=
  if entryRange.startOverlap = false ∧ index ≠ 0 then do
    let (heap, entries, merged) ← mergeAt heap entries (index - 1)
    if merged then
      let entriesModified ← sub result.entriesModified 1
      return (heap, entries,
        { result with entriesModified, entriesMerged := result.entriesMerged + 1 })
    else return (heap, entries, result)
  else .ok (heap, entries, result)

def performChangeProtection (self : AddressSpace) (entryRange : EntryRange) (range : VirtualRange)
    (request : ChangeProtection.Request) : Checked (ChangeProtectionResult × AddressSpace) := do
  let (heap, entries, splitFirst) ←
    splitFirstIfNeeded entryRange range request self.heap self.entries
  let first := entryRange.start + splitFirst.toNat
  let (heap, entries, splitLast) ← splitLastIfNeeded entryRange range request first heap entries
  let result : ChangeProtectionResult := { entriesSplit := splitFirst.toNat + splitLast.toNat }
  let (heap, entries, result) ←
    modifyEntries request first entryRange.length heap entries result
  let (heap, entries, result) ← mergeFirstIfPossible entryRange first heap entries result
  return (result, { self with heap, entries })

def updatePageTable (self : AddressSpace) (entryRange : EntryRange) (range : VirtualRange)
    (request : ChangeProtection.Request) (validated : ValidateChangeProtection) :
    Checked (List (ChangeProtectionBatch × MapType)) :=
  if validated.updatePageTable then do
    let protection ← unwrap request.protection
    changeProtectionBatches self.context { type := self.context, protection } entryRange range
      self.entries entryRange.indices []
  else .ok []

/-- How many new entries `preallocateChangeProtection` asks for. -/
def worseCaseNewEntries (entryRange : EntryRange) : ℕ :=
  entryRange.startOverlap.toNat + entryRange.endOverlap.toNat

/-- The result carries the requests made of the page table. -/
def changeProtection (allocation : Allocation) (self : AddressSpace) (range : VirtualRange)
    (change : ChangeProtection) :
    Checked (Except ChangeProtectionError (List (ChangeProtectionBatch × MapType)) ×
      AddressSpace) := do
  let request := change.toRequest
  if range.pageAligned = false then return (.error .rangeNotPageAligned, self)
  if request.maxProtection = some .none then return (.error .maxProtectionNone, self)
  if range.size = 0 then return (.ok [], self)
  match ← self.entryRange range with
  | none => return (.ok [], self)
  | some entryRange =>
    assert (entryRange.length ≠ 0)
    match self.validateChangeProtection entryRange request with
    | .error error => return (.error error, self)
    | .ok validated =>
      if validated.noOp then return (.ok [], self)
      if worseCaseNewEntries entryRange ≠ 0 ∧ allocation.entryAvailable = false then
        return (.error .outOfMemory, self)
      let batches ← self.updatePageTable entryRange range request validated
      let (_, space) ← performChangeProtection
        { self with entriesVersion := (self.entriesVersion + 1) % 2 ^ 32 } entryRange range
        request
      return (.ok batches, space)

end Innigkeit.Memory.AddressSpace

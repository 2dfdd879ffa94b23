import Innigkeit.Memory.AddressSpace.ChangeProtection

/-!
Page faults. A fault runs in sections, each under one hold of the entries lock:
`faultCheck` followed by the service of the page, or `faultCheck` that finds an
entry without its own anonymous map, `anonymousMapCopy` under the write lock,
and a restart. Every section is a function here, so that other operations can
run between them; `handlePageFault` is their undisturbed composition. The
object-backed branches are the panics that the code has in their place.
-/

namespace Innigkeit.Memory

open Zig AnonPage

namespace AnonMap

/-- The loop of `copy` over the populated slots of the old map; `false` after an allocation
failure, with the partial copy released again. -/
def copySlots (allocation : Allocation) (startPage entryPages : ℕ) (newMap : AnonMapId) :
    List (ℕ × AnonPageId) → Heap → Checked (Bool × Heap)
  | [], heap => .ok (true, heap)
  | (slotIndex, page) :: slots, heap => do
    let endPage ← add 32 startPage entryPages
    if slotIndex < startPage ∨ endPage ≤ slotIndex then
      copySlots allocation startPage entryPages newMap slots heap
    else
      let heap ← incrementReferenceCount heap page
      let newIndex ← sub slotIndex startPage
      let map ← heap.anonymousMap newMap
      if map.ensureChunk allocation newIndex = false then
        let (heap, pages) ← decrementReferenceCount heap page []
        let (heap, pages) ← decrementReferenceCount heap newMap pages
        return (false, heap.deallocate pages)
      let pagesInUse ← PageCount.increment map.pagesInUse
      copySlots allocation startPage entryPages newMap slots
        (heap.setAnonymousMap newMap { map.setSlot newIndex page with pagesInUse })

/-- Give the entry an anonymous map of its own; `none` stands for `error.OutOfMemory`. -/
def copy (allocation : Allocation) (heap : Heap) (entry : Entry) :
    Checked (Option Entry × Heap) := do
  match entry.anonymousMapReference.anonymousMap with
  | none =>
    match ← create allocation heap entry.range.size with
    | none => return (none, heap)
    | some (id, heap) =>
      return (some { entry with anonymousMapReference := ⟨some id, 0⟩, needsCopy := false },
        heap)
  | some oldId =>
    let oldMap ← heap.anonymousMap oldId
    if oldMap.referenceCount = 1 then return (some { entry with needsCopy := false }, heap)
    match ← create allocation heap entry.range.size with
    | none => return (none, heap)
    | some (newId, heap) =>
      let startPage ← intCast 32 (entry.anonymousMapReference.startOffset / standardPageSize)
      let entryPages ← intCast 32 (entry.range.size / standardPageSize)
      let (copied, heap) ← copySlots allocation startPage entryPages newId
        oldMap.anonymousPageChunks heap
      if copied then
        let (heap, pages) ← decrementReferenceCount heap oldId []
        return (some { entry with anonymousMapReference := ⟨some newId, 0⟩, needsCopy := false },
          heap.deallocate pages)
      return (none, heap)

namespace Reference

def targetIndex (entry : Entry) (reference : Reference) (faultingAddress : ℕ) :
    Checked ℕ := do
  assert ((← entry.range.containsAddress faultingAddress) = true)
  let offset ← VirtualAddress.difference entry.range.address faultingAddress
  intCast 32 (offset / standardPageSize + reference.startOffset / standardPageSize)

/-- The slot of the address; `lookup` and `add` assert the same of their arguments. -/
def slotOf (self : Reference) (heap : Heap) (entry : Entry) (faultingAddress : ℕ) :
    Checked (AnonMapId × AnonMap × ℕ) := do
  let id ← unwrap self.anonymousMap
  assert (entry.anonymousMapReference = self)
  assert (PageAligned faultingAddress)
  let slot ← targetIndex entry self faultingAddress
  let map ← heap.anonymousMap id
  assert (slot < map.numberOfPages)
  return (id, map, slot)

def lookup (self : Reference) (heap : Heap) (entry : Entry) (faultingAddress : ℕ) :
    Checked (Option AnonPageId) := do
  assert (PageAligned self.startOffset)
  let (_, map, slot) ← self.slotOf heap entry faultingAddress
  return map.get slot

inductive AddOperation where
  | add
  | replace
  deriving DecidableEq, Repr

/-- `none` stands for `error.OutOfMemory`. -/
def add (self : Reference) (allocation : Allocation) (heap : Heap) (entry : Entry)
    (faultingAddress : ℕ) (page : AnonPageId) (operation : AddOperation) :
    Checked (Option Heap) := do
  let (id, map, slot) ← self.slotOf heap entry faultingAddress
  if map.ensureChunk allocation slot = false then return none
  let pagesInUse ← match operation with
    | .add => do
      assert (map.get slot = none)
      PageCount.increment map.pagesInUse
    | .replace => do
      assert (map.get slot ≠ none)
      pure map.pagesInUse
  return some (heap.setAnonymousMap id { map.setSlot slot page with pagesInUse })

end Reference

end AnonMap

inductive AccessType where
  | read
  | write
  | execute
  deriving DecidableEq, Repr

def Protection.allows (protection : Protection) : AccessType → Bool
  | .read => protection.read
  | .write => protection.write
  | .execute => protection.execute

inductive HandlePageFaultError where
  | notMapped
  | protection
  | outOfMemory
  deriving DecidableEq, Repr

/-- What a served fault enters into the page table. -/
structure PageMapping where
  address : ℕ
  page : PhysicalPage
  mapType : MapType
  deriving DecidableEq, Repr

/-- `memory.mapSinglePage`; `false` when the page table could not be extended. -/
def mapSinglePage (allocation : Allocation) (mapping : PageMapping) : Checked Bool := do
  assert (mapping.mapType.protection ≠ .none)
  assert (PageAligned mapping.address)
  return allocation.succeeds .pageTablePage

structure FaultInfo where
  faultingAddress : ℕ
  accessType : AccessType
  enterProtection : Protection := .none
  wired : Bool := false
  deriving DecidableEq, Repr

namespace AddressSpace

def entryIndexByAddress (self : AddressSpace) (address : ℕ) : Checked (Option ℕ) :=
  binarySearch (entryAddressCompare address) self.entries

def setEntry (self : AddressSpace) (i : ℕ) (entry : Entry) : AddressSpace :=
  { self with entries := self.entries.set i entry }

/-- How `faultCheck` leaves the fault: failed, about to copy, or ready with the entry and the
page in its slot. -/
inductive FaultCheck where
  | failed (error : HandlePageFaultError)
  | needsCopy (info : FaultInfo)
  | ready (info : FaultInfo) (entry : Entry) (page : Option AnonPageId)
  deriving DecidableEq, Repr

/-- The protection to enter the page at; a wired entry is faulted with full access. -/
def enterInfo (info : FaultInfo) (entry : Entry) : FaultInfo :=
  let info := { info with enterProtection := entry.protection }
  if entry.wiredCount ≠ 0 then
    { info with
      wired := true
      accessType := if entry.protection.write then .write
        else if entry.protection.execute then .execute
        else info.accessType }
  else info

def faultCheck (self : AddressSpace) (info : FaultInfo) : Checked FaultCheck := do
  match ← self.entryIndexByAddress info.faultingAddress with
  | none => return .failed .notMapped
  | some i =>
    let entry ← index self.entries i
    if entry.protection.allows info.accessType = false then return .failed .protection
    let info := enterInfo info entry
    if entry.needsCopy ∧ (info.accessType = .write ∨ entry.objectReference.object = none) then
      return .needsCopy info
    let info := if entry.needsCopy ∧ info.enterProtection.read ∧ info.enterProtection.write ∧
        info.accessType = .read then { info with enterProtection := { read := true } } else info
    assert (entry.anonymousMapReference.anonymousMap ≠ none ∨
      entry.objectReference.object ≠ none)
    if entry.anonymousMapReference.anonymousMap ≠ none then
      return .ready info entry
        (← entry.anonymousMapReference.lookup self.heap entry info.faultingAddress)
    return .ready info entry none

/-- Clear `needsCopy` of the entry at the address, under the write lock. -/
def anonymousMapCopy (allocation : Allocation) (self : AddressSpace) (address : ℕ) :
    Checked (Except HandlePageFaultError Unit × AddressSpace) := do
  match ← self.entryIndexByAddress address with
  | none => return (.error .notMapped, self)
  | some i =>
    let entry ← index self.entries i
    if entry.needsCopy = false then return (.ok (), self)
    match ← AnonMap.copy allocation self.heap entry with
    | (none, heap) => return (.error .outOfMemory, { self with heap })
    | (some entry, heap) => return (.ok (), { self.setEntry i entry with heap })

/-- The end of both service functions: enter the page into the page table. -/
def enterPage (allocation : Allocation) (self : AddressSpace) (info : FaultInfo)
    (page : PhysicalPage) : Checked (Except HandlePageFaultError PageMapping × AddressSpace) := do
  let mapping : PageMapping :=
    ⟨info.faultingAddress, page, { type := self.context, protection := info.enterProtection }⟩
  if ← mapSinglePage allocation mapping then return (.ok mapping, self)
  return (.error .outOfMemory, self)

def faultObjectOrZeroFill (allocation : Allocation) (self : AddressSpace) (info : FaultInfo)
    (entry : Entry) : Checked (Except HandlePageFaultError PageMapping × AddressSpace) := do
  if entry.objectReference.object ≠ none then throw .panic
  let _ ← unwrap entry.anonymousMapReference.anonymousMap
  if allocation.succeeds .physicalPage = false then return (.error .outOfMemory, self)
  match create allocation self.heap allocation.page with
  | none =>
    return (.error .outOfMemory, { self with heap := self.heap.deallocate [allocation.page] })
  | some (anonymousPage, heap) =>
    match ← entry.anonymousMapReference.add allocation heap entry info.faultingAddress
        anonymousPage .add with
    | none => return (.error .outOfMemory, { self with heap })
    | some heap =>
      let result ← enterPage allocation { self with heap } info allocation.page
      if info.wired ∧ result.1.isOk then throw .panic
      return result

/-- The page of the slot is entered as it is, or a private copy if it is shared and written. -/
def faultUpper (allocation : Allocation) (self : AddressSpace) (info : FaultInfo) (entry : Entry)
    (anonymousPage : AnonPageId) :
    Checked (Except HandlePageFaultError PageMapping × AddressSpace) := do
  let page ← self.heap.anonymousPage anonymousPage
  if info.accessType = .write ∧ 1 < page.referenceCount then
    if allocation.succeeds .physicalPage = false then return (.error .outOfMemory, self)
    match create allocation self.heap allocation.page with
    | none =>
      return (.error .outOfMemory, { self with heap := self.heap.deallocate [allocation.page] })
    | some (newPage, heap) =>
      let (heap, pages) ← decrementReferenceCount heap anonymousPage []
      match ← entry.anonymousMapReference.add allocation heap entry info.faultingAddress
          newPage .replace with
      | none =>
        return (.error .outOfMemory,
          { self with heap := (heap.deallocate [allocation.page]).deallocate pages })
      | some heap =>
        enterPage allocation { self with heap := heap.deallocate pages } info allocation.page
  else enterPage allocation self info page.physicalPage

/-- The service of a fault that `faultCheck` found ready, under the same hold of the lock. -/
def serviceFault (allocation : Allocation) (self : AddressSpace) (info : FaultInfo)
    (entry : Entry) (page : Option AnonPageId) :
    Checked (Except HandlePageFaultError PageMapping × AddressSpace) :=
  match page with
  | some anonymousPage => faultUpper allocation self info entry anonymousPage
  | none => faultObjectOrZeroFill allocation self info entry

/-- The loop of `handlePageFault`, with the outcomes of the allocations of each round; `none` when
the rounds run out. -/
def handlePageFault.loop : List Allocation → AddressSpace → FaultInfo →
    Checked (Option (Except HandlePageFaultError PageMapping) × AddressSpace)
  | [], self, _ => .ok (none, self)
  | allocation :: rounds, self, info => do
    match ← self.faultCheck info with
    | .failed error => return (some (.error error), self)
    | .needsCopy info =>
      match ← anonymousMapCopy allocation self info.faultingAddress with
      | (.error error, self) => return (some (.error error), self)
      | (.ok (), self) => loop rounds self info
    | .ready info entry page =>
      let (result, self) ← serviceFault allocation self info entry page
      return (some result, self)

def handlePageFault (rounds : List Allocation) (self : AddressSpace) (address : ℕ)
    (accessType : AccessType) :
    Checked (Option (Except HandlePageFaultError PageMapping) × AddressSpace) :=
  handlePageFault.loop rounds self
    { faultingAddress := VirtualAddress.pageAlignBackward address, accessType }

end AddressSpace

end Innigkeit.Memory

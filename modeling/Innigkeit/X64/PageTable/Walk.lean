import Innigkeit.X64.PageTable.Entry
import Innigkeit.Memory.AnonMap
import Innigkeit.Memory.VirtualRangeBatch

/-!
Unmapping and changing the protection of a range in a four-level page table.
Both walk the four levels in nested loops: each loop takes its first index from
the address that the walk has reached and its last index from the last address
of the range, and both collect neighbouring pages in a range to be flushed. The
walk is one definition here, with what is done to a present page and to the
tables left empty as its parameter.

A table is the function from an index to its entry. An entry above level 1 comes
with the table that it points to, so the tables form a tree.
-/

namespace Innigkeit.X64.PageTable

open Zig Memory VirtualAddress

def numberOfEntries : ℕ := 512

def smallPageSize : ℕ := 2 ^ 12
def mediumPageSize : ℕ := 2 ^ 21
def largePageSize : ℕ := 2 ^ 30
def level4AddressSpaceSize : ℕ := 2 ^ 39

def p1Index (address : ℕ) : ℕ := address / 2 ^ 12 % 512
def p2Index (address : ℕ) : ℕ := address / 2 ^ 21 % 512
def p3Index (address : ℕ) : ℕ := address / 2 ^ 30 % 512
def p4Index (address : ℕ) : ℕ := address / 2 ^ 39 % 512

/-- An entry above level 1 and the table it points to, if it is present. -/
structure TableEntry (Next : Type) where
  raw : Raw
  next : Next

abbrev Level1Table := ℕ → Raw
abbrev Level2Table := ℕ → TableEntry Level1Table
abbrev Level3Table := ℕ → TableEntry Level2Table
abbrev Level4Table := ℕ → TableEntry Level3Table

/-- A table is empty if all its words are zero, present or not. -/
def isEmpty {E : Type} (raw : E → Raw) (table : ℕ → E) : Bool :=
  decide (∀ i < numberOfEntries, raw (table i) = 0)

inductive CleanupDecision where
  | keep
  | free
  deriving DecidableEq, Repr

/-- The index of a physical page is an `enum(u32)`. -/
def PhysicalPage.fromAddress (address : Raw) : Checked PhysicalPage :=
  intCast 32 (address.toNat / standardPageSize)

/-- What the loops of a walk share. -/
structure Walk where
  currentVirtualAddress : ℕ
  inProgressRange : Option VirtualRange := none
  flushBatch : VirtualRangeBatch
  deallocatePageList : List PhysicalPage

namespace Walk

/-- The range in progress ends here. -/
def flush (walk : Walk) : Checked Walk :=
  match walk.inProgressRange with
  | none => return walk
  | some range => do
    let flushBatch ← walk.flushBatch.appendMergeIfFull range
    return { walk with flushBatch, inProgressRange := none }

/-- The page at the current address is to be flushed too. -/
def extend (walk : Walk) (needToFlush : Bool) : Checked Walk :=
  match walk.inProgressRange with
  | some range => do
    let size ← add 64 range.size smallPageSize
    return { walk with inProgressRange := some { range with size } }
  | none =>
    if needToFlush then
      return { walk with inProgressRange := some ⟨walk.currentVirtualAddress, smallPageSize⟩ }
    else return walk

def moveForwardPage (walk : Walk) : Checked Walk := do
  let address ← moveForward walk.currentVirtualAddress smallPageSize
  return { walk with currentVirtualAddress := address }

/-- Move to the beginning of the next unit of the size. -/
def skip (walk : Walk) (size : ℕ) : Checked Walk := do
  let address ← moveForward walk.currentVirtualAddress size
  return { walk with currentVirtualAddress := alignBackward address size }

def prepend (walk : Walk) (entry : Raw) : Checked Walk := do
  let page ← PhysicalPage.fromAddress (Entry.getAddress4kib entry)
  return { walk with deallocatePageList := page :: walk.deallocatePageList }

def prependIf (walk : Walk) (decision : CleanupDecision) (entry : Raw) : Checked Walk :=
  if decision = .free then walk.prepend entry else return walk

end Walk

/-- What a walk does to the pages and tables it comes by. -/
structure Visitor where
  update : Raw → Raw
  needToFlush : Bool
  backingPage : CleanupDecision
  lowerTables : CleanupDecision
  topLevel : CleanupDecision

section

variable (visitor : Visitor)

def visitPage (_index : ℕ) (entry : Raw) (walk : Walk) : Checked (Raw × Walk) := do
  if Entry.present entry = false then
    let walk ← walk.flush
    return (entry, ← walk.moveForwardPage)
  else
    let walk ← walk.prependIf visitor.backingPage entry
    let walk ← walk.extend visitor.needToFlush
    return (visitor.update entry, ← walk.moveForwardPage)

/-- An entry above level 1. Its table is unlinked when it was left empty, if the decision is so. -/
def visitEntry {Next : Type} (size : ℕ) (decision : CleanupDecision) (empty : Next → Bool)
    (visitNext : ℕ → Next → Walk → Checked (Next × Walk)) (index : ℕ) (entry : TableEntry Next)
    (walk : Walk) : Checked (TableEntry Next × Walk) :=
  match Entry.getNextLevel entry.raw with
  | .error .notPresent => do
    let walk ← walk.flush
    return (entry, ← walk.skip size)
  | .error .hugePage => throw .panic
  | .ok () => do
    let (next, walk) ← visitNext index entry.next walk
    if decision = .free ∧ empty next = true then
      return ({ raw := 0, next }, ← walk.prepend entry.raw)
    else return ({ entry with next }, walk)

/-- The loop over the entries of a table from the first index to the last. -/
def visitTable {E : Type} (visit : ℕ → E → Walk → Checked (E × Walk)) (first last : ℕ)
    (table : ℕ → E) (walk : Walk) : Checked ((ℕ → E) × Walk) :=
  (List.range' first (last + 1 - first)).foldlM (fun state index => do
    let (entry, walk) ← visit index (state.1 index) state.2
    return (Function.update state.1 index entry, walk)) (table, walk)

/-- The last index of a loop: that of the last address if the index above is that of the last
address too. -/
def lastIndex (lastAbove index last : ℕ) : ℕ :=
  if lastAbove = index then last else numberOfEntries - 1

def visitLevel1 (lastAddress index : ℕ) (table : Level1Table) (walk : Walk) :
    Checked (Level1Table × Walk) :=
  visitTable (visitPage visitor) (p1Index walk.currentVirtualAddress)
    (lastIndex (p2Index lastAddress) index (p1Index lastAddress)) table walk

def visitLevel2 (lastAddress index : ℕ) (table : Level2Table) (walk : Walk) :
    Checked (Level2Table × Walk) :=
  visitTable
    (visitEntry mediumPageSize visitor.lowerTables (isEmpty id) (visitLevel1 visitor lastAddress))
    (p2Index walk.currentVirtualAddress)
    (lastIndex (p3Index lastAddress) index (p2Index lastAddress)) table walk

def visitLevel3 (lastAddress index : ℕ) (table : Level3Table) (walk : Walk) :
    Checked (Level3Table × Walk) :=
  visitTable
    (visitEntry largePageSize visitor.lowerTables (isEmpty TableEntry.raw)
      (visitLevel2 visitor lastAddress))
    (p3Index walk.currentVirtualAddress)
    (lastIndex (p4Index lastAddress) index (p3Index lastAddress)) table walk

def visitLevel4 (lastAddress : ℕ) (table : Level4Table) (walk : Walk) :
    Checked (Level4Table × Walk) :=
  visitTable
    (visitEntry level4AddressSpaceSize visitor.topLevel (isEmpty TableEntry.raw)
      (visitLevel3 visitor lastAddress))
    (p4Index walk.currentVirtualAddress) (p4Index lastAddress) table walk

def visitRange (table : Level4Table) (range : VirtualRange) (flushBatch : VirtualRangeBatch)
    (deallocatePageList : List PhysicalPage) : Checked (Level4Table × Walk) := do
  assert (range.pageAligned = true)
  let lastAddress ← range.last
  let (table, walk) ← visitLevel4 visitor lastAddress table
    { currentVirtualAddress := range.address, flushBatch, deallocatePageList }
  return (table, ← walk.flush)

end

def unmapVisitor (backingPageDecision topLevelDecision : CleanupDecision) : Visitor where
  update _ := 0
  needToFlush := true
  backingPage := backingPageDecision
  lowerTables := .free
  topLevel := topLevelDecision

def unmap (table : Level4Table) (range : VirtualRange)
    (backingPageDecision topLevelDecision : CleanupDecision) (flushBatch : VirtualRangeBatch)
    (deallocatePageList : List PhysicalPage) :
    Checked (Level4Table × VirtualRangeBatch × List PhysicalPage) := do
  let (table, walk) ← visitRange (unmapVisitor backingPageDecision topLevelDecision) table range
    flushBatch deallocatePageList
  return (table, walk.flushBatch, walk.deallocatePageList)

def needToFlush (previous new : MapType) : Bool :=
  previous.type != new.type || previous.cache != new.cache ||
    previous.protection.execute != new.protection.execute ||
    previous.protection.write != new.protection.write

def changeProtectionVisitor (executeDisable : Bool) (previousMapType newMapType : MapType) :
    Visitor where
  update entry := Entry.applyMapType executeDisable entry newMapType
  needToFlush := needToFlush previousMapType newMapType
  backingPage := .keep
  lowerTables := .keep
  topLevel := .keep

def changeProtection (executeDisable : Bool) (table : Level4Table) (range : VirtualRange)
    (previousMapType newMapType : MapType) (flushBatch : VirtualRangeBatch) :
    Checked (Level4Table × VirtualRangeBatch) := do
  let (table, walk) ← visitRange
    (changeProtectionVisitor executeDisable previousMapType newMapType) table range flushBatch []
  return (table, walk.flushBatch)

end Innigkeit.X64.PageTable

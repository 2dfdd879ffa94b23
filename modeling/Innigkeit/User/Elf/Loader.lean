import Innigkeit.User.Elf.Header
import Innigkeit.User.Handlers.Memory

/-!
`loadAndJump`: four passes over the loadable regions of an ELF file (map, copy,
synchronise, protect) and a last one over its program headers, which looks for
the address of the table itself. Each pass reads the table again. Mapping,
copying and entering user space are given by a platform.
-/

namespace Innigkeit.User.Elf

open Zig Memory Handlers

def fullyContains (range other : VirtualRange) : Checked Bool := do
  if range.address ≤ other.address then return decide ((← other.after) ≤ (← range.after))
  else return false

def taggedRange (range : VirtualRange) : Checked Tagged := do
  if ← fullyContains kernelMemoryRange range then return .kernel
  if ← fullyContains userMemoryRange range then return .user
  return .invalid

structure LoadableRegion where
  virtualRange : VirtualRange
  protection : Protection
  sourceBase : ℕ
  sourceLength : ℕ
  destinationOffset : ℕ
  deriving DecidableEq, Repr

inductive RegionError where
  | programHeaderInvalidSize
  | programHeaderInvalidVirtualAddress
  | programHeaderInvalidProtection
  | programHeaderWritableExecutable
  deriving DecidableEq, Repr

def ProgramHeader.protection (self : ProgramHeader) : Protection :=
  { read := self.read, write := self.write, execute := self.execute }

/-- The region of a program header; `none` for a header that the iterator skips. -/
def ProgramHeader.loadableRegion (self : ProgramHeader) :
    Checked (Except RegionError (Option LoadableRegion)) := do
  if self.type ≠ ProgramHeader.load then return .ok none
  if self.memorySize = 0 then return .ok none
  if self.memorySize < self.fileSize then return .error .programHeaderInvalidSize
  let address := VirtualAddress.pageAlignBackward self.virtualAddress
  let offsetDueToAlignment ← VirtualAddress.difference address self.virtualAddress
  let rangeSize ← alignForwardPage (← add 64 offsetDueToAlignment self.memorySize)
  let virtualRange : VirtualRange := ⟨address, rangeSize⟩
  assert (virtualRange.pageAligned = true)
  if (← taggedRange virtualRange) ≠ .user then return .error .programHeaderInvalidVirtualAddress
  if self.protection = .none then return .error .programHeaderInvalidProtection
  if self.write = true ∧ self.execute = true then return .error .programHeaderWritableExecutable
  -- `toUser` asserts what was just tested
  assert ((← fullyContains userMemoryRange virtualRange) = true)
  return .ok (some {
    virtualRange
    protection := self.protection
    sourceBase := self.offset
    sourceLength := self.fileSize
    destinationOffset := offsetDueToAlignment })

/-- The loop of `LoadableRegion.Iterator.next`, for as many entries as the table has left. -/
def nextRegion.loop : ℕ → Iterator →
    Checked (Except RegionError (Option LoadableRegion) × Iterator)
  | 0, it => .ok (.ok none, it)
  | entries + 1, it => do
    match ← it.next with
    | (none, it) => return (.ok none, it)
    | (some header, it) =>
      match ← header.loadableRegion with
      | .error error => return (.error error, it)
      | .ok none => nextRegion.loop entries it
      | .ok (some region) => return (.ok (some region), it)

def nextRegion (it : Iterator) : Checked (Except RegionError (Option LoadableRegion) × Iterator) :=
  nextRegion.loop (it.header.programHeaderEntryCount - it.index) it

inductive LoadError where
  | parse (error : ParseError)
  | iterate (error : IterateError)
  | region (error : RegionError)
  | map (error : AddressSpace.MapError)
  | changeProtection (error : AddressSpace.ChangeProtectionError)
  | invalidEntryPoint
  | programHeaderTableOutOfBounds
  | elfSegmentOutOfBounds
  | badAddress
  deriving DecidableEq, Repr

/-- What `startProcess` is told. -/
structure Jump where
  entryPoint : ℕ
  phdrVaddr : ℕ
  phnum : ℕ
  deriving DecidableEq, Repr

/-- The rest of the kernel, as far as the loader calls it. `map` is asked for readable and writable
memory without a limit on later protections, `changeProtection` for the same protection as the
maximum. -/
structure Platform (σ : Type) where
  map : σ → VirtualRange → Checked (Except LoadError Unit × σ)
  memcpy : σ → ℕ → Bytes → Checked (Except LoadError Unit × σ)
  changeProtection : σ → VirtualRange → Protection → Checked (Except LoadError Unit × σ)
  startProcess : σ → Jump → Checked (Except LoadError Unit × σ)

section

variable {σ : Type}

def eachRegion.loop (body : σ → LoadableRegion → Checked (Except LoadError Unit × σ)) :
    ℕ → Iterator → σ → Checked (Except LoadError Unit × σ)
  | 0, _, s => .ok (.ok (), s)
  | regions + 1, it, s => do
    match ← nextRegion it with
    | (.error error, _) => return (.error (.region error), s)
    | (.ok none, _) => return (.ok (), s)
    | (.ok (some region), it) =>
      match ← body s region with
      | (.error error, s) => return (.error error, s)
      | (.ok (), s) => eachRegion.loop body regions it s

/-- A pass over the loadable regions: there are no more of them than entries. -/
def eachRegion (header : Header) (table : Bytes)
    (body : σ → LoadableRegion → Checked (Except LoadError Unit × σ)) (s : σ) :
    Checked (Except LoadError Unit × σ) := do
  match ← iterateProgramHeaders header table with
  | .error error => return (.error (.iterate error), s)
  | .ok it => eachRegion.loop body (header.programHeaderEntryCount + 1) it s

def copyRegion (platform : Platform σ) (elfData : Bytes) (s : σ) (region : LoadableRegion) :
    Checked (Except LoadError Unit × σ) := do
  if region.sourceLength = 0 then return (.ok (), s)
  if elfData.length ≤ region.sourceBase ∨
      elfData.length - region.sourceBase < region.sourceLength then
    return (.error .elfSegmentOutOfBounds, s)
  assert (region.destinationOffset ≤ region.virtualRange.size)
  platform.memcpy s (region.virtualRange.address + region.destinationOffset)
    ((elfData.drop region.sourceBase).take region.sourceLength)

/-- The search for the segment that covers the program header table. -/
def phdrVaddr.loop (programHeaderOffset : ℕ) : ℕ → Iterator → Checked ℕ
  | 0, _ => .ok 0
  | entries + 1, it => do
    match ← it.next with
    | (none, _) => return 0
    | (some header, it) =>
      if header.type ≠ ProgramHeader.load then loop programHeaderOffset entries it
      else if header.offset ≤ programHeaderOffset then
        if programHeaderOffset < (← add 64 header.offset header.fileSize) then
          add 64 header.virtualAddress (← sub programHeaderOffset header.offset)
        else loop programHeaderOffset entries it
      else loop programHeaderOffset entries it

def phdrVaddr (header : Header) (it : Iterator) : Checked ℕ :=
  phdrVaddr.loop header.programHeaderOffset (header.programHeaderEntryCount + 1) it

/-- The passes of `loadAndJump` that populate and protect the regions. -/
def loadRegions (platform : Platform σ) (elfData : Bytes) (header : Header) (table : Bytes)
    (s : σ) : Checked (Except LoadError Unit × σ) := do
  match ← eachRegion header table (fun s region => platform.map s region.virtualRange) s with
  | (.error error, s) => return (.error error, s)
  | (.ok (), s) =>
  match ← eachRegion header table (copyRegion platform elfData) s with
  | (.error error, s) => return (.error error, s)
  | (.ok (), s) =>
  -- the instruction cache is synchronised with the executable regions
  match ← eachRegion header table (fun s _ => .ok (.ok (), s)) s with
  | (.error error, s) => return (.error error, s)
  | (.ok (), s) =>
  eachRegion header table
    (fun s region => platform.changeProtection s region.virtualRange region.protection) s

def loadAndJump (platform : Platform σ) (s : σ) (elfData : Bytes) :
    Checked (Except LoadError Unit × σ) := do
  match ← parse elfData with
  | .error error => return (.error (.parse error), s)
  | .ok header =>
  if (← tagged header.entry) ≠ .user then return (.error .invalidEntryPoint, s)
  let location ← programHeaderTableLocation header
  if elfData.length < location.offset ∨ elfData.length - location.offset < location.size then
    return (.error .programHeaderTableOutOfBounds, s)
  let table := (elfData.drop location.offset).take location.size
  match ← loadRegions platform elfData header table s with
  | (.error error, s) => return (.error error, s)
  | (.ok (), s) =>
  match ← iterateProgramHeaders header table with
  | .error error => return (.error (.iterate error), s)
  | .ok it =>
  platform.startProcess s
    ⟨header.entry, ← phdrVaddr header it, header.programHeaderEntryCount⟩

end

end Innigkeit.User.Elf

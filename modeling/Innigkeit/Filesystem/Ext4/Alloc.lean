import Innigkeit.Filesystem.Ext4.Lookup

/-!
Allocation on disk: block and inode bitmaps, the counters in the group
descriptors and the superblock, and the inode table. A descriptor is 32 or 64
bytes long and at most 256 bytes of an inode are written, so none of these
writes covers whole sectors and the device refuses every one of them.
-/

namespace Innigkeit.Filesystem.Ext4

open Action

def testBit (bitmap : Bytes) (b : Nat) : Bool := (bitmap (b / 8)).getLsbD (b % 8)

def setBit (bitmap : Bytes) (b : Nat) : Bytes :=
  Function.update bitmap (b / 8) (bitmap (b / 8) ||| BitVec.ofNat 8 (2 ^ (b % 8)))

def clearBit (bitmap : Bytes) (b : Nat) : Bytes :=
  Function.update bitmap (b / 8) (bitmap (b / 8) &&& ~~~BitVec.ofNat 8 (2 ^ (b % 8)))

def findFree (bitmap : Bytes) (n : Nat) : Option Nat :=
  (List.range n).find? fun b => !testBit bitmap b

namespace SbInfo

variable (sb : SbInfo)

def writeBlock (blockNum : Nat) (buf : Bytes) : Action Unit :=
  writeBytes (blockNum * sb.blockSize) buf sb.blockSize

def readGroupDescBitmapBlock (d : Device) (group : Nat) : Result Nat := do
  let raw ← sb.readDesc d group
  let (hi, lo) := sb.descBlock raw 0x00 0x20
  combineBlockNum hi lo

def readGroupDescInodeBitmapBlock (d : Device) (group : Nat) : Result Nat := do
  let raw ← sb.readDesc d group
  let (hi, lo) := sb.descBlock raw 0x04 0x24
  return hi * 2 ^ 32 + lo

def adjustDesc (group field : Nat) (change : Nat → Nat) : Action Unit := do
  let raw ← observe fun d => sb.readDesc d group
  writeBytes (sb.descOffset group) (writeInt16 raw field (change (readInt16 raw field))) sb.descSize

def adjustSb (field : Nat) (change : Nat → Nat) : Action Unit := do
  let raw ← observe fun d => readBytes d SUPERBLOCK_OFFSET SUPERBLOCK_SIZE
  writeBytes SUPERBLOCK_OFFSET (writeInt32 raw field (change (readInt32 raw field))) SUPERBLOCK_SIZE

def decrementGroupFreeBlocks (group : Nat) : Action Unit := sb.adjustDesc group 0x0C (· - 1)

def decrementGroupFreeInodes (group : Nat) : Action Unit := sb.adjustDesc group 0x0E (· - 1)

end SbInfo

def decrementSbFreeBlocks : Action Unit := SbInfo.adjustSb 0x0C (· - 1)

def incrementSbFreeBlocks : Action Unit :=
  SbInfo.adjustSb 0x0C fun count => min (count + 1) (2 ^ 32 - 1)

def decrementSbFreeInodes : Action Unit := SbInfo.adjustSb 0x10 (· - 1)

namespace SbInfo

variable (sb : SbInfo)

/-- Mark the first free bit in the bitmaps of the groups from `group` on, and count it. -/
def allocIn (bitmapBlock : Device → Nat → Result Nat) (total perGroup : Nat)
    (count : Nat → Action Unit) : Nat → Nat → Action (Nat × Nat)
  | 0, _ => fail .noSpace
  | n + 1, group => do
    let block ← observe fun d => bitmapBlock d group
    let bitmap ← observe fun d => sb.readBlock d block
    match findFree bitmap (min perGroup (total - group * perGroup)) with
    | none => allocIn bitmapBlock total perGroup count n (group + 1)
    | some b => do
      sb.writeBlock block (setBit bitmap b)
      count group
      return (group, b)

def allocBlock : Action Nat := do
  let raw ← observe fun d => readBytes d SUPERBLOCK_OFFSET SUPERBLOCK_SIZE
  let blocksCount := readInt32 raw 0x150 * 2 ^ 32 + readInt32 raw 0x04
  let (group, b) ← sb.allocIn sb.readGroupDescBitmapBlock blocksCount sb.blocksPerGroup
    (fun group => do
      sb.decrementGroupFreeBlocks group
      decrementSbFreeBlocks)
    ((blocksCount + sb.blocksPerGroup - 1) / sb.blocksPerGroup) 0
  return sb.firstDataBlock + group * sb.blocksPerGroup + b

def freeIn (bitmapBlock : Device → Nat → Result Nat) (group bit : Nat)
    (count : Nat → Action Unit) : Action Unit := do
  let block ← observe fun d => bitmapBlock d group
  let bitmap ← observe fun d => sb.readBlock d block
  sb.writeBlock block (clearBit bitmap bit)
  count group

def freeBlock (blockNum : Nat) : Action Unit :=
  if blockNum = 0 then pure ()
  else
    let index := blockNum - sb.firstDataBlock
    sb.freeIn sb.readGroupDescBitmapBlock (index / sb.blocksPerGroup) (index % sb.blocksPerGroup)
      fun group => do
        sb.adjustDesc group 0x0C (· + 1)
        incrementSbFreeBlocks

def freeInode (inodeNum : Nat) : Action Unit :=
  let index := inodeNum - 1
  sb.freeIn sb.readGroupDescInodeBitmapBlock (index / sb.inodesPerGroup)
    (index % sb.inodesPerGroup) fun group => do
      sb.adjustDesc group 0x0E (· + 1)
      adjustSb 0x10 (· + 1)

/-- An empty inode with an extent tree that has room for four extents. -/
def rawInode (mode nlink : Nat) : Bytes :=
  let raw := writeInt16 (fun _ => 0) 0x00 mode
  let raw := writeInt16 raw 0x1A nlink
  let raw := writeInt32 raw 0x20 EXT4_EXTENTS_FL
  let raw := writeInt16 raw 0x28 EXT4_EXTENT_MAGIC
  writeInt16 raw 0x2C 4

def writeRawInode (inodeNum mode nlink : Nat) : Action Unit := do
  let offset ← observe fun d => sb.inodeOffset d inodeNum
  writeBytes offset (rawInode mode nlink) sb.inodeBytes

/-- The raw inode with the fields that the driver manages. -/
def updateRaw (raw : Bytes) (inode : Inode) : Bytes :=
  let raw := writeInt16 raw 0x00 inode.mode
  let raw := writeInt32 raw 0x04 (inode.size % 2 ^ 32)
  let raw := writeInt32 raw 0x6C (inode.size / 2 ^ 32)
  let raw := writeInt16 raw 0x1A inode.nlink
  let raw := writeInt32 raw 0x20 inode.flags
  fun i => if 0x28 ≤ i ∧ i < 0x64 then inode.iBlock (i - 0x28) else raw i

def writeInode (inodeNum : Nat) (inode : Inode) : Action Unit := do
  let offset ← observe fun d => sb.inodeOffset d inodeNum
  let raw ← observe fun d => readBytes d offset sb.inodeBytes
  writeBytes offset (updateRaw raw inode) sb.inodeBytes

def allocInode (mode : Nat) : Action Nat := do
  let (group, b) ← sb.allocIn sb.readGroupDescInodeBitmapBlock sb.inodesCount sb.inodesPerGroup
    (fun group => do
      sb.decrementGroupFreeInodes group
      decrementSbFreeInodes)
    ((sb.inodesCount + sb.inodesPerGroup - 1) / sb.inodesPerGroup) 0
  let inodeNum := group * sb.inodesPerGroup + b + 1
  sb.writeRawInode inodeNum mode 1
  return inodeNum

def appendExtent (inode : Inode) (inodeNum lb pb : Nat) : Action Unit :=
  let entries := readInt16 inode.iBlock 2
  if readInt16 inode.iBlock 0 ≠ EXT4_EXTENT_MAGIC then fail .badExtentMagic
  else if readInt16 inode.iBlock 6 ≠ 0 then fail .extentTreeTooDeep
  else if entries ≥ readInt16 inode.iBlock 4 then fail .extentTreeFull
  else
    let off := 12 + entries * 12
    let iBlock := writeInt32 inode.iBlock off lb
    let iBlock := writeInt16 iBlock (off + 4) 1
    let iBlock := writeInt16 iBlock (off + 6) (pb / 2 ^ 32)
    let iBlock := writeInt32 iBlock (off + 8) pb
    let iBlock := writeInt16 iBlock 2 (entries + 1)
    sb.writeInode inodeNum { inode with iBlock := iBlock }

theorem descSize_ragged : sb.descSize ≠ 0 ∧ sb.descSize % SECTOR_SIZE ≠ 0 := by
  rcases sb.descSize_eq with h | h <;> rw [h] <;> decide

theorem inodeBytes_ragged : sb.inodeBytes ≠ 0 ∧ sb.inodeBytes % SECTOR_SIZE ≠ 0 := by
  have := sb.inodeSize_ge
  unfold inodeBytes SECTOR_SIZE
  omega

/-- An action that always fails and leaves the device as it is. -/
def Refused {α : Type} (x : Action α) : Prop := ∀ d, ∃ e, x d = (.error e, d)

theorem Refused.never {α : Type} {x : Action α} (h : Refused x) : x.Never := by
  intro d a
  obtain ⟨e, he⟩ := h d
  simp [he]

theorem refused_observe_bind {α β : Type} (f : Device → Result α) {g : α → Action β}
    (h : ∀ a, Refused (g a)) : Refused (observe f >>= g) := by
  intro d
  cases hf : f d with
  | ok a =>
    rw [observe_bind_ok hf]
    exact h a d
  | error e => exact ⟨e, observe_bind_error hf⟩

theorem Refused.bind {α β : Type} {x : Action α} (h : Refused x) (f : α → Action β) :
    Refused (x >>= f) := by
  intro d
  obtain ⟨e, he⟩ := h d
  exact ⟨e, by rw [bind_apply, he]⟩

theorem adjustDesc_refused (group field : Nat) (change : Nat → Nat) :
    Refused (sb.adjustDesc group field change) :=
  refused_observe_bind _ fun _ d =>
    ⟨_, writeBytes_ragged sb.descSize_ragged.1 sb.descSize_ragged.2 d⟩

theorem writeInode_refused (inodeNum : Nat) (inode : Inode) :
    Refused (sb.writeInode inodeNum inode) :=
  refused_observe_bind _ fun _ => refused_observe_bind _ fun _ d =>
    ⟨_, writeBytes_ragged sb.inodeBytes_ragged.1 sb.inodeBytes_ragged.2 d⟩

theorem allocIn_never {bitmapBlock : Device → Nat → Result Nat} {total perGroup : Nat}
    {count : Nat → Action Unit} (hcount : ∀ group, Refused (count group)) (n group : Nat) :
    (sb.allocIn bitmapBlock total perGroup count n group).Never := by
  induction n generalizing group with
  | zero => exact never_fail _
  | succ n ih =>
    refine never_bind_of _ fun block => never_bind_of _ fun bitmap => ?_
    cases findFree bitmap (min perGroup (total - group * perGroup)) with
    | none => exact ih _
    | some b => exact never_bind_of _ fun _ => (hcount group).never.bind _

/-- The driver cannot count an allocation, so none succeeds. -/
theorem allocBlock_never : sb.allocBlock.Never := by
  unfold allocBlock
  refine never_bind_of _ fun raw => Never.bind ?_ _
  exact sb.allocIn_never (fun group => Refused.bind (sb.adjustDesc_refused group _ _) _) _ _

theorem allocInode_never (mode : Nat) : (sb.allocInode mode).Never := by
  unfold allocInode
  refine Never.bind ?_ _
  exact sb.allocIn_never (fun group => Refused.bind (sb.adjustDesc_refused group _ _) _) _ _

end SbInfo

end Innigkeit.Filesystem.Ext4

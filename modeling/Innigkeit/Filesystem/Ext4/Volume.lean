import Innigkeit.Filesystem.Ext4.Device

/-!
The read side of `filesystem/ext4.zig`: superblock, group descriptors, inodes,
extent trees, file data and directory blocks. A mounted volume carries the facts
that `mount` checks. Of an inode only the fields that some function looks at are
kept; sums of on-disk numbers are taken in the naturals.
-/

namespace Innigkeit.Filesystem.Ext4

def EXT4_MAGIC : Nat := 0xEF53

def EXT4_ROOT_INO : Nat := 2

def EXT4_EXTENT_MAGIC : Nat := 0xF30A

def MAX_SYMLINK_HOPS : Nat := 40

def MAX_EXTENT_DEPTH : Nat := 5

def EXT4_EXTENTS_FL : Nat := 0x00080000

def EXT4_INLINE_DATA_FL : Nat := 0x10000000

def SUPERBLOCK_OFFSET : Nat := 1024

def SUPERBLOCK_SIZE : Nat := 1024

def INCOMPAT_64BIT : Nat := 0x80

/-- The incompatible features that a mount lets pass: file types, a dirty journal, extents,
64-bit block numbers, flexible groups and inline data. -/
def ALLOWED_INCOMPAT : Nat := 0x2 + 0x4 + 0x40 + 0x80 + 0x200 + 0x8000

structure SbInfo where
  blockSize : Nat
  inodesCount : Nat
  inodesPerGroup : Nat
  blocksPerGroup : Nat
  inodeSize : Nat
  firstDataBlock : Nat
  descSize : Nat
  blockSize_eq : blockSize = 1024 ∨ blockSize = 2048 ∨ blockSize = 4096
  descSize_eq : descSize = 32 ∨ descSize = 64
  inodeSize_ge : 128 ≤ inodeSize
  deriving DecidableEq

private theorem blockSize_of_log {n : Nat} (h : n ≤ 2) :
    1024 * 2 ^ n = 1024 ∨ 1024 * 2 ^ n = 2048 ∨ 1024 * 2 ^ n = 4096 := by
  obtain rfl | rfl | rfl : n = 0 ∨ n = 1 ∨ n = 2 := by omega
  all_goals simp

private theorem descSize_of_feature (wide : Prop) [Decidable wide] :
    (if wide then 64 else 32) = 32 ∨ (if wide then 64 else 32) = 64 := by
  split <;> simp

def mount (d : Device) : Result SbInfo := do
  let raw ← readBytes d SUPERBLOCK_OFFSET SUPERBLOCK_SIZE
  if readInt16 raw 0x38 ≠ EXT4_MAGIC then throw .badMagic
  if hlog : readInt32 raw 0x18 ≤ 2 then
    let featureIncompat := readInt32 raw 0x60
    if featureIncompat &&& ALLOWED_INCOMPAT ≠ featureIncompat then throw .incompatibleFeatures
    if hgeometry : readInt32 raw 0x28 ≠ 0 ∧ readInt32 raw 0x20 ≠ 0 ∧ 128 ≤ readInt16 raw 0x58 then
      return {
        blockSize := 1024 * 2 ^ readInt32 raw 0x18
        inodesCount := readInt32 raw 0x00
        inodesPerGroup := readInt32 raw 0x28
        blocksPerGroup := readInt32 raw 0x20
        inodeSize := readInt16 raw 0x58
        firstDataBlock := readInt32 raw 0x14
        descSize := if featureIncompat &&& INCOMPAT_64BIT ≠ 0 then 64 else 32
        blockSize_eq := blockSize_of_log hlog
        descSize_eq := descSize_of_feature _
        inodeSize_ge := hgeometry.2.2 }
    else throw .corruptFilesystem
  else throw .blockSizeTooLarge

/-- The file types of the mode field. -/
inductive Kind where
  | regular
  | directory
  | symlink
  | other
  deriving DecidableEq, Repr

def kindOf (mode : Nat) : Kind :=
  match mode / 0x1000 with
  | 0x8 => .regular
  | 0x4 => .directory
  | 0xA => .symlink
  | _ => .other

/-- `iBlock` holds 60 bytes. -/
structure Inode where
  mode : Nat
  size : Nat
  flags : Nat
  nlink : Nat
  iBlock : Bytes

def Inode.kind (inode : Inode) : Kind := kindOf inode.mode

def combineBlockNum (hi lo : Nat) : Result Nat :=
  if hi * 2 ^ 32 + lo < 2 ^ 48 then .ok (hi * 2 ^ 32 + lo) else .error .corruptFilesystem

namespace SbInfo

variable (sb : SbInfo) (d : Device)

def readBlock (blockNum : Nat) : Result Bytes := readBytes d (blockNum * sb.blockSize) sb.blockSize

def descOffset (group : Nat) : Nat := (sb.firstDataBlock + 1) * sb.blockSize + group * sb.descSize

def readDesc (group : Nat) : Result Bytes := readBytes d (sb.descOffset group) sb.descSize

/-- A block number of the descriptor, with its high half in descriptors of 64 bytes. -/
def descBlock (raw : Bytes) (lo hi : Nat) : Nat × Nat :=
  (if 64 ≤ sb.descSize then readInt32 raw hi else 0, readInt32 raw lo)

/-- `readGroupDesc`, which is asked for the inode table only. -/
def readGroupDesc (group : Nat) : Result Nat := do
  let raw ← sb.readDesc d group
  let (hi, lo) := sb.descBlock raw 0x08 0x28
  combineBlockNum hi lo

def inodeOffset (inodeNum : Nat) : Result Nat := do
  let idx := inodeNum - 1
  let inodeTable ← sb.readGroupDesc d (idx / sb.inodesPerGroup)
  return inodeTable * sb.blockSize + idx % sb.inodesPerGroup * sb.inodeSize

def inodeBytes : Nat := min sb.inodeSize 256

def readInode (inodeNum : Nat) : Result Inode := do
  if inodeNum = 0 then throw .invalidInode
  let offset ← sb.inodeOffset d inodeNum
  let raw ← readBytes d offset sb.inodeBytes
  return {
    mode := readInt16 raw 0x00
    size := readInt32 raw 0x6C * 2 ^ 32 + readInt32 raw 0x04
    flags := readInt32 raw 0x20
    nlink := readInt16 raw 0x1A
    iBlock := fun i => if i < 60 then raw (0x28 + i) else 0xAA }

end SbInfo

/-- The index entry to descend into; zero if the first one already lies behind `logical`. -/
def chooseIdx (node : Bytes) (nodeLen logical : Nat) : Nat → Nat → Nat → Nat
  | 0, _, chosen => chosen
  | n + 1, i, chosen =>
    let off := 12 + i * 12
    if off + 12 > nodeLen then chosen
    else if readInt32 node off ≤ logical then
      chooseIdx node nodeLen logical n (i + 1)
        (readInt16 node (off + 8) * 2 ^ 32 + readInt32 node (off + 4))
    else chosen

/-- The block that a leaf maps `logical` to; zero for a hole. -/
def findExtent (node : Bytes) (nodeLen logical : Nat) : Nat → Nat → Nat
  | 0, _ => 0
  | n + 1, i =>
    let off := 12 + i * 12
    if off + 12 > nodeLen then 0
    else
      let eeBlock := readInt32 node off
      let eeLen := readInt16 node (off + 4) % 0x8000
      if eeBlock ≤ logical ∧ logical < eeBlock + eeLen then
        readInt16 node (off + 6) * 2 ^ 32 + readInt32 node (off + 8) + (logical - eeBlock)
      else findExtent node nodeLen logical n (i + 1)

namespace SbInfo

variable (sb : SbInfo) (d : Device)

/-- From a node of the given depth down to the mapped block. -/
def mapFrom (logical : Nat) : Nat → Bytes → Nat → Result Nat
  | 0, node, nodeLen => .ok (findExtent node nodeLen logical (readInt16 node 2) 0)
  | depth + 1, node, nodeLen => do
    let chosen := chooseIdx node nodeLen logical (readInt16 node 2) 0 0
    if chosen = 0 then return 0
    let scratch ← sb.readBlock d chosen
    if readInt16 scratch 0 ≠ EXT4_EXTENT_MAGIC then throw .badExtentMagic
    mapFrom logical depth scratch sb.blockSize

def mapBlock (inode : Inode) (logical : Nat) : Result Nat := do
  if inode.flags &&& EXT4_EXTENTS_FL = 0 then
    if inode.flags &&& EXT4_INLINE_DATA_FL ≠ 0 then return 0
    throw .indirectBlocksUnsupported
  if readInt16 inode.iBlock 0 ≠ EXT4_EXTENT_MAGIC then throw .badExtentMagic
  let depth := readInt16 inode.iBlock 6
  if depth > MAX_EXTENT_DEPTH then throw .extentDepthTooLarge
  sb.mapFrom d logical depth inode.iBlock 60

/-- A block of a file or directory; a hole reads as zeros. -/
def readLogical (inode : Inode) (logical : Nat) : Result Bytes := do
  let phys ← sb.mapBlock d inode logical
  if phys ≠ 0 then sb.readBlock d phys else return fun _ => 0

def readChunks (inode : Inode) (offset toRead : Nat) :
    Nat → Nat → List Byte → Result (List Byte)
  | 0, _, acc => .ok acc
  | fuel + 1, done, acc =>
    if done < toRead then do
      let pos := offset + done
      let buf ← sb.readLogical d inode (pos / sb.blockSize)
      let blockOff := pos % sb.blockSize
      let chunk := min (toRead - done) (sb.blockSize - blockOff)
      readChunks inode offset toRead fuel (done + chunk)
        (acc ++ slice buf blockOff (blockOff + chunk))
    else .ok acc

def readDataInode (inode : Inode) (len offset : Nat) : Result (List Byte) :=
  if inode.flags &&& EXT4_INLINE_DATA_FL ≠ 0 then
    let available := min inode.size 60
    .ok (slice inode.iBlock offset (offset + min len (available - offset)))
  else
    let toRead := min len (inode.size - offset)
    sb.readChunks d inode offset toRead toRead 0 []

def readlinkInode (inode : Inode) (len : Nat) : Result (List Byte) :=
  if inode.size ≤ 60 ∧ inode.flags &&& EXT4_EXTENTS_FL = 0 then
    .ok (slice inode.iBlock 0 (min inode.size len))
  else sb.readDataInode d inode len 0

end SbInfo

/-- A directory record and where it lies in its block. -/
structure Rec where
  off : Nat
  inode : Nat
  recLen : Nat
  fileType : Nat
  name : List Byte
  deriving DecidableEq, Repr

/-- `DirBlockIter.next` at an offset of a block of `size` bytes. -/
def nextRec (buf : Bytes) (size off : Nat) : Option Rec :=
  if size < off + 8 then none
  else
    let recLen := readInt16 buf (off + 4)
    let nameLen := (buf (off + 6)).toNat
    if recLen < 8 ∨ size < off + recLen ∨ recLen < 8 + nameLen then none
    else
      some {
        off := off
        inode := readInt32 buf off
        recLen := recLen
        fileType := (buf (off + 7)).toNat
        name := slice buf (off + 8) (off + 8 + nameLen) }

/-- The records of a block from an offset on; each is at least eight bytes long. -/
def recordsFrom (buf : Bytes) (size : Nat) : Nat → Nat → List Rec
  | 0, _ => []
  | fuel + 1, off =>
    match nextRec buf size off with
    | none => []
    | some r => r :: recordsFrom buf size fuel (off + r.recLen)

def records (buf : Bytes) (size : Nat) : List Rec := recordsFrom buf size (size / 8) 0

def findName (recs : List Rec) (name : List Byte) : Option Rec :=
  recs.find? fun r => r.inode ≠ 0 && r.name = name

namespace SbInfo

variable (sb : SbInfo) (d : Device)

/-- How many blocks a loop over `bytes_read < size` visits. -/
def blocksOf (size : Nat) : Nat := (size + sb.blockSize - 1) / sb.blockSize

def lookupBlocks (inode : Inode) (name : List Byte) : Nat → Nat → Result Nat
  | 0, _ => .error .notFound
  | n + 1, lb => do
    let buf ← sb.readLogical d inode lb
    match findName (records buf sb.blockSize) name with
    | some r => return r.inode
    | none => lookupBlocks inode name n (lb + 1)

def lookupInDir (dirInode : Nat) (name : List Byte) : Result Nat := do
  let inode ← sb.readInode d dirInode
  if inode.kind ≠ .directory then throw .notADirectory
  sb.lookupBlocks d inode name (sb.blocksOf inode.size) 0

end SbInfo

end Innigkeit.Filesystem.Ext4

import Innigkeit.Filesystem.Ext4.Directory

/-!
The operations on whole files: write, truncate, create and delete. Each is a
sequence of dependent writes and returns at the first one that fails.
-/

namespace Innigkeit.Filesystem.Ext4

open Action

def NEW_FILE_MODE : Nat := 0x81A4

/-- The path of the parent directory and the last name. -/
def splitPath (path : List Byte) : List Byte × List Byte :=
  let back := path.reverse
  let parent := (back.dropWhile (· ≠ SLASH)).tail.reverse
  (if parent = [] then [SLASH] else parent, (back.takeWhile (· ≠ SLASH)).reverse)

namespace Action

/-- Go on whatever the action returns. -/
def attempt {α : Type} (x : Action α) : Action Unit := fun d => (.ok (), (x d).2)

end Action

namespace SbInfo

variable (sb : SbInfo)

/-- The physical block of a logical one, allocated and zeroed if there is none. -/
def ensureBlock (inodeNum : Nat) (inode : Inode) (lb : Nat) : Action (Inode × Nat) := do
  let mapped ← observe fun d => sb.mapBlock d inode lb
  if mapped ≠ 0 then return (inode, mapped)
  else do
    let newPhys ← sb.allocBlock
    sb.writeBlock newPhys fun _ => 0
    sb.appendExtent inode inodeNum lb newPhys
    let inode ← observe fun d => sb.readInode d inodeNum
    return (inode, newPhys)

def writeChunks (inodeNum : Nat) (data : List Byte) (offset : Nat) :
    Nat → Nat → Inode → Action Inode
  | 0, _, inode => pure inode
  | fuel + 1, written, inode =>
    if written < data.length then do
      let pos := offset + written
      let blockOff := pos % sb.blockSize
      let (inode, phys) ← sb.ensureBlock inodeNum inode (pos / sb.blockSize)
      let buf ← observe fun d => sb.readBlock d phys
      let chunk := min (data.length - written) (sb.blockSize - blockOff)
      sb.writeBlock phys (writeName buf blockOff ((data.drop written).take chunk))
      writeChunks inodeNum data offset fuel (written + chunk) inode
    else pure inode

def writeFileInode (inodeNum : Nat) (data : List Byte) (offset : Nat) : Action Nat := do
  let inode ← observe fun d => sb.readInode d inodeNum
  if inode.kind ≠ .regular then fail .notAFile
  else do
    let inode ← sb.writeChunks inodeNum data offset data.length 0 inode
    if inode.size < offset + data.length ∧ data ≠ [] then do
      sb.writeInode inodeNum { inode with size := offset + data.length }
      return data.length
    else return data.length

/-- Free the blocks behind the end; a block that cannot be freed is skipped. -/
def freeFrom (inode : Inode) : Nat → Nat → Action Unit
  | 0, _ => pure ()
  | n + 1, lb => do
    attempt (do
      let phys ← observe fun d => sb.mapBlock d inode lb
      sb.freeBlock phys)
    freeFrom inode n (lb + 1)

def trimExtents (firstFree : Nat) : Nat → Nat → Nat → Bytes → Bytes
  | 0, _, kept, iBlock => writeInt16 iBlock 2 kept
  | n + 1, i, kept, iBlock =>
    let off := 12 + i * 12
    let eeBlock := readInt32 iBlock off
    let eeLen := readInt16 iBlock (off + 4) % 0x8000
    if eeBlock < firstFree then
      let iBlock :=
        if firstFree < eeBlock + eeLen then writeInt16 iBlock (off + 4) (firstFree - eeBlock)
        else iBlock
      let iBlock := writeName iBlock (12 + kept * 12) (slice iBlock off (off + 12))
      trimExtents firstFree n (i + 1) (kept + 1) iBlock
    else trimExtents firstFree n (i + 1) kept iBlock

def divCeilClampU32 (size unit : Nat) : Nat :=
  min (size / unit + if size % unit ≠ 0 then 1 else 0) (2 ^ 32 - 1)

def truncateInode (inodeNum newSize : Nat) : Action Unit := do
  let inode ← observe fun d => sb.readInode d inodeNum
  if inode.kind ≠ .regular then fail .notAFile
  else if inode.size ≤ newSize then sb.writeInode inodeNum { inode with size := newSize }
  else do
    let firstFree := divCeilClampU32 newSize sb.blockSize
    sb.freeFrom inode (divCeilClampU32 inode.size sb.blockSize - firstFree) firstFree
    let iBlock :=
      if readInt16 inode.iBlock 0 = EXT4_EXTENT_MAGIC ∧ readInt16 inode.iBlock 6 = 0 then
        trimExtents firstFree (readInt16 inode.iBlock 2) 0 0 inode.iBlock
      else inode.iBlock
    sb.writeInode inodeNum { inode with size := newSize, iBlock := iBlock }

def createFile (path : List Byte) : Action Nat :=
  if path.head? ≠ some SLASH then fail .invalidPath
  else do
    let found ← observe fun d => .ok (sb.lookup d path)
    if found.toOption.isSome then fail .alreadyExists
    else if (splitPath path).2.length = 0 ∨ (splitPath path).2.length > 255 then fail .invalidPath
    else do
      let parentIno ← observe fun d => sb.lookup d (splitPath path).1
      let ino ← sb.allocInode NEW_FILE_MODE
      sb.addDirEntry parentIno (splitPath path).2 ino 1
      return ino

def deleteFile (path : List Byte) : Action Unit := do
  let ino ← observe fun d => sb.lookup d path
  let inode ← observe fun d => sb.readInode d ino
  if inode.kind ≠ .regular then fail .notAFile
  else do
    let parentIno ← observe fun d => sb.lookup d (splitPath path).1
    sb.removeDirEntry parentIno (splitPath path).2
    if inode.nlink ≤ 1 then do
      sb.truncateInode ino 0
      sb.freeInode ino
    else pure ()

/-- No file is ever created: the inode is marked in its bitmap, and then its group descriptor
cannot be written. -/
theorem createFile_never (path : List Byte) (d : Device) (ino : Nat) :
    (sb.createFile path d).1 ≠ .ok ino := by
  have hnever : (sb.createFile path).Never := by
    unfold createFile
    split
    · exact never_fail _
    · refine never_bind_of _ fun found => ?_
      split
      · exact never_fail _
      · split
        · exact never_fail _
        · exact never_bind_of _ fun _ => (sb.allocInode_never _).bind _
  exact hnever d ino

end SbInfo

/-- The non-zero bytes of a volume of sixteen blocks of 1024 bytes with an empty root: the
superblock, one group descriptor, both bitmaps, the root inode and its directory block. -/
def sampleBytes : List (Nat × Nat) :=
  [(1024, 16), (1028, 16), (1036, 9), (1040, 5), (1044, 1), (1056, 16), (1064, 16), (1080, 0x53),
    (1081, 0xEF), (1112, 128), (1120, 0x42),
    (2048, 3), (2052, 4), (2056, 5), (2060, 9), (2062, 5),
    (3072, 0x7F), (4096, 0xFF), (4097, 0x07),
    (5248, 0xED), (5249, 0x41), (5253, 4), (5274, 2), (5282, 8), (5288, 0x0A), (5289, 0xF3),
    (5290, 1), (5292, 4), (5304, 1), (5308, 7),
    (7168, 2), (7172, 12), (7174, 1), (7175, 2), (7176, 0x2E),
    (7180, 2), (7184, 0xF4), (7185, 3), (7186, 2), (7187, 2), (7188, 0x2E), (7189, 0x2E)]

def sampleDevice : Device where
  bytes i := BitVec.ofNat 8 ((sampleBytes.lookup i).getD 0)
  capacitySectors := 32
  faults _ := false
  requests := 0

def sampleVolume : SbInfo where
  blockSize := 1024
  inodesCount := 16
  inodesPerGroup := 16
  blocksPerGroup := 16
  inodeSize := 128
  firstDataBlock := 1
  descSize := 32
  blockSize_eq := .inl rfl
  descSize_eq := .inl rfl
  inodeSize_ge := Nat.le_refl _

/-- Inode 12 and block 8 are free and `/a` is new, but it cannot be created. -/
theorem create_on_sample_fails :
    mount sampleDevice = .ok sampleVolume ∧
      ((sampleVolume.readBlock sampleDevice 4).map fun bitmap => findFree bitmap 16) =
        .ok (some 11) ∧
      ((sampleVolume.readBlock sampleDevice 3).map fun bitmap => findFree bitmap 16) =
        .ok (some 7) ∧
      sampleVolume.lookup sampleDevice [SLASH] = .ok EXT4_ROOT_INO ∧
      sampleVolume.lookup sampleDevice [SLASH, 0x61] = .error .notFound ∧
      (sampleVolume.createFile [SLASH, 0x61] sampleDevice).1 = .error .ioError := by
  refine ⟨?_, ?_, ?_, ?_, ?_, ?_⟩ <;> decide +kernel

end Innigkeit.Filesystem.Ext4

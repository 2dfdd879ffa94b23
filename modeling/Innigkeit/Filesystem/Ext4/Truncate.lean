import Innigkeit.Filesystem.Ext4.Delete

/-!
What a truncation of a file owes. It moves the extents that it keeps to the front
of the inode with copies that must not overlap; the first one that it keeps, with
none dropped before it, is copied onto itself.
-/

namespace Innigkeit.Filesystem.Ext4

namespace SbInfo

/-- The copies that `trimExtents` makes in `i_block`: where to and where from, 12 bytes each. -/
def trimCopies (firstFree : Nat) : Nat → Nat → Nat → Bytes → List (Nat × Nat)
  | 0, _, _, _ => []
  | n + 1, i, kept, iBlock =>
    let off := 12 + i * 12
    let eeBlock := readInt32 iBlock off
    let eeLen := readInt16 iBlock (off + 4) % 0x8000
    if eeBlock < firstFree then
      let iBlock :=
        if firstFree < eeBlock + eeLen then writeInt16 iBlock (off + 4) (firstFree - eeBlock)
        else iBlock
      (12 + kept * 12, off) :: trimCopies firstFree n (i + 1) (kept + 1)
        (writeName iBlock (12 + kept * 12) (slice iBlock off (off + 12)))
    else trimCopies firstFree n (i + 1) kept iBlock

variable (sb : SbInfo) (ino newSize : Nat) (d : Device)

/-- The truncation comes to the extents of the inode. -/
structure Trims (inode : Inode) : Prop where
  read : sb.readInode d ino = .ok inode
  kind : inode.kind = .regular
  shrinks : newSize < inode.size
  magic : readInt16 inode.iBlock 0 = EXT4_EXTENT_MAGIC
  depth : readInt16 inode.iBlock 6 = 0

/-- The file is extended to the byte `stop`, or by data from there on. -/
inductive Extends (stop : Nat) (d' : Device) : Prop
  | truncate (h : sb.truncateInode ino stop d = (.ok (), d'))
  | write (data : List Byte) (n : Nat) (hdata : data ≠ [])
      (h : sb.writeFileInode ino data stop d = (.ok n, d'))

/-- What a truncation owes that succeeds. -/
structure Truncated (d' : Device) (inode inode' : Inode) : Prop where
  size : inode'.size = newSize
  kept : ∀ len offset, offset + len ≤ min inode.size newSize →
    sb.readDataInode d' inode' len offset = sb.readDataInode d inode len offset
  zeroed : ∀ stop d₂ inode₂, sb.Extends ino d' stop d₂ → sb.readInode d₂ ino = .ok inode₂ →
    ∀ i, newSize ≤ i → i < stop → sb.readDataInode d₂ inode₂ 1 i = .ok [0]
  freed : ∀ b, sb.blockUsed d b = true → (sb.blockUsed d' b = false ↔
    b ≠ 0 ∧ ∃ lb, sb.blocksOf newSize ≤ lb ∧ sb.mapBlock d inode lb = .ok b)
  mapped : ∀ lb < sb.blocksOf newSize, sb.mapBlock d' inode' lb = sb.mapBlock d inode lb

structure Truncates : Prop where
  success : ∀ d' inode, sb.truncateInode ino newSize d = (.ok (), d') →
    sb.readInode d ino = .ok inode → ∃ inode', sb.readInode d' ino = .ok inode' ∧
      sb.Truncated ino newSize d d' inode inode'
  apart : ∀ inode, sb.Trims ino newSize d inode →
    ∀ copy ∈ trimCopies (divCeilClampU32 newSize sb.blockSize) (readInt16 inode.iBlock 2) 0 0
      inode.iBlock, copy.1 + 12 ≤ copy.2 ∨ copy.2 + 12 ≤ copy.1

variable {firstFree n i kept : Nat} {iBlock : Bytes}

/-- Behind an extent that was dropped, every copy goes forward by a whole extent. -/
theorem trimCopies_apart (h : kept < i) :
    ∀ copy ∈ trimCopies firstFree n i kept iBlock, copy.1 + 12 ≤ copy.2 := by
  induction n generalizing i kept iBlock with
  | zero => simp [trimCopies]
  | succ n ih =>
    rw [trimCopies]
    split
    · rw [List.forall_mem_cons]
      exact ⟨by dsimp only; omega, ih (by omega)⟩
    · exact ih (by omega)

theorem trimCopies_first (hn : n ≠ 0) (h : readInt32 iBlock 12 < firstFree) :
    (12, 12) ∈ trimCopies firstFree n 0 0 iBlock := by
  obtain ⟨n, rfl⟩ := Nat.exists_eq_succ_of_ne_zero hn
  rw [trimCopies, if_pos h]
  exact List.mem_cons_self

/-- The copies stay apart exactly if the first extent is not kept: it begins behind the new end, or
there is none. -/
theorem truncates_iff : sb.Truncates ino newSize d ↔
    ∀ inode, sb.Trims ino newSize d inode → readInt16 inode.iBlock 2 = 0 ∨
      divCeilClampU32 newSize sb.blockSize ≤ readInt32 inode.iBlock 12 := by
  constructor
  · intro h inode htrims
    by_contra hkept
    rw [not_or, not_le] at hkept
    have hcopy := h.apart inode htrims _ (trimCopies_first hkept.1 hkept.2)
    omega
  · intro h
    refine ⟨fun d' inode hok => ?_, fun inode htrims copy hcopy => .inl ?_⟩
    · -- the inode is never written
      exact absurd (congrArg Prod.fst hok) (sb.truncateInode_never ino newSize d ())
    · cases hn : readInt16 inode.iBlock 2 with
      | zero =>
        rw [hn] at hcopy
        cases hcopy
      | succ n =>
        have hdropped := not_lt.mpr ((h inode htrims).resolve_left (by omega))
        rw [hn, trimCopies, if_neg hdropped] at hcopy
        exact trimCopies_apart Nat.one_pos copy hcopy

end SbInfo

/-- The volume of `linkedDevice` where the file 11 has the block 8. -/
def extentDevice : Device :=
  { linkedDevice 2 with
    bytes := fun i =>
      let changed := [(1036, 8), (2060, 8), (3072, 0xFF), (6405, 4), (6428, 2), (6442, 1),
        (6456, 1), (6460, 8)]
      match changed.lookup i with
      | some b => BitVec.ofNat 8 b
      | none => (linkedDevice 2).bytes i }

/-- A file of one block is truncated to one byte, and its extent is copied onto itself. -/
theorem extent_copied_onto_itself :
    mount extentDevice = .ok sampleVolume ∧
      sampleVolume.lookup extentDevice [SLASH, 0x66] = .ok 11 ∧
      sampleVolume.blockUsed extentDevice 8 = true ∧
      ¬ sampleVolume.Truncates 11 1 extentDevice := by
  refine ⟨by decide +kernel, by decide +kernel, by decide +kernel, fun h => ?_⟩
  have hfile : (sampleVolume.readInode extentDevice 11).map (fun inode => (inode.kind, inode.size,
      readInt16 inode.iBlock 0, readInt16 inode.iBlock 6, readInt16 inode.iBlock 2,
      readInt32 inode.iBlock 12)) = .ok (.regular, 1024, EXT4_EXTENT_MAGIC, 0, 1, 0) := by
    decide +kernel
  cases hread : sampleVolume.readInode extentDevice 11 with
  | error e =>
    rw [hread] at hfile
    cases hfile
  | ok inode =>
    rw [hread] at hfile
    simp only [Except.map, Except.ok.injEq, Prod.mk.injEq] at hfile
    obtain ⟨hkind, hsize, hmagic, hdepth, hentries, hfirst⟩ := hfile
    have htrims : sampleVolume.Trims 11 1 extentDevice inode :=
      ⟨hread, hkind, by omega, hmagic, hdepth⟩
    have hcopy := h.apart inode htrims (12, 12)
      (SbInfo.trimCopies_first (by omega) (by rw [hfirst]; decide))
    omega

end Innigkeit.Filesystem.Ext4

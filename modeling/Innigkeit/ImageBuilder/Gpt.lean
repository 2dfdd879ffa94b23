import Innigkeit.Zig.Checked
import Mathlib.Data.List.Forall2

/-!
Where the image builder puts the partitions of a disk image, its two headers
and its two entry arrays. Names, identifiers and checksums have no influence on
the layout and are left out.
-/

namespace Innigkeit.ImageBuilder.Gpt

open Zig List

/-- `disk_block_size`. -/
def blockSize : ℕ := 512

/-- `recommended_alignment_of_partitions`, one mebibyte, in blocks. -/
def partitionAlignment : ℕ := 2048

def minimumNumberOfPartitionEntries : ℕ := 128

def partitionEntrySize : ℕ := 128

def alignForward (value alignment : ℕ) : Checked ℕ := do
  return (← add 64 value (alignment - 1)) / alignment * alignment

def amountToCover (self target : ℕ) : Checked ℕ := do
  return (← add 64 target (self - 1)) / self

structure PartitionEntry where
  startingLba : ℕ
  endingLba : ℕ
  deriving DecidableEq, Repr

def PartitionEntry.blockCount (entry : PartitionEntry) : ℕ :=
  entry.endingLba - entry.startingLba + 1

structure Header where
  myLba : ℕ
  alternateLba : ℕ
  firstUsableLba : ℕ
  lastUsableLba : ℕ
  partitionEntryLba : ℕ
  numberOfPartitionEntries : ℕ
  deriving DecidableEq, Repr

def Header.copyToOtherHeader (source : Header) (partitionArraySize : ℕ) : Checked Header := do
  let myLba := source.alternateLba
  let next ← add 64 1 myLba
  let near ← (if source.myLba < source.partitionEntryLba then
      sub next (source.partitionEntryLba - source.myLba)
    else add 64 next (source.myLba - source.partitionEntryLba))
  let partitionEntryLba ← sub near partitionArraySize
  return { source with myLba, alternateLba := source.myLba, partitionEntryLba }

def desiredBlocks (lastUsable startingBlock size : ℕ) (isLast : Bool) : Checked ℕ :=
  if size = 0 then
    if isLast then
      .ok ((lastUsable - startingBlock) / partitionAlignment * partitionAlignment)
    else .error .panic
  else amountToCover blockSize size

/-- One round of the loop over the partitions. -/
def place (lastUsable nextFree size : ℕ) (isLast : Bool) : Checked PartitionEntry := do
  let startingBlock ← alignForward nextFree partitionAlignment
  if lastUsable < startingBlock then throw .panic else
  let desired ← desiredBlocks lastUsable startingBlock size isLast
  let endingBlock ← sub (← add 64 startingBlock desired) 1
  let alignedEndingBlock ← sub (← alignForward endingBlock partitionAlignment) 1
  if lastUsable < alignedEndingBlock then throw .panic else
  if alignedEndingBlock < startingBlock then throw .panic else
  return ⟨startingBlock, alignedEndingBlock⟩

def placeAll (lastUsable : ℕ) : ℕ → List ℕ → Checked (List PartitionEntry)
  | _, [] => return []
  | nextFree, size :: rest => do
    let entry ← place lastUsable nextFree size rest.isEmpty
    return entry :: (← placeAll lastUsable (entry.endingLba + 1) rest)

structure Image where
  primary : Header
  backup : Header
  entries : List PartitionEntry
  deriving DecidableEq, Repr

/-- The argument `sizes` holds the requested sizes of the partitions in bytes. -/
def create (imageSize : ℕ) (sizes : List ℕ) : Checked Image := do
  assert (imageSize % blockSize = 0)
  let numberOfBlocks := imageSize / blockSize
  let numberOfPartitionEntries ← (if sizes.length < minimumNumberOfPartitionEntries then
      .ok minimumNumberOfPartitionEntries
    else intCast 32 sizes.length)
  let partitionArraySize ← amountToCover blockSize (partitionEntrySize * numberOfPartitionEntries)
  let firstUsable ← add 64 2 partitionArraySize
  let lastUsable ← sub (← sub numberOfBlocks 2) partitionArraySize
  assert (0 < (← sub lastUsable firstUsable))
  let entries ← placeAll lastUsable firstUsable sizes
  let primary : Header :=
    ⟨1, numberOfBlocks - 1, firstUsable, lastUsable, 2, numberOfPartitionEntries⟩
  let backup ← primary.copyToOtherHeader partitionArraySize
  return ⟨primary, backup, entries⟩

def Holds (size : ℕ) (entry : PartitionEntry) : Prop := size ≤ entry.blockCount * blockSize
  deriving Decidable

/-- The requested blocks end one block behind an alignment boundary. -/
def EndsBehindBoundary (size : ℕ) : Prop :=
  (size + (blockSize - 1)) / blockSize % partitionAlignment = 1
  deriving Decidable

structure LaysOut (sizes : List ℕ) (image : Image) : Prop where
  disjoint : image.entries.Pairwise fun a b => a.endingLba < b.startingLba
  aligned : ∀ entry ∈ image.entries, 2 ^ 20 ∣ entry.startingLba * blockSize
  usable : ∀ entry ∈ image.entries, image.primary.firstUsableLba ≤ entry.startingLba ∧
    entry.startingLba ≤ entry.endingLba ∧ entry.endingLba ≤ image.primary.lastUsableLba
  holds : Forall₂ Holds sizes image.entries
  /-- The backup array and the backup header behind it begin after every partition. -/
  backup : ∀ entry ∈ image.entries, entry.endingLba < image.backup.partitionEntryLba ∧
    image.backup.partitionEntryLba ≤ image.backup.myLba

variable {lastUsable nextFree imageSize : ℕ} {sizes : List ℕ}

theorem desiredBlocks_spec {start size desired : ℕ} {isLast : Bool}
    (h : desiredBlocks lastUsable start size isLast = .ok desired) :
    (size = 0 ∧ 2048 ∣ desired) ∨ (0 < size ∧ desired = (size + 511) / 512) := by
  unfold desiredBlocks at h
  split at h
  · next hsize =>
    split at h
    · cases h
      exact .inl ⟨hsize, Nat.dvd_mul_left ..⟩
    · cases h
  · next hsize =>
    simp only [amountToCover, bind_eq_ok, add_eq_ok] at h
    obtain ⟨_, ⟨-, rfl⟩, h⟩ := h
    cases h
    exact .inr ⟨Nat.pos_of_ne_zero hsize, rfl⟩

theorem place_spec {size : ℕ} {isLast : Bool} {entry : PartitionEntry}
    (h : place lastUsable nextFree size isLast = .ok entry) :
    nextFree ≤ entry.startingLba ∧ 2048 ∣ entry.startingLba ∧
      entry.startingLba ≤ entry.endingLba ∧ entry.endingLba ≤ lastUsable ∧
      (Holds size entry ↔ ¬ EndsBehindBoundary size) := by
  obtain ⟨start, hstart, h⟩ := bind_eq_ok.mp h
  simp only [alignForward, partitionAlignment, bind_eq_ok, add_eq_ok, pure_eq_ok] at hstart
  obtain ⟨_, ⟨-, rfl⟩, hstart⟩ := hstart
  cases hstart
  split at h
  · cases h
  obtain ⟨desired, hdesired, h⟩ := bind_eq_ok.mp h
  simp only [alignForward, partitionAlignment, bind_eq_ok, add_eq_ok, sub_eq_ok, pure_eq_ok] at h
  obtain ⟨_, ⟨-, rfl⟩, _, ⟨hpos, rfl⟩, _, ⟨_, ⟨-, rfl⟩, hend⟩, _, ⟨hone, rfl⟩, h⟩ := h
  cases hend
  split at h
  · cases h
  split at h
  · cases h
  cases h
  have hcase := desiredBlocks_spec hdesired
  simp only [Holds, EndsBehindBoundary, PartitionEntry.blockCount, blockSize, partitionAlignment]
  omega

theorem placeAll_spec {entries : List PartitionEntry}
    (h : placeAll lastUsable nextFree sizes = .ok entries) :
    (entries.Pairwise fun a b => a.endingLba < b.startingLba) ∧
      (∀ entry ∈ entries, nextFree ≤ entry.startingLba ∧ 2048 ∣ entry.startingLba ∧
        entry.startingLba ≤ entry.endingLba ∧ entry.endingLba ≤ lastUsable) ∧
      (Forall₂ Holds sizes entries ↔ ∀ size ∈ sizes, ¬ EndsBehindBoundary size) := by
  induction sizes generalizing nextFree entries with
  | nil =>
    cases h
    simp
  | cons size rest ih =>
    simp only [placeAll, bind_eq_ok] at h
    obtain ⟨entry, hentry, later, hlater, h⟩ := h
    cases h
    obtain ⟨hnext, haligned, hle, hlast, hholds⟩ := place_spec hentry
    obtain ⟨hdisjoint, hplaced, hfits⟩ := ih hlater
    refine ⟨pairwise_cons.mpr ⟨fun e he => (hplaced e he).1, hdisjoint⟩, ?_, ?_⟩
    · rintro e (_ | ⟨_, he⟩)
      · exact ⟨hnext, haligned, hle, hlast⟩
      · obtain ⟨hafter, hrest⟩ := hplaced e he
        exact ⟨by omega, hrest⟩
    · rw [forall₂_cons, hholds, hfits, forall_mem_cons]

/-- In the image that `create` makes the partitions are aligned, apart from each other, inside the
usable blocks and as large as requested, exactly if no requested size ends one block behind an
alignment boundary. -/
theorem create_laysOut_iff {image : Image} (h : create imageSize sizes = .ok image) :
    LaysOut sizes image ↔ ∀ size ∈ sizes, ¬ EndsBehindBoundary size := by
  simp only [create, Header.copyToOtherHeader, bind_eq_ok, sub_eq_ok, add_eq_ok, pure_eq_ok] at h
  obtain ⟨-, -, count, -, array, -, _, ⟨-, rfl⟩, _, ⟨hblocks, rfl⟩, _, ⟨harray, rfl⟩, _, -, -, -,
    entries, hentries, backup, ⟨_, ⟨-, rfl⟩, _, hnear, _, ⟨-, rfl⟩, hbackup⟩, h⟩ := h
  cases hbackup
  cases h
  rw [if_pos (by decide), sub_eq_ok] at hnear
  obtain ⟨hdisjoint, hplaced, hholds⟩ := placeAll_spec hentries
  refine ⟨fun hlays => hholds.mp hlays.holds,
    fun hsizes => ⟨hdisjoint, ?_, ?_, hholds.mpr hsizes, ?_⟩⟩
  · intro entry he
    exact Nat.mul_dvd_mul_right (hplaced entry he).2.1 512
  · exact fun entry he => ⟨(hplaced entry he).1, (hplaced entry he).2.2⟩
  · intro entry he
    obtain ⟨-, -, -, hlast⟩ := hplaced entry he
    constructor <;> dsimp only <;> omega

theorem create_laysOut_two : ∃ image, create (2 ^ 22) [2 ^ 20, 3000] = .ok image ∧
    LaysOut [2 ^ 20, 3000] image := by
  have h : create (2 ^ 22) [2 ^ 20, 3000] =
      .ok ⟨⟨1, 8191, 34, 8158, 2, 128⟩, ⟨8191, 1, 34, 8158, 8159, 128⟩,
        [⟨2048, 4095⟩, ⟨4096, 6143⟩]⟩ := by
    decide
  exact ⟨_, h, (create_laysOut_iff h).mpr (by decide)⟩

/-- A partition of 2049 blocks is given 2048. -/
theorem partition_one_block_short : ∃ image, create (2 ^ 22) [2049 * 512] = .ok image ∧
    ¬ LaysOut [2049 * 512] image := by
  refine ⟨⟨⟨1, 8191, 34, 8158, 2, 128⟩, ⟨8191, 1, 34, 8158, 8159, 128⟩, [⟨2048, 4095⟩]⟩,
    by decide, fun h => ?_⟩
  have hholds := (forall₂_cons.mp h.holds).1
  revert hholds
  decide

end Innigkeit.ImageBuilder.Gpt

import Innigkeit.Filesystem.Ext4.AddEntry
import Mathlib.Data.Set.Card

/-!
What a well-formed volume is for the operations that change it. Deleting a file
writes blocks of directories and block bitmaps only, so what has to be known of
the volume is that no inode, group descriptor or extent node lies in such a
block. This is said by what can be read: every device that differs from the
volume in those blocks only has the same inodes, mappings and descriptors.
-/

namespace Innigkeit.Filesystem.Ext4

open Action

namespace Action

variable {α β : Type} {P : Device → Prop}

def Keeps (P : Device → Prop) (x : Action α) : Prop := ∀ d, P d → P (x d).2

theorem keeps_pure (a : α) : Keeps P (pure a : Action α) := fun _ h => h

theorem Keeps.bind {x : Action α} {f : α → Action β} (hx : Keeps P x) (hf : ∀ a, Keeps P (f a)) :
    Keeps P (x >>= f) := by
  intro d h
  have hd := hx d h
  rw [bind_apply]
  cases hxd : x d with
  | mk r d' =>
    rw [hxd] at hd
    cases r with
    | ok a => exact hf a d' hd
    | error e => exact hd

/-- After a read the rest may use what was read. -/
theorem keeps_observe_bind {f : Device → Result α} {g : α → Action β}
    (h : ∀ d a, P d → f d = .ok a → P (g a d).2) : Keeps P (observe f >>= g) := by
  intro d hd
  cases hf : f d with
  | ok a =>
    rw [observe_bind_ok hf]
    exact h d a hd hf
  | error e =>
    rw [observe_bind_error hf]
    exact hd

end Action

/-- A property that holds of the inodes that entries lead to holds of what a path leads to. -/
theorem Tree.lookupLoop_invariant {tree : Tree} {P : Nat → Prop} (hroot : P EXT4_ROOT_INO)
    (hentry : ∀ dir name child, P dir → tree.lookupInDir dir name = .ok child → P child)
    {fuel : Nat} {work : Bytes} {workLen curDir pos symhops ino : Nat} (hcur : P curDir)
    (h : tree.lookupLoop fuel work workLen curDir pos symhops = .ok ino) : P ino := by
  induction fuel generalizing work workLen curDir pos symhops with
  | zero => cases h
  | succ fuel ih =>
    have hparent : P (tree.parent curDir) := by
      unfold Tree.parent
      cases hdots : tree.lookupInDir curDir [DOT, DOT] with
      | ok p => exact hentry _ _ _ hcur hdots
      | error e => exact hcur
    simp only [Tree.lookupLoop] at h
    split at h
    · cases h
      exact hcur
    · split at h
      · exact ih hcur h
      · split at h
        · exact ih hparent h
        · split at h
          · cases h
          · next child hchild =>
            have hnext := hentry _ _ _ hcur hchild
            split at h
            · cases h
            · split at h
              · split at h
                · cases h
                · split at h
                  · cases h
                  · split at h
                    · cases h
                    · split at h
                      · cases h
                      · refine ih ?_ h
                        split
                        · exact hroot
                        · exact hcur
              · split at h
                · split at h
                  · exact ih hnext h
                  · cases h
                · cases h
                  exact hnext

namespace SbInfo

variable (sb : SbInfo) (d : Device)

/-- The inodes that paths lead to. -/
inductive Reached : Nat → Prop
  | root : Reached EXT4_ROOT_INO
  | entry {dir child : Nat} {name : List Byte} :
      Reached dir → sb.lookupInDir d dir name = .ok child → Reached child

variable {sb d}

theorem lookup_reached {path : List Byte} {ino : Nat} (h : sb.lookup d path = .ok ino) :
    sb.Reached d ino := by
  unfold SbInfo.lookup Tree.lookup at h
  split at h
  · cases h
  · split at h
    · cases h
    · exact Tree.lookupLoop_invariant .root (fun _ _ _ hdir hchild => .entry hdir hchild) .root h

variable (sb d)

def blockGroup (b : Nat) : Nat := (b - sb.firstDataBlock) / sb.blocksPerGroup

def FileBlock (b : Nat) : Prop :=
  ∃ ino inode lb, sb.Reached d ino ∧ sb.readInode d ino = .ok inode ∧ inode.kind = .regular ∧
    sb.mapBlock d inode lb = .ok b

def DirBlock (b : Nat) : Prop :=
  ∃ ino inode lb, sb.Reached d ino ∧ sb.readInode d ino = .ok inode ∧ inode.kind = .directory ∧
    lb < sb.blocksOf inode.size ∧ sb.mapBlock d inode lb = .ok b

def BitmapBlock (b : Nat) : Prop :=
  ∃ f, sb.FileBlock d f ∧ sb.readGroupDescBitmapBlock d (sb.blockGroup f) = .ok b

def InBlock (b i : Nat) : Prop := b * sb.blockSize ≤ i ∧ i < b * sb.blockSize + sb.blockSize

/-- Another device that differs in directories and block bitmaps at most. -/
structure Framed (d' : Device) : Prop where
  capacity : d'.capacitySectors = d.capacitySectors
  bytes : ∀ i, (∀ b, sb.DirBlock d b ∨ sb.BitmapBlock d b → ¬sb.InBlock b i) →
    d'.bytes i = d.bytes i

/-- No two live records of a directory have the same name. -/
def Directory.Unique {sb : SbInfo} {d : Device} {dirIno : Nat} (w : sb.Directory d dirIno) : Prop :=
  ∀ lb lb' r r', lb ≤ w.count → lb' ≤ w.count → r ∈ records (w.blocks lb) sb.blockSize →
    r' ∈ records (w.blocks lb') sb.blockSize → r.inode ≠ 0 → r'.inode ≠ 0 → r.name = r'.name →
      lb = lb' ∧ r = r'

/-- A well-formed volume: entries name inodes, directories are chains of records of different
names, and what describes files and directories lies apart from directories and bitmaps. -/
structure Image : Prop where
  named : ∀ ino, sb.Reached d ino → ∃ inode, sb.readInode d ino = .ok inode
  directory : ∀ ino inode, sb.Reached d ino → sb.readInode d ino = .ok inode →
    inode.kind = .directory → ∃ w : sb.Directory d ino, w.Unique
  apart : ∀ b b', sb.DirBlock d b → sb.BitmapBlock d b' → b ≠ b'
  inodes : ∀ d', sb.Framed d d' → ∀ ino, sb.Reached d ino → sb.readInode d' ino = sb.readInode d ino
  maps : ∀ d', sb.Framed d d' → ∀ ino inode lb, sb.Reached d ino → sb.readInode d ino = .ok inode →
    sb.mapBlock d' inode lb = sb.mapBlock d inode lb
  descs : ∀ d', sb.Framed d d' → ∀ b, sb.FileBlock d b →
    sb.readDesc d' (sb.blockGroup b) = sb.readDesc d (sb.blockGroup b)

def inodeUsed (ino : Nat) : Bool :=
  match (do
    let block ← sb.readGroupDescInodeBitmapBlock d ((ino - 1) / sb.inodesPerGroup)
    sb.readBlock d block) with
  | .ok bitmap => testBit bitmap ((ino - 1) % sb.inodesPerGroup)
  | .error _ => false

def blockUsed (b : Nat) : Bool :=
  match (do
    let block ← sb.readGroupDescBitmapBlock d (sb.blockGroup b)
    sb.readBlock d block) with
  | .ok bitmap => testBit bitmap ((b - sb.firstDataBlock) % sb.blocksPerGroup)
  | .error _ => false

end SbInfo

end Innigkeit.Filesystem.Ext4

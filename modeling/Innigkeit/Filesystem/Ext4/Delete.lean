import Innigkeit.Filesystem.Ext4.Image

/-!
Deleting a file. The entry is removed first; then, if the link count that was
read before is at most one, the file is truncated and its inode freed. The link
count is never written back, and an inode can never be written at all, so a
deletion that removes an entry either succeeds with the count as it was or fails
with the entry gone.
-/

namespace Innigkeit.Filesystem.Ext4

open Action List Nat SbInfo

section

variable {buf buf' : Bytes} {size off : Nat} {name : List Byte} {r : Rec} {recs post : List Rec}
variable {prev : Option Rec}

theorem removeRecord_eq_none_iff :
    removeRecord buf name prev recs = none ↔ findName recs name = none := by
  induction recs generalizing prev with
  | nil => simp [removeRecord, findName]
  | cons p recs ih =>
    unfold removeRecord
    by_cases h : p.inode ≠ 0 ∧ p.name = name
    · rw [if_pos h]
      cases prev <;> simp [findName, h]
    · rw [if_neg h, ih]
      rw [not_and_or] at h
      rcases h with h | h <;> simp [findName, h]

theorem removeRecord_spec (h : removeRecord buf name prev recs = some buf') :
    ∃ pre r post, recs = pre ++ r :: post ∧ r.inode ≠ 0 ∧ r.name = name ∧
      findName pre name = none ∧
      buf' = match pre.getLast?.or prev with
        | some p => writeInt16 buf (p.off + 4) (p.recLen + r.recLen)
        | none => writeInt32 buf r.off 0 := by
  induction recs generalizing prev with
  | nil => cases h
  | cons p recs ih =>
    unfold removeRecord at h
    split at h
    · next hp =>
      refine ⟨[], p, recs, rfl, hp.1, hp.2, rfl, ?_⟩
      cases prev <;> cases h <;> rfl
    · next hp =>
      obtain ⟨pre, r, post, hrecs, hlive, hname, hpre, hbuf⟩ := ih h
      refine ⟨p :: pre, r, post, by rw [hrecs, cons_append], hlive, hname, ?_, ?_⟩
      · rw [findName_eq_none_iff] at hpre ⊢
        intro q hq
        rcases mem_cons.mp hq with rfl | hq
        · exact fun hq hn => hp ⟨hq, hn⟩
        · exact hpre q hq
      · rw [hbuf, getLast?_cons]
        cases pre.getLast? <;> rfl

theorem ChainTo.congr (h : ChainTo buf size off recs) (hsame : ∀ k, off ≤ k → buf' k = buf k) :
    ChainTo buf' size off recs := by
  induction recs generalizing off with
  | nil => exact h
  | cons p recs ih =>
    exact ⟨nextRec_congr h.1 fun k hk _ => hsame k hk, ih h.2 fun k hk => hsame k (by omega)⟩

theorem chain_removeRecord (hsize : size ≤ 4096) (hchain : ChainTo buf size 0 recs)
    (hunique : ∀ p ∈ recs, ∀ q ∈ recs, p.inode ≠ 0 → q.inode ≠ 0 → p.name = q.name → p = q)
    (h : removeRecord buf name none recs = some buf') :
    findName (records buf' size) name = none ∧ ∀ k, size ≤ k → buf' k = buf k := by
  obtain ⟨pre, r, post, rfl, hlive, hname, hpre, hbuf⟩ := removeRecord_spec h
  obtain ⟨-, hr, hpost⟩ := hchain.split
  obtain ⟨-, hrend, hrlen⟩ := nextRec_spec hr
  obtain ⟨hino, -, -, -⟩ := nextRec_fields hr
  have hafter : findName post name = none := by
    rw [findName_eq_none_iff]
    intro q hq hqlive hqname
    have hsame := hunique r (by simp) q (by simp [hq]) hlive hqlive (hname.trans hqname.symm)
    have hlt := ChainTo.off_lt (show ChainTo buf size r.off (r :: post) from ⟨hr, hpost⟩) hq
    rw [← hsame] at hlt
    omega
  rw [Option.or_none] at hbuf
  cases hlast : pre.getLast? with
  | none =>
    -- The first record is marked deleted.
    rw [getLast?_eq_none_iff.mp hlast, nil_append] at hchain
    rw [hlast] at hbuf
    obtain rfl : buf' = writeInt32 buf r.off 0 := hbuf
    have hoff : r.off = 0 := (nextRec_spec hchain.1).1
    have hzero : nextRec (writeInt32 buf r.off 0) size r.off =
        some { r with inode := 0, recLen := r.recLen } := by
      refine nextRec_of_fields hr hrlen hrend (readInt32_writeInt32 buf r.off (by decide)) ?_ ?_
      · rw [nextRec_recLen hr]
        exact readInt16_congr fun k hk => writeInt32_of_lt (by omega)
      · exact fun k hk _ => writeInt32_of_lt (by omega)
    have hnew : ChainTo (writeInt32 buf r.off 0) size 0 ({ r with inode := 0 } :: post) := by
      rw [hoff] at hzero hpost ⊢
      exact ⟨hzero, hpost.congr fun k hk => writeInt32_of_lt (by omega)⟩
    refine ⟨?_, fun k hk => writeInt32_of_lt (by omega)⟩
    rw [hnew.records, findName_eq_none_iff]
    intro q hq hqlive
    rcases mem_cons.mp hq with rfl | hq
    · exact absurd rfl hqlive
    · exact findName_eq_none_iff.mp hafter q hq hqlive
  | some p =>
    -- The record before it grows over it.
    obtain ⟨front, rfl⟩ := getLast?_eq_some_iff.mp hlast
    rw [hlast] at hbuf
    obtain rfl : buf' = writeInt16 buf (p.off + 4) (p.recLen + r.recLen) := hbuf
    rw [append_assoc, singleton_append] at hchain
    obtain ⟨-, hp, hrest⟩ := hchain.split
    obtain ⟨-, hpend, hplen⟩ := nextRec_spec hp
    have hroff : r.off = p.off + p.recLen := (nextRec_spec hrest.1).1
    have hgrown : nextRec (writeInt16 buf (p.off + 4) (p.recLen + r.recLen)) size p.off =
        some { p with inode := p.inode, recLen := p.recLen + r.recLen } := by
      refine nextRec_of_fields hp (by omega) (by omega) ?_
        (readInt16_writeInt16 buf (p.off + 4) (by omega)) ?_
      · rw [(nextRec_fields hp).1]
        exact readInt32_congr fun k hk => writeInt16_of_ne (by omega) (by omega)
      · exact fun k hk _ => writeInt16_of_ne (by omega) (by omega)
    have hnew : ChainTo (writeInt16 buf (p.off + 4) (p.recLen + r.recLen)) size 0
        (front ++ { p with recLen := p.recLen + r.recLen } :: post) := by
      refine hchain.graft (fun k hk => writeInt16_of_ne (by omega) (by omega)) ⟨hgrown, ?_⟩
      dsimp only
      rw [← add_assoc, ← hroff]
      exact hpost.congr fun k hk => writeInt16_of_ne (by omega) (by omega)
    refine ⟨?_, fun k hk => writeInt16_of_ne (by omega) (by omega)⟩
    rw [hnew.records, findName_eq_none_iff]
    rw [findName_eq_none_iff] at hpre
    intro q hq
    rcases mem_append.mp hq with hq | hq
    · exact hpre q (mem_append_left _ hq)
    · rcases mem_cons.mp hq with rfl | hq
      · exact hpre p (mem_append_right _ (mem_singleton.mpr rfl))
      · exact findName_eq_none_iff.mp hafter q hq

end

namespace SbInfo

variable {sb : SbInfo} {d d' : Device} {dirIno : Nat} {name : List Byte}

namespace Directory

variable (w : sb.Directory d dirIno)

/-- The loop over the blocks of a directory changes the first block with the name. -/
theorem removeBlocks_eq (name : List Byte) {n lb : Nat} (hn : lb + n = w.count + 1) :
    (∃ k buf, k ≤ w.count ∧
      removeRecord (w.blocks k) name none (records (w.blocks k) sb.blockSize) = some buf ∧
      sb.removeBlocks w.inode name n lb d = sb.writeBlock (w.phys k) buf d) ∨
    ((∀ k, lb ≤ k → k ≤ w.count → findName (records (w.blocks k) sb.blockSize) name = none) ∧
      sb.removeBlocks w.inode name n lb d = (.error .notFound, d)) := by
  induction n generalizing lb with
  | zero => exact .inr ⟨fun k _ _ => by omega, rfl⟩
  | succ n ih =>
    have hlb : lb ≤ w.count := by omega
    cases hremove : removeRecord (w.blocks lb) name none (records (w.blocks lb) sb.blockSize) with
    | some buf =>
      refine .inl ⟨lb, buf, hlb, hremove, ?_⟩
      rw [removeBlocks, observe_bind_ok (w.mapBlock lb hlb), if_neg (w.phys_ne lb hlb),
        observe_bind_ok (w.readBlock lb hlb)]
      simp only [hremove]
    | none =>
      have hstep : sb.removeBlocks w.inode name (n + 1) lb d =
          sb.removeBlocks w.inode name n (lb + 1) d := by
        rw [removeBlocks, observe_bind_ok (w.mapBlock lb hlb), if_neg (w.phys_ne lb hlb),
          observe_bind_ok (w.readBlock lb hlb)]
        simp only [hremove]
      rcases ih (show lb + 1 + n = w.count + 1 by omega) with
        ⟨k, buf, hk, hbuf, heq⟩ | ⟨hnone, heq⟩
      · exact .inl ⟨k, buf, hk, hbuf, hstep.trans heq⟩
      · refine .inr ⟨fun k hle hk => ?_, hstep.trans heq⟩
        rcases eq_or_lt_of_le hle with rfl | hlt
        · exact removeRecord_eq_none_iff.mp hremove
        · exact hnone k hlt hk

theorem removeDirEntry_blocks (name : List Byte) :
    sb.removeDirEntry dirIno name d = sb.removeBlocks w.inode name (w.count + 1) 0 d := by
  rw [removeDirEntry, observe_bind_ok w.readInode, if_neg (by simp [w.kind]), w.size, blocksOf_mul]

theorem search_eq_none_iff {blocks : Nat → Bytes} {count : Nat} :
    sb.search blocks name count = none ↔
      ∀ k, k < count → findName (records (blocks k) sb.blockSize) name = none := by
  simp [search]

theorem removeDirEntry_found {child : Nat} (h : sb.lookupInDir d dirIno name = .ok child) :
    ∃ k buf, k ≤ w.count ∧
      removeRecord (w.blocks k) name none (records (w.blocks k) sb.blockSize) = some buf ∧
      sb.removeDirEntry dirIno name d = sb.writeBlock (w.phys k) buf d := by
  rw [w.removeDirEntry_blocks]
  rcases w.removeBlocks_eq name (zero_add (w.count + 1)) with hfound | ⟨hnone, -⟩
  · exact hfound
  · have hsearch : sb.search w.blocks name (w.count + 1) = none :=
      search_eq_none_iff.mpr fun k hk => hnone k (zero_le k) (le_of_lt_succ hk)
    rw [w.lookup, hsearch] at h
    cases h

include w in
theorem removeDirEntry_missing {e : Error} (h : sb.lookupInDir d dirIno name = .error e) :
    sb.removeDirEntry dirIno name d = (.error .notFound, d) := by
  rw [w.removeDirEntry_blocks]
  rcases w.removeBlocks_eq name (zero_add (w.count + 1)) with ⟨k, buf, hk, hbuf, -⟩ | ⟨-, heq⟩
  · have hsearch : sb.search w.blocks name (w.count + 1) ≠ none := by
      intro hnone
      have hfind := search_eq_none_iff.mp hnone k (lt_succ_of_le hk)
      rw [removeRecord_eq_none_iff.mpr hfind] at hbuf
      cases hbuf
    rw [w.lookup] at h
    cases hfound : sb.search w.blocks name (w.count + 1) with
    | none => exact absurd hfound hsearch
    | some r =>
      rw [hfound] at h
      cases h
  · exact heq

variable {buf : Bytes}

theorem removed_block (hunique : w.Unique) {k : Nat} (hk : k ≤ w.count)
    (hbuf : removeRecord (w.blocks k) name none (records (w.blocks k) sb.blockSize) = some buf) :
    findName (records buf sb.blockSize) name = none ∧
      ∀ i, sb.blockSize ≤ i → buf i = w.blocks k i := by
  refine chain_removeRecord sb.blockSize_le (w.chain k hk) (fun p hp q hq => ?_) hbuf
  exact fun hlivep hliveq hname => (hunique k k p q hk hk hp hq hlivep hliveq hname).2

/-- The name is gone from every device that has the directory's blocks, one of them changed. -/
theorem lookup_removed (hunique : w.Unique) {k : Nat} (hk : k ≤ w.count)
    (hbuf : removeRecord (w.blocks k) name none (records (w.blocks k) sb.blockSize) = some buf)
    (hread : sb.readInode d' dirIno = .ok w.inode)
    (hmap : ∀ lb, lb ≤ w.count → sb.mapBlock d' w.inode lb = .ok (w.phys lb))
    (hblock : ∀ lb, lb ≤ w.count →
      sb.readBlock d' (w.phys lb) = .ok (if lb = k then buf else w.blocks lb)) :
    sb.lookupInDir d' dirIno name = .error .notFound := by
  have hgone := (w.removed_block hunique hk hbuf).1
  have hsearch : sb.search (fun lb => if lb = k then buf else w.blocks lb) name (w.count + 1) =
      none := by
    refine search_eq_none_iff.mpr fun lb hlb => ?_
    by_cases heq : lb = k
    · simp only [heq, if_true]
      exact hgone
    · simp only [heq, if_false]
      rw [findName_eq_none_iff]
      obtain ⟨pre, r, post, hrecs, hlive, hname, -, -⟩ := removeRecord_spec hbuf
      intro p hp hlivep hnamep
      have hr : r ∈ records (w.blocks k) sb.blockSize := by
        rw [hrecs]
        exact mem_append_right _ mem_cons_self
      exact heq (hunique lb k p r (le_of_lt_succ hlb) hk hp hr hlivep hlive
        (hnamep.trans hname.symm)).1
  rw [lookupInDir_eq hread w.kind w.size hmap w.phys_ne hblock, hsearch]
  rfl

end Directory

/-- A device on which block bitmaps differ from the first one at most. -/
structure Marked (sb : SbInfo) (d first d' : Device) : Prop where
  capacity : d'.capacitySectors = first.capacitySectors
  bytes : ∀ i, (∀ b, sb.BitmapBlock d b → ¬sb.InBlock b i) → d'.bytes i = first.bytes i

section

variable {first : Device}
variable {b : Nat}

theorem inBlock_unique {b' i : Nat} (h : sb.InBlock b i) (h' : sb.InBlock b' i) : b = b' := by
  unfold InBlock at h h'
  rcases lt_trichotomy b b' with hlt | heq | hlt
  · have := mul_le_mul_right sb.blockSize (succ_le_of_lt hlt)
    rw [succ_mul] at this
    omega
  · exact heq
  · have := mul_le_mul_right sb.blockSize (succ_le_of_lt hlt)
    rw [succ_mul] at this
    omega

theorem Framed.written (hb : sb.DirBlock d b) (buf : Bytes) : sb.Framed d (sb.written d b buf) :=
  ⟨rfl, fun _ hi => if_neg (hi b (.inl hb))⟩

theorem Framed.marked (h : sb.Framed d first) (h' : sb.Marked d first d') : sb.Framed d d' :=
  ⟨h'.capacity.trans h.capacity, fun i hi =>
    (h'.bytes i fun b hb => hi b (.inr hb)).trans (h.bytes i hi)⟩

theorem Marked.written (h : sb.Marked d first d') (hb : sb.BitmapBlock d b)
    (buf : Bytes) : sb.Marked d first (sb.written d' b buf) :=
  ⟨h.capacity, fun i hi => (if_neg (hi b hb)).trans (h.bytes i hi)⟩

theorem Refused.keeps {α : Type} {x : Action α} {P : Device → Prop} (h : Refused x) :
    Keeps P x := by
  intro d hd
  obtain ⟨e, he⟩ := h d
  rw [he]
  exact hd

variable (himage : sb.Image d) (hfirst : sb.Framed d first)

include himage hfirst

/-- Freeing a block of a file writes a block bitmap, and then fails. -/
theorem freeBlock_keeps (hb : sb.FileBlock d b) : Keeps (sb.Marked d first) (sb.freeBlock b) := by
  unfold freeBlock
  split
  · exact keeps_pure _
  · refine keeps_observe_bind fun d₁ block h₁ hblock => ?_
    have hbitmap : sb.BitmapBlock d block := by
      refine ⟨b, hb, ?_⟩
      rw [readGroupDescBitmapBlock, ← himage.descs d₁ (hfirst.marked h₁) b hb]
      exact hblock
    refine keeps_observe_bind (fun d₂ bitmap h₂ hread => ?_) d₁ h₁
    rw [bind_apply, writeBlock_eq hread]
    by_cases hfault : d₂.faults d₂.requests = false
    · rw [if_pos hfault]
      exact ((sb.adjustDesc_refused _ _ _).bind _).keeps _ (h₂.written hbitmap _)
    · rw [if_neg hfault]
      exact ⟨h₂.capacity, h₂.bytes⟩

variable {ino : Nat} {inode : Inode} (hino : sb.Reached d ino)
  (hread : sb.readInode d ino = .ok inode) (hkind : inode.kind = .regular)

include hino hread hkind

theorem freeFrom_keeps (n lb : Nat) : Keeps (sb.Marked d first) (sb.freeFrom inode n lb) := by
  induction n generalizing lb with
  | zero => exact keeps_pure _
  | succ n ih =>
    refine Keeps.bind (keeps_observe_bind fun d₁ b h₁ hmap => ?_) fun _ => ih _
    rw [himage.maps d₁ (hfirst.marked h₁) ino inode lb hino hread] at hmap
    exact freeBlock_keeps himage hfirst ⟨ino, inode, lb, hino, hread, hkind, hmap⟩ d₁ h₁

theorem truncateInode_keeps (newSize : Nat) :
    Keeps (sb.Marked d first) (sb.truncateInode ino newSize) := by
  refine keeps_observe_bind fun d₁ inode' h₁ hread' => ?_
  rw [himage.inodes d₁ (hfirst.marked h₁) ino hino, hread] at hread'
  cases hread'
  split
  · exact h₁
  · split
    · exact (sb.writeInode_refused _ _).keeps d₁ h₁
    · exact Keeps.bind (freeFrom_keeps himage hfirst hino hread hkind _ _)
        (fun _ => (sb.writeInode_refused _ _).keeps) d₁ h₁

end

theorem truncateInode_never (sb : SbInfo) (ino newSize : Nat) :
    (sb.truncateInode ino newSize).Never := by
  refine never_bind_of _ fun inode => ?_
  split
  · exact never_fail _
  · split
    · exact (sb.writeInode_refused _ _).never
    · exact never_bind_of _ fun _ => (sb.writeInode_refused _ _).never

section

variable (n : Nat)

theorem mapFrom_requests (logical depth : Nat) (node : Bytes) (nodeLen : Nat) :
    sb.mapFrom { d with requests := n } logical depth node nodeLen =
      sb.mapFrom d logical depth node nodeLen := by
  induction depth generalizing node nodeLen with
  | zero => rfl
  | succ depth ih =>
    simp only [mapFrom, ih]
    rfl

theorem mapBlock_requests (inode : Inode) (lb : Nat) :
    sb.mapBlock { d with requests := n } inode lb = sb.mapBlock d inode lb := by
  simp only [mapBlock, mapFrom_requests]

theorem lookupBlocks_requests (inode : Inode) (name : List Byte) (m lb : Nat) :
    sb.lookupBlocks { d with requests := n } inode name m lb =
      sb.lookupBlocks d inode name m lb := by
  induction m generalizing lb with
  | zero => rfl
  | succ m ih =>
    simp only [lookupBlocks, readLogical, mapBlock_requests, ih]
    rfl

theorem lookupInDir_requests (dirIno : Nat) (name : List Byte) :
    sb.lookupInDir { d with requests := n } dirIno name = sb.lookupInDir d dirIno name := by
  simp only [lookupInDir, lookupBlocks_requests]
  rfl

end

variable (sb)

/-- What deleting the last name of a path is for: the entry is gone and no other, the inode it
named has one link less, as many as there are entries for it, and it and its blocks are free if
and only if none is left. -/
structure Unlinked (d d' : Device) (dir : Nat) (name : List Byte) : Prop where
  gone : sb.lookupInDir d' dir name = .error .notFound
  others : ∀ dir' name', (dir', name') ≠ (dir, name) →
    sb.lookupInDir d' dir' name' = sb.lookupInDir d dir' name'
  links : ∀ child inode, sb.lookupInDir d dir name = .ok child → sb.readInode d child = .ok inode →
    ∃ inode', sb.readInode d' child = .ok inode' ∧ inode'.nlink + 1 = inode.nlink ∧
      inode'.nlink = {entry : Nat × List Byte | sb.Reached d' entry.1 ∧
        sb.lookupInDir d' entry.1 entry.2 = .ok child}.ncard ∧
      (sb.inodeUsed d' child = false ↔ inode'.nlink = 0) ∧
      ∀ lb b, sb.mapBlock d inode lb = .ok b → b ≠ 0 →
        (sb.blockUsed d' b = false ↔ inode'.nlink = 0)
  used : ∀ dir' name' child, sb.Reached d' dir' → sb.lookupInDir d' dir' name' = .ok child →
    sb.inodeUsed d' child = true

/-- No entry, inode or bitmap differs. -/
structure Unchanged (d d' : Device) : Prop where
  entries : ∀ dir name, sb.lookupInDir d' dir name = sb.lookupInDir d dir name
  inodes : ∀ ino, sb.readInode d' ino = sb.readInode d ino
  inodeUsed : ∀ ino, sb.inodeUsed d' ino = sb.inodeUsed d ino
  blockUsed : ∀ b, sb.blockUsed d' b = sb.blockUsed d b

variable {sb}

theorem Unchanged.requests (n : Nat) : sb.Unchanged d { d with requests := n } :=
  ⟨lookupInDir_requests n, fun _ => rfl, fun _ => rfl, fun _ => rfl⟩

section

variable {path : List Byte} {ino dir child : Nat} {inode : Inode}

theorem deleteFile_eq (hino : sb.lookup d path = .ok ino) (hread : sb.readInode d ino = .ok inode)
    (hkind : inode.kind = .regular) (hdir : sb.lookup d (splitPath path).1 = .ok dir) :
    sb.deleteFile path d =
      (sb.removeDirEntry dir (splitPath path).2 >>= fun _ =>
        if inode.nlink ≤ 1 then do
          sb.truncateInode ino 0
          sb.freeInode ino
        else pure ()) d := by
  rw [deleteFile, observe_bind_ok hino, observe_bind_ok hread, if_neg (by simp [hkind]),
    observe_bind_ok hdir]

theorem deleteFile_unwritten (himage : sb.Image d)
    (h : d.faults d.requests = false → ∀ ino inode dir child, sb.lookup d path = .ok ino →
      sb.readInode d ino = .ok inode → inode.kind = .regular →
      sb.lookup d (splitPath path).1 = .ok dir →
      sb.lookupInDir d dir (splitPath path).2 ≠ .ok child) :
    ∃ e n, sb.deleteFile path d = (.error e, { d with requests := n }) := by
  cases hino : sb.lookup d path with
  | error e =>
    refine ⟨e, d.requests, ?_⟩
    rw [deleteFile, observe_bind_error hino]
  | ok ino =>
    obtain ⟨inode, hread⟩ := himage.named ino (lookup_reached hino)
    by_cases hkind : inode.kind = .regular
    · cases hdir : sb.lookup d (splitPath path).1 with
      | error e =>
        refine ⟨e, d.requests, ?_⟩
        rw [deleteFile, observe_bind_ok hino, observe_bind_ok hread, if_neg (by simp [hkind]),
          observe_bind_error hdir]
      | ok dir =>
        rw [deleteFile_eq hino hread hkind hdir, bind_apply]
        obtain ⟨parent, hparent⟩ := himage.named dir (lookup_reached hdir)
        by_cases hdirectory : parent.kind = .directory
        · obtain ⟨w, -⟩ := himage.directory dir parent (lookup_reached hdir) hparent hdirectory
          cases hfound : sb.lookupInDir d dir (splitPath path).2 with
          | error e => exact ⟨_, d.requests, by rw [w.removeDirEntry_missing hfound]⟩
          | ok child =>
            obtain ⟨k, buf, hk, -, heq⟩ := w.removeDirEntry_found hfound
            have hfault : ¬d.faults d.requests = false := fun hfault =>
              h hfault ino inode dir child hino hread hkind hdir hfound
            refine ⟨.ioError, d.requests + 1, ?_⟩
            rw [heq, writeBlock_eq (w.readBlock k hk), if_neg hfault]
        · refine ⟨.notADirectory, d.requests, ?_⟩
          rw [removeDirEntry, observe_bind_ok hparent]
          simp only [if_pos hdirectory, fail]
    · refine ⟨.notAFile, d.requests, ?_⟩
      rw [deleteFile, observe_bind_ok hino, observe_bind_ok hread]
      simp only [if_pos hkind, fail]

/-- A deletion that writes an entry: with more links it succeeds and the inode is as it was, and
with one it fails and the entry is gone. -/
theorem deleteFile_written (himage : sb.Image d) (hfault : d.faults d.requests = false)
    (hino : sb.lookup d path = .ok ino) (hread : sb.readInode d ino = .ok inode)
    (hkind : inode.kind = .regular) (hdir : sb.lookup d (splitPath path).1 = .ok dir)
    (hchild : sb.lookupInDir d dir (splitPath path).2 = .ok child) :
    (∃ d', sb.deleteFile path d = (.ok (), d') ∧ sb.readInode d' child = sb.readInode d child) ∨
      ∃ e d', sb.deleteFile path d = (.error e, d') ∧
        sb.lookupInDir d' dir (splitPath path).2 = .error .notFound := by
  have hreached := lookup_reached hdir
  obtain ⟨parent, hparent⟩ := himage.named dir hreached
  have hdirectory : parent.kind = .directory := by
    by_contra hkind'
    rw [lookupInDir, hparent] at hchild
    have hfail : (if parent.kind ≠ .directory then (throw .notADirectory : Result Nat) else
      sb.lookupBlocks d parent (splitPath path).2 (sb.blocksOf parent.size) 0) = .ok child := hchild
    rw [if_pos hkind'] at hfail
    cases hfail
  obtain ⟨w, hunique⟩ := himage.directory dir parent hreached hparent hdirectory
  obtain ⟨k, buf, hk, hbuf, heq⟩ := w.removeDirEntry_found hchild
  have hphys (lb : Nat) (hlb : lb ≤ w.count) : sb.DirBlock d (w.phys lb) := by
    refine ⟨dir, w.inode, lb, hreached, w.readInode, w.kind, ?_, w.mapBlock lb hlb⟩
    rw [w.size, blocksOf_mul]
    omega
  have hframed := Framed.written (hphys k hk) buf
  rw [deleteFile_eq hino hread hkind hdir, bind_apply, heq, writeBlock_eq (w.readBlock k hk),
    if_pos hfault]
  dsimp only
  split
  · right
    -- The truncation fails, and keeps all but block bitmaps.
    have hmarked := truncateInode_keeps himage hframed (lookup_reached hino) hread hkind 0
      (sb.written d (w.phys k) buf) ⟨rfl, fun _ _ => rfl⟩
    have hnever := sb.truncateInode_never ino 0 (sb.written d (w.phys k) buf)
    cases htrunc : sb.truncateInode ino 0 (sb.written d (w.phys k) buf) with
    | mk result d₂ =>
      rw [htrunc] at hmarked hnever
      cases result with
      | ok _ => exact absurd rfl (hnever ())
      | error e =>
        refine ⟨e, d₂, by rw [bind_apply, htrunc], ?_⟩
        have hframed₂ := hframed.marked hmarked
        refine w.lookup_removed hunique hk hbuf ?_ (fun lb hlb => ?_) (fun lb hlb => ?_)
        · rw [himage.inodes d₂ hframed₂ dir hreached, w.readInode]
        · rw [himage.maps d₂ hframed₂ dir w.inode lb hreached w.readInode, w.mapBlock lb hlb]
        · have hsame : sb.readBlock d₂ (w.phys lb) =
              sb.readBlock (sb.written d (w.phys k) buf) (w.phys lb) := by
            refine readBytes_congr hmarked.capacity fun i hi => hmarked.bytes _ ?_
            intro b hb hin
            exact himage.apart _ b (hphys lb hlb) hb (inBlock_unique ⟨by omega, by omega⟩ hin)
          rw [hsame]
          by_cases hlbk : lb = k
          · rw [if_pos hlbk, hlbk]
            exact readBlock_written (w.readBlock k hk) (w.removed_block hunique hk hbuf).2
          · rw [if_neg hlbk, readBlock_written_of_ne, w.readBlock lb hlb]
            exact fun hphys' => hlbk (w.phys_inj lb k hlb hk hphys')
  · left
    exact ⟨_, rfl, himage.inodes _ hframed child (.entry hreached hchild)⟩

end

/-- A deletion does what it is for, or fails and changes nothing, exactly if no entry is written:
the path leads to no regular file, or its last name is not in its parent, or the device refuses. -/
theorem deleteFile_unlinks (himage : sb.Image d) (path : List Byte) :
    ((∀ d', sb.deleteFile path d = (.ok (), d') →
        ∀ dir, sb.lookup d (splitPath path).1 = .ok dir →
          sb.Unlinked d d' dir (splitPath path).2) ∧
      ∀ e d', sb.deleteFile path d = (.error e, d') → sb.Unchanged d d') ↔
    (d.faults d.requests = false → ∀ ino inode dir child, sb.lookup d path = .ok ino →
      sb.readInode d ino = .ok inode → inode.kind = .regular →
      sb.lookup d (splitPath path).1 = .ok dir →
      sb.lookupInDir d dir (splitPath path).2 ≠ .ok child) := by
  constructor
  · rintro ⟨hok, herror⟩ hfault ino inode dir child hino hread hkind hdir hchild
    rcases deleteFile_written himage hfault hino hread hkind hdir hchild with
      ⟨d', hdelete, hsame⟩ | ⟨e, d', hdelete, hgone⟩
    · obtain ⟨named, hnamed⟩ := himage.named child (.entry (lookup_reached hdir) hchild)
      obtain ⟨inode', hread', hlower, -⟩ :=
        (hok d' hdelete dir hdir).links child named hchild hnamed
      rw [hsame, hnamed] at hread'
      cases hread'
      omega
    · rw [(herror e d' hdelete).entries, hchild] at hgone
      cases hgone
  · intro h
    obtain ⟨e, n, hdelete⟩ := deleteFile_unwritten himage h
    constructor
    · intro d' hok
      rw [hdelete] at hok
      cases hok
    · intro e' d' herror
      rw [hdelete] at herror
      cases herror
      exact Unchanged.requests n

end SbInfo

section

/-- The sample volume with two entries `f` and `g` for the regular file 11. -/
def linkedDevice (nlink : Nat) : Device where
  bytes i :=
    let changed := [(6400, 0xA4), (6401, 0x81), (6426, nlink), (6434, 8), (6440, 0x0A),
      (6441, 0xF3), (6444, 4), (7184, 12), (7185, 0), (7192, 11), (7196, 12), (7198, 1),
      (7199, 1), (7200, 0x66),
      (7204, 11), (7208, 0xDC), (7209, 3), (7210, 1), (7211, 1), (7212, 0x67)]
    match changed.lookup i with
    | some b => BitVec.ofNat 8 b
    | none => sampleDevice.bytes i
  capacitySectors := 32
  faults _ := false
  requests := 0

theorem readInode_congr {sb : SbInfo} {d d' : Device} {ino offset : Nat}
    (hcap : d'.capacitySectors = d.capacitySectors)
    (hdesc : sb.readDesc d' ((ino - 1) / sb.inodesPerGroup) =
      sb.readDesc d ((ino - 1) / sb.inodesPerGroup))
    (hoffset : sb.inodeOffset d ino = .ok offset)
    (hraw : ∀ i, i < sb.inodeBytes → d'.bytes (offset + i) = d.bytes (offset + i)) :
    sb.readInode d' ino = sb.readInode d ino := by
  have hoffset' : sb.inodeOffset d' ino = .ok offset := by
    rw [← hoffset]
    simp only [inodeOffset, readGroupDesc, hdesc]
  have hbytes := readBytes_congr hcap hraw
  simp only [readInode, hoffset', hoffset, bind, Except.bind, hbytes]

theorem linkedDevice_bytes {i : Nat} (hi : i < 6400) :
    (linkedDevice 2).bytes i = sampleDevice.bytes i := by
  have hnone : ∀ changed : List (Nat × Nat), (∀ p ∈ changed, 6400 ≤ p.1) →
      changed.lookup i = none := by
    intro changed hall
    refine List.lookup_eq_none_iff.mpr fun p hp => ?_
    have hle := hall p hp
    simp only [bne_iff_ne]
    omega
  unfold linkedDevice
  dsimp only
  rw [hnone _ (by decide)]

def linkedRootBlock : Bytes := fun i =>
  if i < 1024 then (linkedDevice 2).bytes (7168 + i) else 0xAA

theorem records_linkedRootBlock :
    records linkedRootBlock 1024 =
      [⟨0, 2, 12, 2, [0x2E]⟩, ⟨12, 2, 12, 2, [0x2E, 0x2E]⟩, ⟨24, 11, 12, 1, [0x66]⟩,
        ⟨36, 11, 988, 1, [0x67]⟩] := by
  decide +kernel

theorem chain_linkedRootBlock : ChainTo linkedRootBlock 1024 0 (records linkedRootBlock 1024) := by
  rw [records_linkedRootBlock]
  exact ⟨by decide +kernel, by decide +kernel, by decide +kernel, by decide +kernel, rfl⟩

theorem readBlock_linkedRoot :
    sampleVolume.readBlock (linkedDevice 2) 7 = .ok linkedRootBlock := by
  rw [readBlock, readBytes, if_pos (by decide)]
  rfl

def linkedRoot : sampleVolume.Directory (linkedDevice 2) 2 :=
  rootOn (linkedDevice 2) rfl (fun _ hi => linkedDevice_bytes hi) linkedRootBlock
    readBlock_linkedRoot chain_linkedRootBlock

theorem linkedRoot_unique : linkedRoot.Unique := by
  intro lb lb' r r' hlb hlb' hr hr' _ _ hname
  refine ⟨(le_zero.mp hlb).trans (le_zero.mp hlb').symm, ?_⟩
  rw [show records (linkedRoot.blocks lb) sampleVolume.blockSize = _ from
    records_linkedRootBlock] at hr
  rw [show records (linkedRoot.blocks lb') sampleVolume.blockSize = _ from
    records_linkedRootBlock] at hr'
  simp only [mem_cons, not_mem_nil, or_false] at hr hr'
  rcases hr with rfl | rfl | rfl | rfl <;> rcases hr' with rfl | rfl | rfl | rfl <;>
    first | rfl | cases hname

/-- The file 11 has no extents: every block of it is a hole. -/
theorem linkedFile : ∃ file : Inode, sampleVolume.readInode (linkedDevice 2) 11 = .ok file ∧
    file.kind = .regular ∧ ∀ d' lb, sampleVolume.mapBlock d' file lb = .ok 0 := by
  have hfile : (sampleVolume.readInode (linkedDevice 2) 11).map (fun inode => (inode.kind,
      inode.flags, readInt16 inode.iBlock 0, readInt16 inode.iBlock 6, readInt16 inode.iBlock 2)) =
        .ok (.regular, EXT4_EXTENTS_FL, EXT4_EXTENT_MAGIC, 0, 0) := by
    decide +kernel
  cases hread : sampleVolume.readInode (linkedDevice 2) 11 with
  | error e =>
    rw [hread] at hfile
    cases hfile
  | ok file =>
    rw [hread] at hfile
    simp only [Except.map, Except.ok.injEq, Prod.mk.injEq] at hfile
    obtain ⟨hkind, hflags, hmagic, hdepth, hentries⟩ := hfile
    refine ⟨file, rfl, hkind, fun d' lb => ?_⟩
    have hextents : EXT4_EXTENTS_FL &&& EXT4_EXTENTS_FL ≠ 0 := by decide
    simp only [mapBlock, hflags, hextents, hmagic, hdepth, if_false, ne_eq, not_true]
    simp only [mapFrom, hentries]
    rfl

theorem linked_reached {ino : Nat} (h : sampleVolume.Reached (linkedDevice 2) ino) :
    ino = 2 ∨ ino = 11 := by
  obtain ⟨file, hread, hkind, -⟩ := linkedFile
  induction h with
  | root => exact .inl rfl
  | @entry dir child name _ hchild ih =>
    rcases ih with rfl | rfl
    · have hanswer : answer (findName (records linkedRootBlock 1024) name) = .ok child := by
        rw [linkedRoot.lookup, Directory.search_succ] at hchild
        exact hchild
      cases hfind : findName (records linkedRootBlock 1024) name with
      | none =>
        rw [hfind] at hanswer
        cases hanswer
      | some r =>
        rw [hfind] at hanswer
        obtain ⟨hr, -, -⟩ := findName_spec hfind
        rw [records_linkedRootBlock] at hr
        simp only [mem_cons, not_mem_nil, or_false] at hr
        rcases hr with rfl | rfl | rfl | rfl <;> cases hanswer <;> simp
    · -- a file is not looked up in
      rw [lookupInDir, hread] at hchild
      have hnot : file.kind ≠ .directory := by simp [hkind]
      change (if file.kind ≠ .directory then _ else _) = _ at hchild
      rw [if_pos hnot] at hchild
      cases hchild

/-- The inodes that are read: the root, and the file without blocks. -/
theorem linked_inode {ino : Nat} {inode : Inode} (h : sampleVolume.Reached (linkedDevice 2) ino)
    (hread : sampleVolume.readInode (linkedDevice 2) ino = .ok inode) :
    ino = 2 ∧ inode = sampleRootInode ∨ inode.kind = .regular ∧
      ∀ d' lb, sampleVolume.mapBlock d' inode lb = .ok 0 := by
  rcases linked_reached h with rfl | rfl
  · rw [linkedRoot.readInode] at hread
    cases hread
    exact .inl ⟨rfl, rfl⟩
  · obtain ⟨file, hfile, hkind, hmap⟩ := linkedFile
    rw [hfile] at hread
    cases hread
    exact .inr ⟨hkind, hmap⟩

theorem linked_image : sampleVolume.Image (linkedDevice 2) := by
  have hfileBlock (b : Nat) (hb : sampleVolume.FileBlock (linkedDevice 2) b) : b = 0 := by
    obtain ⟨ino, inode, lb, hino, hread, hregular, hblock⟩ := hb
    rcases linked_inode hino hread with ⟨-, rfl⟩ | ⟨-, hmap⟩
    · exact absurd hregular (by decide)
    · rw [hmap] at hblock
      cases hblock
      rfl
  have hdirBlock (b : Nat) (hb : sampleVolume.DirBlock (linkedDevice 2) b) : b = 7 := by
    obtain ⟨ino, inode, lb, hino, hread, hdir, hlb, hblock⟩ := hb
    rcases linked_inode hino hread with ⟨-, rfl⟩ | ⟨hkind, -⟩
    · rw [mapBlock_sampleRoot _ lb (le_of_lt_succ hlb)] at hblock
      cases hblock
      rfl
    · rw [hkind] at hdir
      cases hdir
  have hbitmapBlock (b : Nat) (hb : sampleVolume.BitmapBlock (linkedDevice 2) b) : b = 3 := by
    obtain ⟨f, hf, hblock⟩ := hb
    rw [hfileBlock f hf, show sampleVolume.readGroupDescBitmapBlock (linkedDevice 2)
      (sampleVolume.blockGroup 0) = .ok 3 by decide +kernel] at hblock
    cases hblock
    rfl
  have hbytes (d' : Device) (h : sampleVolume.Framed (linkedDevice 2) d') (i : Nat)
      (hi : i < 3072 ∨ 4096 ≤ i) (hlt : i < 7168) : d'.bytes i = (linkedDevice 2).bytes i := by
    refine h.bytes i fun b hb hin => ?_
    have hlo : b * 1024 ≤ i := hin.1
    have hhi : i < b * 1024 + 1024 := hin.2
    rcases hb with hb | hb
    · have hseven := hdirBlock b hb
      omega
    · have hthree := hbitmapBlock b hb
      omega
  have hreadRoot (d' : Device) (h : sampleVolume.Framed (linkedDevice 2) d') :
      sampleVolume.readInode d' 2 = .ok sampleRootInode :=
    readInode_sampleRoot h.capacity fun i hi hlt =>
      (hbytes d' h i hi (by omega)).trans (linkedDevice_bytes hlt)
  have hdesc (d' : Device) (h : sampleVolume.Framed (linkedDevice 2) d') :
      sampleVolume.readDesc d' 0 = sampleVolume.readDesc (linkedDevice 2) 0 :=
    readBytes_congr h.capacity fun i hi => by
      have hlt : i < 32 := hi
      exact hbytes d' h _ (.inl (show 2048 + i < 3072 by omega)) (show 2048 + i < 7168 by omega)
  have hreadFile (d' : Device) (h : sampleVolume.Framed (linkedDevice 2) d') :
      sampleVolume.readInode d' 11 = sampleVolume.readInode (linkedDevice 2) 11 := by
    have hoffset : sampleVolume.inodeOffset (linkedDevice 2) 11 = .ok 6400 := by decide +kernel
    refine readInode_congr h.capacity (hdesc d' h) hoffset fun i hi => ?_
    have hlt : i < 128 := hi
    exact hbytes d' h _ (.inr (by omega)) (by omega)
  constructor
  · intro ino hino
    rcases linked_reached hino with rfl | rfl
    · exact ⟨_, linkedRoot.readInode⟩
    · obtain ⟨file, hfile, -⟩ := linkedFile
      exact ⟨_, hfile⟩
  · intro ino inode hino hread hdir
    rcases linked_inode hino hread with ⟨rfl, -⟩ | ⟨hkind, -⟩
    · exact ⟨linkedRoot, linkedRoot_unique⟩
    · rw [hkind] at hdir
      cases hdir
  · intro b b' hb hb'
    rw [hdirBlock b hb, hbitmapBlock b' hb']
    decide
  · intro d' h ino hino
    rcases linked_reached hino with rfl | rfl
    · rw [hreadRoot d' h, linkedRoot.readInode]
      rfl
    · exact hreadFile d' h
  · intro d' h ino inode lb hino hread
    rcases linked_inode hino hread with ⟨-, rfl⟩ | ⟨-, hmap⟩
    · have hdepth : readInt16 sampleRootInode.iBlock 6 = 0 := by decide +kernel
      simp only [mapBlock, hdepth]
      rfl
    · rw [hmap, hmap]
  · intro d' h b hb
    rw [hfileBlock b hb]
    exact hdesc d' h

/-- On a volume with a file `/f`, the deletion of `/h` changes nothing, and that of `/f` does not do
what it is for. -/
theorem deleteFile_unlinks_linked :
    (∀ e d', sampleVolume.deleteFile [SLASH, 0x68] (linkedDevice 2) = (.error e, d') →
      sampleVolume.Unchanged (linkedDevice 2) d') ∧
    ¬ ((∀ d', sampleVolume.deleteFile [SLASH, 0x66] (linkedDevice 2) = (.ok (), d') →
        ∀ dir, sampleVolume.lookup (linkedDevice 2) (splitPath [SLASH, 0x66]).1 = .ok dir →
          sampleVolume.Unlinked (linkedDevice 2) d' dir (splitPath [SLASH, 0x66]).2) ∧
      ∀ e d', sampleVolume.deleteFile [SLASH, 0x66] (linkedDevice 2) = (.error e, d') →
        sampleVolume.Unchanged (linkedDevice 2) d') := by
  constructor
  · refine ((deleteFile_unlinks linked_image _).mpr ?_).2
    intro _ ino inode dir child hino
    have hmissing : sampleVolume.lookup (linkedDevice 2) [SLASH, 0x68] = .error .notFound := by
      decide +kernel
    rw [hmissing] at hino
    cases hino
  · rw [deleteFile_unlinks linked_image]
    obtain ⟨file, hread, hkind, -⟩ := linkedFile
    intro h
    exact h rfl 11 file 2 11 (by decide +kernel) hread hkind (by decide +kernel)
      (by decide +kernel)

/-- `/f` is deleted, but the link count stays at two; were it one, the deletion would fail with
the entry gone. -/
theorem link_count_kept :
    mount (linkedDevice 2) = .ok sampleVolume ∧
      sampleVolume.lookup (linkedDevice 2) [SLASH, 0x66] = .ok 11 ∧
      (sampleVolume.deleteFile [SLASH, 0x66] (linkedDevice 2)).1 = .ok () ∧
      ((sampleVolume.readInode (linkedDevice 2) 11).map Inode.nlink) = .ok 2 ∧
      ((sampleVolume.readInode (sampleVolume.deleteFile [SLASH, 0x66] (linkedDevice 2)).2 11).map
        Inode.nlink) = .ok 2 ∧
      sampleVolume.lookup (linkedDevice 1) [SLASH, 0x66] = .ok 11 ∧
      (sampleVolume.deleteFile [SLASH, 0x66] (linkedDevice 1)).1 = .error .ioError ∧
      sampleVolume.lookup (sampleVolume.deleteFile [SLASH, 0x66] (linkedDevice 1)).2
        [SLASH, 0x66] = .error .notFound := by
  refine ⟨?_, ?_, ?_, ?_, ?_, ?_, ?_, ?_⟩ <;> decide +kernel

end

end Innigkeit.Filesystem.Ext4

import Innigkeit.Filesystem.Ext4.Alloc

/-!
Adding and removing directory entries. A new entry goes behind the first record
of the last block that has room for it and is given the rest of the block,
whatever stood there; a new block cannot be allocated, so this is the only way
to succeed.
-/

namespace Innigkeit.Filesystem.Ext4

open Action List Function

def roundUp4 (n : Nat) : Nat := (n + 3) / 4 * 4

def Rec.used (r : Rec) : Nat := roundUp4 (8 + r.name.length)

/-- The record behind which a new one of `needed` bytes is put. -/
def insertSlot (size needed : Nat) : List Rec → Option Rec
  | [] => none
  | r :: recs =>
    -- Corrupt padding ends the search.
    if r.recLen < r.used then none
    else if (size ≤ r.off + r.recLen ∨ needed ≤ r.recLen - r.used) ∧
        r.off + r.used + needed ≤ size then
      some r
    else insertSlot size needed recs

/-- A record that fills the block from `off` on. -/
def writeRecord (buf : Bytes) (size off : Nat) (name : List Byte) (childIno fileType : Nat) :
    Bytes :=
  let buf := writeInt32 buf off childIno
  let buf := writeInt16 buf (off + 4) (size - off)
  let buf := Function.update buf (off + 6) (BitVec.ofNat 8 name.length)
  let buf := Function.update buf (off + 7) (BitVec.ofNat 8 fileType)
  writeName buf (off + 8) name

/-- Trim a record and put the new one behind it. -/
def insertRecord (buf : Bytes) (size : Nat) (r : Rec) (name : List Byte) (childIno fileType : Nat) :
    Bytes :=
  writeRecord (writeInt16 buf (r.off + 4) r.used) size (r.off + r.used) name childIno fileType

/-- Merge the record of a name into the one before it, or mark it deleted if it is the first. -/
def removeRecord (buf : Bytes) (name : List Byte) : Option Rec → List Rec → Option Bytes
  | _, [] => none
  | prev, r :: recs =>
    if r.inode ≠ 0 ∧ r.name = name then
      match prev with
      | some p => some (writeInt16 buf (p.off + 4) (p.recLen + r.recLen))
      | none => some (writeInt32 buf r.off 0)
    else removeRecord buf name (some r) recs

/-- From `off` on the records of a block follow each other up to its end. -/
def ChainTo (buf : Bytes) (size : Nat) : Nat → List Rec → Prop
  | off, [] => off = size
  | off, r :: recs => nextRec buf size off = some r ∧ ChainTo buf size (off + r.recLen) recs

section

variable {buf buf' : Bytes} {size off : Nat} {r : Rec} {recs pre post : List Rec}

theorem readInt16_congr {i : Nat} (h : ∀ k, k < 2 → buf' (i + k) = buf (i + k)) :
    readInt16 buf' i = readInt16 buf i := by
  have h0 := h 0 (by omega)
  have h1 := h 1 (by omega)
  rw [add_zero] at h0
  rw [readInt16, readInt16, h0, h1]

theorem readInt32_congr {i : Nat} (h : ∀ k, k < 4 → buf' (i + k) = buf (i + k)) :
    readInt32 buf' i = readInt32 buf i := by
  rw [readInt32, readInt32, readInt16_congr fun k hk => h k (by omega),
    readInt16_congr (i := i + 2) fun k hk => ?_]
  rw [add_assoc]
  exact h _ (by omega)

section

variable (h : nextRec buf size off = some r)
include h

theorem nextRec_spec : r.off = off ∧ off + r.recLen ≤ size ∧ 8 + r.name.length ≤ r.recLen := by
  unfold nextRec at h
  split at h
  · cases h
  · dsimp only at h
    split at h
    · cases h
    · cases h
      dsimp only
      rw [length_slice]
      exact ⟨rfl, by omega, by omega⟩

theorem nextRec_fields :
    r.inode = readInt32 buf off ∧ r.fileType = (buf (off + 7)).toNat ∧
      r.name.length = (buf (off + 6)).toNat ∧
      r.name = slice buf (off + 8) (off + 8 + r.name.length) := by
  unfold nextRec at h
  split at h
  · cases h
  · dsimp only at h
    split at h
    · cases h
    · cases h
      refine ⟨rfl, rfl, ?_, ?_⟩ <;> simp

theorem nextRec_congr (hsame : ∀ k, off ≤ k → k < off + r.recLen → buf' k = buf k) :
    nextRec buf' size off = some r := by
  have hspec := nextRec_spec h
  have hlen := hspec.2.2
  have hheader (k : Nat) (hk : k < 8) : buf' (off + k) = buf (off + k) :=
    hsame _ (by omega) (by omega)
  have hino : readInt32 buf' off = readInt32 buf off :=
    readInt32_congr fun k hk => hheader k (by omega)
  have hrec : readInt16 buf' (off + 4) = readInt16 buf (off + 4) :=
    readInt16_congr fun k hk => hsame _ (by omega) (by omega)
  unfold nextRec at h ⊢
  rw [hino, hrec, hheader 6 (by omega), hheader 7 (by omega)]
  split at h
  · cases h
  · next hsize =>
    rw [if_neg hsize]
    dsimp only at h ⊢
    split at h
    · cases h
    · next hok =>
      rw [if_neg hok]
      cases h
      dsimp only at hsame hlen
      rw [length_slice] at hlen
      refine congrArg some (Rec.mk.injEq .. ▸ ⟨rfl, rfl, rfl, rfl, ?_⟩)
      exact slice_congr rfl fun k hk => hsame _ (by omega) (by omega)

theorem nextRec_recLen : r.recLen = readInt16 buf (off + 4) := by
  unfold nextRec at h
  split at h
  · cases h
  · dsimp only at h
    split at h
    · cases h
    · cases h
      rfl

theorem nextRec_of_fields {ino len : Nat} (hlen : 8 + r.name.length ≤ len) (hend : off + len ≤ size)
    (hino : readInt32 buf' off = ino) (hrec : readInt16 buf' (off + 4) = len)
    (hsame : ∀ k, off + 6 ≤ k → k < off + 8 + r.name.length → buf' k = buf k) :
    nextRec buf' size off = some { r with inode := ino, recLen := len } := by
  obtain ⟨hoff, -, -⟩ := nextRec_spec h
  obtain ⟨-, htype, hnameLen, hname⟩ := nextRec_fields h
  unfold nextRec
  rw [if_neg (by omega), hino, hrec, hsame (off + 6) (by omega) (by omega),
    hsame (off + 7) (by omega) (by omega), ← hnameLen, ← htype]
  dsimp only
  rw [if_neg (by omega)]
  have hslice : slice buf' (off + 8) (off + 8 + r.name.length) = r.name :=
    (slice_congr rfl fun k hk => hsame _ (by omega) (by omega)).trans hname.symm
  rw [hslice, hoff]

end

/-- A chain up to the end of the block is what the iterator yields. -/
theorem ChainTo.recordsFrom (h : ChainTo buf size off recs) {fuel : Nat}
    (hfuel : (size - off) / 8 ≤ fuel) : recordsFrom buf size fuel off = recs := by
  induction recs generalizing off fuel with
  | nil =>
    have hoff : off = size := h
    have hnone : nextRec buf size off = none := if_pos (by omega)
    cases fuel with
    | zero => rfl
    | succ fuel => rw [Ext4.recordsFrom, hnone]
  | cons r recs ih =>
    obtain ⟨hr, hrest⟩ := h
    obtain ⟨-, hle, hname⟩ := nextRec_spec hr
    cases fuel with
    | zero => omega
    | succ fuel =>
      rw [Ext4.recordsFrom, hr]
      exact congrArg (r :: ·) (ih hrest (by omega))

theorem ChainTo.records (h : ChainTo buf size 0 recs) : records buf size = recs :=
  h.recordsFrom le_rfl

/-- Where a record of a chain stands, and what stands before it. -/
theorem ChainTo.split (h : ChainTo buf size off (pre ++ r :: post)) :
    off ≤ r.off ∧ nextRec buf size r.off = some r ∧
      ChainTo buf size (r.off + r.recLen) post := by
  induction pre generalizing off with
  | nil =>
    obtain ⟨hr, hpost⟩ := h
    have hoff := (nextRec_spec hr).1
    rw [hoff]
    exact ⟨le_rfl, hr, hpost⟩
  | cons p pre ih =>
    obtain ⟨hle, hrest⟩ := ih h.2
    exact ⟨by omega, hrest⟩

theorem ChainTo.graft (h : ChainTo buf size off (pre ++ r :: post)) {tail : List Rec}
    (hsame : ∀ k, k < r.off → buf' k = buf k) (htail : ChainTo buf' size r.off tail) :
    ChainTo buf' size off (pre ++ tail) := by
  induction pre generalizing off with
  | nil =>
    rw [← (nextRec_spec h.1).1]
    exact htail
  | cons p pre ih =>
    have hle := (ChainTo.split h.2).1
    exact ⟨nextRec_congr h.1 fun k _ hk => hsame k (by omega), ih h.2⟩

theorem ChainTo.off_lt (h : ChainTo buf size off (r :: post)) {p : Rec} (hp : p ∈ post) :
    r.off < p.off := by
  obtain ⟨pre, post', rfl⟩ := append_of_mem hp
  have hr := nextRec_spec h.1
  have := (ChainTo.split h.2).1
  omega

theorem ChainTo.off_le (h : ChainTo buf size off (pre ++ r :: post)) {p : Rec} (hp : p ∈ pre) :
    p.off ≤ r.off := by
  obtain ⟨pre', pre'', rfl⟩ := append_of_mem hp
  rw [append_assoc, cons_append] at h
  obtain ⟨-, hp', hrest⟩ := h.split
  have := (ChainTo.split hrest).1
  omega

end

section

variable {buf : Bytes} {size needed : Nat} {r : Rec} {recs : List Rec}

theorem roundUp4_ge (n : Nat) : n ≤ roundUp4 n := by
  unfold roundUp4
  omega

theorem insertSlot_spec (h : insertSlot size needed recs = some r) :
    (∃ pre post, recs = pre ++ r :: post) ∧ r.off + r.used + needed ≤ size := by
  induction recs with
  | nil => cases h
  | cons p recs ih =>
    rw [insertSlot] at h
    split at h
    · cases h
    · split at h
      · next hroom =>
        cases h
        exact ⟨⟨[], recs, rfl⟩, hroom.2⟩
      · obtain ⟨⟨pre, post, hrecs⟩, hrest⟩ := ih h
        exact ⟨⟨p :: pre, post, by rw [hrecs]; rfl⟩, hrest⟩

variable {name : List Byte} {childIno fileType off k : Nat}

theorem readInt16_writeInt16 (buf : Bytes) (i : Nat) {v : Nat} (h : v < 2 ^ 16) :
    readInt16 (writeInt16 buf i v) i = v := by
  simp only [readInt16, writeInt16, if_true, show i + 1 ≠ i by omega, if_false, BitVec.toNat_ofNat]
  omega

theorem writeInt16_of_ne {i v : Nat} (h : k ≠ i) (h' : k ≠ i + 1) :
    writeInt16 buf i v k = buf k := by
  simp [writeInt16, h, h']

theorem readInt32_writeInt32 (buf : Bytes) (i : Nat) {v : Nat} (h : v < 2 ^ 32) :
    readInt32 (writeInt32 buf i v) i = v := by
  simp only [readInt32, readInt16, writeInt32, writeInt16, if_true, BitVec.toNat_ofNat,
    show i ≠ i + 2 by omega, show i ≠ i + 2 + 1 by omega, show i + 1 ≠ i + 2 by omega,
    show i + 1 ≠ i + 2 + 1 by omega, show i + 1 ≠ i by omega, show i + 2 + 1 ≠ i + 2 by omega,
    if_false]
  omega

theorem writeInt32_of_lt {i v : Nat} (h : k < i ∨ i + 4 ≤ k) : writeInt32 buf i v k = buf k := by
  rw [writeInt32, writeInt16_of_ne (by omega) (by omega), writeInt16_of_ne (by omega) (by omega)]

theorem writeName_of_lt {i : Nat} (h : k < i) : writeName buf i name k = buf k :=
  if_neg (by omega)

theorem writeRecord_of_lt (h : k < off) :
    writeRecord buf size off name childIno fileType k = buf k := by
  unfold writeRecord
  rw [writeName_of_lt (by omega), update_of_ne (by omega), update_of_ne (by omega),
    writeInt16_of_ne (by omega) (by omega), writeInt32_of_lt (by omega)]

theorem nextRec_writeRecord (hsize : size ≤ 4096) (hoff : off + 8 + name.length ≤ size)
    (hname : name.length ≤ 255) (hchild : childIno < 2 ^ 32) :
    nextRec (writeRecord buf size off name childIno fileType) size off =
      some ⟨off, childIno, size - off, fileType % 256, name⟩ := by
  have hino : readInt32 (writeRecord buf size off name childIno fileType) off = childIno := by
    refine (readInt32_congr ?_).trans (readInt32_writeInt32 buf off hchild)
    intro k hk
    unfold writeRecord
    rw [writeName_of_lt (by omega), update_of_ne (by omega),
      update_of_ne (by omega), writeInt16_of_ne (by omega) (by omega)]
  have hrec : readInt16 (writeRecord buf size off name childIno fileType) (off + 4) =
      size - off := by
    refine (readInt16_congr ?_).trans (readInt16_writeInt16 (writeInt32 buf off childIno) (off + 4)
      (show size - off < 2 ^ 16 by omega))
    intro k hk
    unfold writeRecord
    rw [writeName_of_lt (by omega), update_of_ne (by omega), update_of_ne (by omega)]
  have hlen : (writeRecord buf size off name childIno fileType (off + 6)).toNat = name.length := by
    unfold writeRecord
    rw [writeName_of_lt (by omega), update_of_ne (by omega), update_self, BitVec.toNat_ofNat]
    omega
  have htype : (writeRecord buf size off name childIno fileType (off + 7)).toNat =
      fileType % 256 := by
    unfold writeRecord
    rw [writeName_of_lt (by omega), update_self, BitVec.toNat_ofNat]
  unfold nextRec
  rw [if_neg (by omega), hino, hrec, hlen, htype]
  dsimp only
  rw [if_neg (by omega)]
  have hslice : slice (writeRecord buf size off name childIno fileType) (off + 8)
      (off + 8 + name.length) = name := slice_writeName _ _
  rw [hslice]

theorem insertRecord_of_lt (h : k < r.off) :
    insertRecord buf size r name childIno fileType k = buf k := by
  rw [insertRecord, writeRecord_of_lt (by omega), writeInt16_of_ne (by omega) (by omega)]

theorem insertRecord_of_ge (h : r.off + r.used + 8 + name.length ≤ k) :
    insertRecord buf size r name childIno fileType k = buf k := by
  have hself : 8 + r.name.length ≤ r.used := roundUp4_ge _
  unfold insertRecord writeRecord
  rw [writeName, if_neg (by omega), update_of_ne (by omega),
    update_of_ne (by omega), writeInt16_of_ne (by omega) (by omega),
    writeInt32_of_lt (by omega), writeInt16_of_ne (by omega) (by omega)]

/-- Behind the trimmed record the new one fills the block. -/
theorem chain_insertRecord (hr : nextRec buf size r.off = some r) (hsize : size ≤ 4096)
    (hroom : r.off + r.used + roundUp4 (8 + name.length) ≤ size)
    (hname : name.length ≤ 255) (hchild : childIno < 2 ^ 32) :
    ChainTo (insertRecord buf size r name childIno fileType) size r.off
      [{ r with recLen := r.used },
        ⟨r.off + r.used, childIno, size - (r.off + r.used), fileType % 256, name⟩] := by
  have hneeded := roundUp4_ge (8 + name.length)
  have hself : 8 + r.name.length ≤ r.used := roundUp4_ge _
  have hend : r.off + r.used + (size - (r.off + r.used)) = size := by omega
  refine ⟨?_, nextRec_writeRecord hsize (by omega) hname hchild, hend⟩
  -- The trimmed record differs from the old one in its length only.
  have hsame (k : Nat) (hk : k < r.off + r.used) (h4 : k ≠ r.off + 4) (h5 : k ≠ r.off + 5) :
      insertRecord buf size r name childIno fileType k = buf k := by
    rw [insertRecord, writeRecord_of_lt hk, writeInt16_of_ne h4 h5]
  obtain ⟨-, hlast, -⟩ := nextRec_spec hr
  refine nextRec_of_fields hr hself (by omega) ?_ ?_ fun k hk hend => ?_
  · rw [(nextRec_fields hr).1]
    exact readInt32_congr fun k hk => hsame _ (by omega) (by omega) (by omega)
  · refine (readInt16_congr fun k hk => ?_).trans
      (readInt16_writeInt16 buf (r.off + 4) (show r.used < 2 ^ 16 by omega))
    exact writeRecord_of_lt (by omega)
  · exact hsame k (by omega) (by omega) (by omega)

end

namespace SbInfo

variable (sb : SbInfo)

/-- The last block of a directory and its number; none if it is missing. -/
def lastBlock (d : Device) (dir : Inode) : Result (Option (Nat × Bytes)) :=
  if dir.size = 0 then .ok none
  else do
    let phys ← sb.mapBlock d dir ((dir.size - 1) / sb.blockSize)
    if phys = 0 then return none
    else do
      let buf ← sb.readBlock d phys
      return some (phys, buf)

/-- Put the entry into a new block of its own. -/
def addDirBlock (dir : Inode) (dirIno : Nat) (name : List Byte) (childIno fileType : Nat) :
    Action Unit := do
  let newBlock ← sb.allocBlock
  sb.writeBlock newBlock (writeRecord (fun _ => 0) sb.blockSize 0 name childIno fileType)
  sb.appendExtent dir dirIno (dir.size / sb.blockSize) newBlock
  sb.writeInode dirIno { dir with size := dir.size + sb.blockSize }

/-- Where an entry of a name goes in a directory. -/
def addDirSlot (dir : Inode) (dirIno : Nat) (name : List Byte) (childIno fileType : Nat) :
    Option (Nat × Bytes) → Action Unit
  | none => sb.addDirBlock dir dirIno name childIno fileType
  | some (phys, buf) =>
    match insertSlot sb.blockSize (roundUp4 (8 + name.length)) (records buf sb.blockSize) with
    | some r => sb.writeBlock phys (insertRecord buf sb.blockSize r name childIno fileType)
    | none => sb.addDirBlock dir dirIno name childIno fileType

def addDirEntry (dirIno : Nat) (name : List Byte) (childIno fileType : Nat) : Action Unit := do
  let dir ← observe fun d => sb.readInode d dirIno
  if dir.kind ≠ .directory then fail .notADirectory
  else if name.length > 255 then fail .nameTooLong
  else do
    let last ← observe fun d => sb.lastBlock d dir
    sb.addDirSlot dir dirIno name childIno fileType last

def removeBlocks (dir : Inode) (name : List Byte) : Nat → Nat → Action Unit
  | 0, _ => fail .notFound
  | n + 1, lb => do
    let phys ← observe fun d => sb.mapBlock d dir lb
    if phys = 0 then removeBlocks dir name n (lb + 1)
    else do
      let buf ← observe fun d => sb.readBlock d phys
      match removeRecord buf name none (records buf sb.blockSize) with
      | some buf' => sb.writeBlock phys buf'
      | none => removeBlocks dir name n (lb + 1)

def removeDirEntry (dirIno : Nat) (name : List Byte) : Action Unit := do
  let dir ← observe fun d => sb.readInode d dirIno
  if dir.kind ≠ .directory then fail .notADirectory
  else sb.removeBlocks dir name (sb.blocksOf dir.size) 0

end SbInfo

end Innigkeit.Filesystem.Ext4

import Innigkeit.Filesystem.Ext4.File

/-!
What `addDirEntry` does to a directory: the new name is found, and the other
names are found as before exactly if no live record follows the one that the
search for room stops at.
-/

namespace Innigkeit.Filesystem.Ext4

open Action List SbInfo

section

variable {recs pre post : List Rec} {r : Rec} {name n : List Byte}

theorem findName_append : findName (pre ++ post) n = (findName pre n).or (findName post n) := by
  rw [findName, findName, findName, find?_append]

theorem findName_eq_none_iff : findName recs n = none ↔ ∀ p ∈ recs, p.inode ≠ 0 → p.name ≠ n := by
  simp [findName]

theorem findName_spec (h : findName recs n = some r) : r ∈ recs ∧ r.inode ≠ 0 ∧ r.name = n := by
  have hprop := find?_some h
  simp only [ne_eq, decide_not, Bool.and_eq_true, Bool.not_eq_true', decide_eq_false_iff_not,
    decide_eq_true_eq] at hprop
  exact ⟨mem_of_find?_eq_some h, hprop⟩

/-- A record that was trimmed and one of another name behind it do not change which inode a name
has. -/
theorem findName_trim (pre : List Rec) (len : Nat) {new : Rec} (hnew : new.name ≠ n) :
    (findName (pre ++ [{ r with recLen := len }, new]) n).map Rec.inode =
      (findName (pre ++ [r]) n).map Rec.inode := by
  rw [findName_append, findName_append]
  cases findName pre n with
  | some p => rfl
  | none =>
    by_cases h : r.inode ≠ 0 ∧ r.name = n
    · simp [findName, h]
    · rw [not_and_or] at h
      rcases h with h | h <;> simp [findName, h, hnew]

end

namespace SbInfo

variable (sb : SbInfo)

/-- The block of a directory in which a name is found, and its record. -/
def search (blocks : Nat → Bytes) (name : List Byte) (count : Nat) : Option Rec :=
  (List.range count).findSome? fun lb => findName (records (blocks lb) sb.blockSize) name

/-- A directory whose blocks are all there and hold chains of records, and no block of it holds
what says where its blocks are. -/
structure Directory (d : Device) (dirIno : Nat) where
  inode : Inode
  count : Nat
  phys : Nat → Nat
  blocks : Nat → Bytes
  readInode : sb.readInode d dirIno = .ok inode
  kind : inode.kind = .directory
  size : inode.size = (count + 1) * sb.blockSize
  mapBlock : ∀ lb, lb ≤ count → sb.mapBlock d inode lb = .ok (phys lb)
  phys_ne : ∀ lb, lb ≤ count → phys lb ≠ 0
  phys_inj : ∀ lb lb', lb ≤ count → lb' ≤ count → phys lb = phys lb' → lb = lb'
  readBlock : ∀ lb, lb ≤ count → sb.readBlock d (phys lb) = .ok (blocks lb)
  chain : ∀ lb, lb ≤ count →
    ChainTo (blocks lb) sb.blockSize 0 (records (blocks lb) sb.blockSize)
  apart : ∀ lb d', lb ≤ count → d'.capacitySectors = d.capacitySectors →
    (∀ i, i < phys lb * sb.blockSize ∨ phys lb * sb.blockSize + sb.blockSize ≤ i →
      d'.bytes i = d.bytes i) →
    sb.readInode d' dirIno = .ok inode ∧
      ∀ lb', lb' ≤ count → sb.mapBlock d' inode lb' = .ok (phys lb')

/-- Every block of a directory is a chain of records that fills it. -/
def Chained (d : Device) (dirIno : Nat) : Prop :=
  ∃ inode, sb.readInode d dirIno = .ok inode ∧ ∀ lb, lb < sb.blocksOf inode.size →
    ∃ block, sb.readLogical d inode lb = .ok block ∧
      ChainTo block sb.blockSize 0 (records block sb.blockSize)

variable {sb}

theorem blockSize_pos : 0 < sb.blockSize := by
  rcases sb.blockSize_eq with h | h | h <;> omega

theorem blockSize_le : sb.blockSize ≤ 4096 := by
  rcases sb.blockSize_eq with h | h | h <;> omega

theorem blockSize_sectors : sb.blockSize % SECTOR_SIZE = 0 := by
  rcases sb.blockSize_eq with h | h | h <;> rw [h] <;> decide

theorem blocksOf_mul (n : Nat) : sb.blocksOf (n * sb.blockSize) = n := by
  have hpos := sb.blockSize_pos
  rw [blocksOf, Nat.div_eq_of_lt_le] <;> grind

variable {blocks : Nat → Bytes} {d : Device}

theorem lookupBlocks_eq {inode : Inode} {name : List Byte}
    {n lb : Nat} (h : ∀ k, k < n → sb.readLogical d inode (lb + k) = .ok (blocks (lb + k))) :
    sb.lookupBlocks d inode name n lb =
      match (List.range n).findSome? fun k =>
        findName (records (blocks (lb + k)) sb.blockSize) name with
      | some r => .ok r.inode
      | none => .error .notFound := by
  induction n generalizing lb with
  | zero => rfl
  | succ n ih =>
    have h0 := h 0 (by omega)
    have hnext (k : Nat) (hk : k < n) :
        sb.readLogical d inode (lb + 1 + k) = .ok (blocks (lb + 1 + k)) := by
      rw [add_assoc, add_comm 1 k]
      exact h (k + 1) (by omega)
    have hrest := ih hnext
    rw [add_zero] at h0
    rw [lookupBlocks, h0, range_succ_eq_map, findSome?_cons, findSome?_map]
    show (match findName (records (blocks lb) sb.blockSize) name with
      | some r => Except.ok r.inode
      | none => sb.lookupBlocks d inode name n (lb + 1)) = _
    rw [add_zero]
    cases findName (records (blocks lb) sb.blockSize) name with
    | some r => rfl
    | none =>
      rw [hrest]
      simp only [Function.comp_def, Nat.succ_eq_add_one, add_assoc, add_comm 1]

def written (sb : SbInfo) (d : Device) (phys : Nat) (buf : Bytes) : Device where
  bytes i :=
    if phys * sb.blockSize ≤ i ∧ i < phys * sb.blockSize + sb.blockSize then
      buf (i - phys * sb.blockSize)
    else d.bytes i
  capacitySectors := d.capacitySectors
  faults := d.faults
  requests := d.requests + 1

variable {phys : Nat}

theorem writeBlock_eq {buf buf' : Bytes} (h : sb.readBlock d phys = .ok buf) :
    sb.writeBlock phys buf' d =
      if d.faults d.requests = false then (.ok (), sb.written d phys buf')
      else (.error .ioError, { d with requests := d.requests + 1 }) := by
  have hpos := sb.blockSize_pos
  have hrange : phys * sb.blockSize + sb.blockSize ≤ d.capacitySectors * SECTOR_SIZE := by
    by_contra hout
    rw [readBlock, readBytes, if_neg hout] at h
    cases h
  have haligned : phys * sb.blockSize % SECTOR_SIZE = 0 := by
    rw [Nat.mul_mod, sb.blockSize_sectors, mul_zero, Nat.zero_mod]
  simp only [writeBlock, writeBytes, haligned, sb.blockSize_sectors, hrange, true_and,
    show sb.blockSize ≠ 0 by omega, if_false, ne_eq, not_true, or_self]
  rfl

theorem readBlock_written_of_ne {other : Nat} {buf : Bytes} (h : other ≠ phys) :
    sb.readBlock (sb.written d phys buf) other = sb.readBlock d other := by
  refine readBytes_congr rfl fun i hi => if_neg ?_
  rcases Nat.lt_or_gt_of_ne h with hlt | hgt
  · have := Nat.mul_le_mul_right sb.blockSize (Nat.succ_le_of_lt hlt)
    rw [Nat.succ_mul] at this
    omega
  · have := Nat.mul_le_mul_right sb.blockSize (Nat.succ_le_of_lt hgt)
    rw [Nat.succ_mul] at this
    omega

/-- The block itself, if only bytes inside it differ from what it held. -/
theorem readBlock_written {buf buf' : Bytes}
    (h : sb.readBlock d phys = .ok buf) (hsame : ∀ k, sb.blockSize ≤ k → buf' k = buf k) :
    sb.readBlock (sb.written d phys buf') phys = .ok buf' := by
  rw [readBlock, readBytes] at h ⊢
  split at h
  · next hrange =>
    rw [show (sb.written d phys buf').capacitySectors = d.capacitySectors from rfl, if_pos hrange]
    cases h
    refine congrArg _ (funext fun i => ?_)
    split
    · next hi =>
      show (if _ then _ else _) = _
      rw [if_pos (by omega)]
      congr 1
      omega
    · next hi =>
      rw [hsame i (by omega)]
      exact (if_neg hi).symm
  · cases h

def answer : Option Rec → Result Nat
  | some r => .ok r.inode
  | none => .error .notFound

theorem answer_congr {o o' : Option Rec} (h : o.map Rec.inode = o'.map Rec.inode) :
    answer o = answer o' := by
  cases o <;> cases o' <;> simp_all [answer]

namespace Directory

variable {d d' : Device} {dirIno : Nat}
variable {inode : Inode}

theorem readLogical_eq {lb : Nat} {block : Bytes}
    (hmap : sb.mapBlock d inode lb = .ok phys) (hne : phys ≠ 0)
    (hblock : sb.readBlock d phys = .ok block) : sb.readLogical d inode lb = .ok block := by
  rw [readLogical, hmap]
  show (if phys ≠ 0 then sb.readBlock d phys else _) = _
  rw [if_pos hne, hblock]

variable {count : Nat}

theorem lookupInDir_eq {phys : Nat → Nat} (hread : sb.readInode d dirIno = .ok inode)
    (hkind : inode.kind = .directory) (hsize : inode.size = (count + 1) * sb.blockSize)
    (hmap : ∀ lb, lb ≤ count → sb.mapBlock d inode lb = .ok (phys lb))
    (hne : ∀ lb, lb ≤ count → phys lb ≠ 0)
    (hblock : ∀ lb, lb ≤ count → sb.readBlock d (phys lb) = .ok (blocks lb)) (name : List Byte) :
    sb.lookupInDir d dirIno name = answer (sb.search blocks name (count + 1)) := by
  have hlogical (k : Nat) (hk : k < count + 1) :
      sb.readLogical d inode (0 + k) = .ok (blocks (0 + k)) := by
    rw [zero_add]
    exact readLogical_eq (hmap k (by omega)) (hne k (by omega)) (hblock k (by omega))
  rw [lookupInDir, hread]
  show (if inode.kind ≠ .directory then _ else
    sb.lookupBlocks d inode name (sb.blocksOf inode.size) 0) = _
  rw [if_neg (by simp [hkind]), hsize, blocksOf_mul, lookupBlocks_eq hlogical]
  simp only [zero_add]
  rfl

theorem search_succ (blocks : Nat → Bytes) (name : List Byte) (count : Nat) :
    sb.search blocks name (count + 1) =
      (sb.search blocks name count).or (findName (records (blocks count) sb.blockSize) name) := by
  rw [search, search, range_succ, findSome?_append]
  simp

theorem search_congr {blocks' : Nat → Bytes} (h : ∀ lb, lb < count → blocks' lb = blocks lb)
    (name : List Byte) : sb.search blocks' name count = sb.search blocks name count := by
  induction count with
  | zero => rfl
  | succ count ih =>
    rw [search_succ, search_succ, ih fun lb hlb => h lb (by omega), h count (by omega)]

variable (w : sb.Directory d dirIno) {name : List Byte} {childIno fileType : Nat}

theorem lookup (name : List Byte) :
    sb.lookupInDir d dirIno name = answer (sb.search w.blocks name (w.count + 1)) :=
  lookupInDir_eq w.readInode w.kind w.size w.mapBlock w.phys_ne w.readBlock name

theorem absent (h : sb.lookupInDir d dirIno name = .error .notFound) :
    sb.search w.blocks name w.count = none ∧
      findName (records (w.blocks w.count) sb.blockSize) name = none := by
  rw [w.lookup, search_succ] at h
  cases hsearch : sb.search w.blocks name w.count with
  | some r =>
    rw [hsearch] at h
    cases h
  | none =>
    rw [hsearch, Option.none_or] at h
    cases hfind : findName (records (w.blocks w.count) sb.blockSize) name with
    | some r =>
      rw [hfind] at h
      cases h
    | none => exact ⟨rfl, rfl⟩

theorem lastBlock_eq : sb.lastBlock d w.inode = .ok (some (w.phys w.count, w.blocks w.count)) := by
  have hpos := sb.blockSize_pos
  have hsize : w.inode.size ≠ 0 := by
    rw [w.size]
    exact Nat.mul_ne_zero (by omega) (by omega)
  have hlast : (w.inode.size - 1) / sb.blockSize = w.count := by
    rw [w.size, Nat.succ_mul]
    exact Nat.div_eq_of_lt_le (by omega) (by rw [Nat.succ_mul]; omega)
  rw [lastBlock, if_neg hsize, hlast, w.mapBlock _ le_rfl]
  show (if w.phys w.count = 0 then _ else _) = _
  rw [if_neg (w.phys_ne _ le_rfl), w.readBlock _ le_rfl]
  rfl

theorem addDirEntry_eq :
    sb.addDirEntry dirIno name childIno fileType d =
      if 255 < name.length then (.error .nameTooLong, d)
      else sb.addDirSlot w.inode dirIno name childIno fileType
        (some (w.phys w.count, w.blocks w.count)) d := by
  rw [addDirEntry, observe_bind_ok w.readInode, if_neg (by simp [w.kind])]
  split
  · rfl
  · exact observe_bind_ok w.lastBlock_eq

theorem addDirEntry_ok :
    sb.addDirEntry dirIno name childIno fileType d = (.ok (), d') ↔
      name.length ≤ 255 ∧ d.faults d.requests = false ∧
        ∃ r, insertSlot sb.blockSize (roundUp4 (8 + name.length))
            (records (w.blocks w.count) sb.blockSize) = some r ∧
          d' = sb.written d (w.phys w.count)
            (insertRecord (w.blocks w.count) sb.blockSize r name childIno fileType) := by
  rw [w.addDirEntry_eq]
  split
  · next hname =>
    simp [not_le.mpr hname]
  · next hname =>
    rw [addDirSlot]
    cases hslot : insertSlot sb.blockSize (roundUp4 (8 + name.length))
        (records (w.blocks w.count) sb.blockSize) with
    | none =>
      have hnever : (sb.addDirBlock w.inode dirIno name childIno fileType).Never :=
        sb.allocBlock_never.bind _
      simp only [reduceCtorEq, false_and, exists_false, and_false, iff_false]
      intro h
      exact hnever d () (by rw [h])
    | some r =>
      simp only [writeBlock_eq (w.readBlock _ le_rfl), Option.some.injEq,
        exists_eq_left', not_lt.mp hname, true_and]
      split
      · next hok => simp [hok, eq_comm]
      · next hok => simp [hok]

variable {r : Rec}

/-- What the directory looks like after an entry was put behind the record `r`. -/
theorem lookup_written {pre post : List Rec}
    (hrecs : records (w.blocks w.count) sb.blockSize = pre ++ r :: post)
    (hroom : r.off + r.used + roundUp4 (8 + name.length) ≤ sb.blockSize)
    (hname : name.length ≤ 255) (hchild : childIno < 2 ^ 32) :
    let buf := insertRecord (w.blocks w.count) sb.blockSize r name childIno fileType
    let new : Rec := ⟨r.off + r.used, childIno, sb.blockSize - (r.off + r.used), fileType % 256,
      name⟩
    (∀ n, sb.lookupInDir (sb.written d (w.phys w.count) buf) dirIno n =
      answer ((sb.search w.blocks n w.count).or
        (findName (pre ++ [{ r with recLen := r.used }, new]) n))) ∧
    sb.Chained (sb.written d (w.phys w.count) buf) dirIno := by
  intro buf new
  have hneeded := roundUp4_ge (8 + name.length)
  have hchain := w.chain w.count le_rfl
  rw [hrecs] at hchain
  have hnew : ChainTo buf sb.blockSize 0 (pre ++ [{ r with recLen := r.used }, new]) :=
    hchain.graft (fun k hk => insertRecord_of_lt hk)
      (chain_insertRecord hchain.split.2.1 sb.blockSize_le hroom hname hchild)
  -- The blocks of the directory, the last one rewritten.
  let blocks : Nat → Bytes := fun lb => if lb = w.count then buf else w.blocks lb
  have hblock (lb : Nat) (hlb : lb ≤ w.count) :
      sb.readBlock (sb.written d (w.phys w.count) buf) (w.phys lb) = .ok (blocks lb) := by
    by_cases heq : lb = w.count
    · simp only [blocks, heq, if_true]
      exact readBlock_written (w.readBlock _ le_rfl) fun k hk =>
        insertRecord_of_ge (by omega)
    · simp only [blocks, heq, if_false]
      rw [readBlock_written_of_ne, w.readBlock lb hlb]
      exact fun hphys => heq (w.phys_inj lb w.count hlb le_rfl hphys)
  have hearlier (lb : Nat) (hlb : lb < w.count) : blocks lb = w.blocks lb :=
    if_neg (ne_of_lt hlb)
  have hmeta := w.apart w.count (sb.written d (w.phys w.count) buf) le_rfl rfl
    fun i hi => if_neg (by omega)
  constructor
  · intro n
    rw [lookupInDir_eq hmeta.1 w.kind w.size hmeta.2 w.phys_ne hblock n, search_succ,
      search_congr hearlier]
    simp only [blocks, if_true]
    rw [hnew.records]
  · refine ⟨w.inode, hmeta.1, fun lb hlb => ?_⟩
    rw [w.size, blocksOf_mul, Nat.lt_succ_iff] at hlb
    refine ⟨blocks lb, readLogical_eq (hmeta.2 lb hlb) (w.phys_ne lb hlb) (hblock lb hlb), ?_⟩
    by_cases heq : lb = w.count
    · simp only [blocks, heq, if_true]
      rwa [hnew.records]
    · simp only [blocks, heq, if_false]
      exact w.chain lb hlb

/-- Every live record behind `r` in the last block is hidden by one of the same name before it,
at or before `r` or in another block. -/
def Hides (r : Rec) : Prop :=
  ∀ p ∈ records (w.blocks w.count) sb.blockSize, r.off < p.off → p.inode ≠ 0 →
    sb.search w.blocks p.name w.count ≠ none ∨
      ∃ q ∈ records (w.blocks w.count) sb.blockSize,
        q.off ≤ r.off ∧ q.inode ≠ 0 ∧ q.name = p.name

/-- The records behind `r` are lost, and whether that can be seen depends on their names only. -/
theorem hides_iff {pre post : List Rec}
    (hrecs : records (w.blocks w.count) sb.blockSize = pre ++ r :: post) :
    w.Hides r ↔ ∀ p ∈ post, p.inode ≠ 0 →
      sb.search w.blocks p.name w.count ≠ none ∨ findName (pre ++ [r]) p.name ≠ none := by
  have hchain := w.chain w.count le_rfl
  rw [hrecs] at hchain
  have hbehind {p : Rec} (hp : p ∈ post) : r.off < p.off := by
    obtain ⟨-, hr, hrest⟩ := hchain.split
    exact ChainTo.off_lt (show ChainTo _ _ r.off (r :: post) from ⟨hr, hrest⟩) hp
  have hmem (q : Rec) : (q ∈ pre ++ r :: post ∧ q.off ≤ r.off) ↔ q ∈ pre ++ [r] := by
    constructor
    · rintro ⟨hq, hoff⟩
      rcases mem_append.mp hq with hq | hq
      · exact mem_append_left _ hq
      · rcases mem_cons.mp hq with rfl | hq
        · exact mem_append_right _ (mem_singleton.mpr rfl)
        · exact absurd (hbehind hq) (by omega)
    · intro hq
      rcases mem_append.mp hq with hq | hq
      · exact ⟨mem_append_left _ hq, hchain.off_le hq⟩
      · rw [mem_singleton.mp hq]
        exact ⟨mem_append_right _ mem_cons_self, le_rfl⟩
  have hfound (n : List Byte) : findName (pre ++ [r]) n ≠ none ↔
      ∃ q ∈ pre ++ r :: post, q.off ≤ r.off ∧ q.inode ≠ 0 ∧ q.name = n := by
    rw [ne_eq, findName_eq_none_iff]
    push Not
    constructor
    · rintro ⟨q, hq, hlive, hn⟩
      exact ⟨q, ((hmem q).mpr hq).1, ((hmem q).mpr hq).2, hlive, hn⟩
    · rintro ⟨q, hq, hoff, hlive, hn⟩
      exact ⟨q, (hmem q).mp ⟨hq, hoff⟩, hlive, hn⟩
  rw [Hides, hrecs]
  constructor
  · intro h p hp hlive
    rw [hfound]
    exact h p (mem_append_right _ (mem_cons_of_mem _ hp)) (hbehind hp) hlive
  · intro h p hp hoff hlive
    rw [← hfound]
    refine h p ?_ hlive
    rcases mem_append.mp hp with hp | hp
    · exact absurd (hchain.off_le hp) (by omega)
    · rcases mem_cons.mp hp with rfl | hp
      · omega
      · exact hp

/-- Every name but the new one has the inode it had, if and only if nothing was lost. -/
theorem lookup_written_iff {pre post : List Rec}
    (hnew : sb.lookupInDir d dirIno name = .error .notFound)
    (hrecs : records (w.blocks w.count) sb.blockSize = pre ++ r :: post)
    (hafter : ∀ n, n ≠ name → sb.lookupInDir d' dirIno n =
      answer ((sb.search w.blocks n w.count).or (findName (pre ++ [r]) n))) :
    (∀ n, n ≠ name → sb.lookupInDir d' dirIno n = sb.lookupInDir d dirIno n) ↔ w.Hides r := by
  have hbefore (n : List Byte) : sb.lookupInDir d dirIno n =
      answer ((sb.search w.blocks n w.count).or
        ((findName (pre ++ [r]) n).or (findName post n))) := by
    rw [w.lookup, search_succ, hrecs, ← findName_append, append_assoc, singleton_append]
  rw [w.hides_iff hrecs]
  constructor
  · intro hsame p hp hlive
    by_contra hlost
    push Not at hlost
    obtain ⟨hsearch, hfind⟩ := hlost
    have hne : p.name ≠ name := by
      intro heq
      have hnone := (w.absent hnew).2
      rw [hrecs, findName_eq_none_iff] at hnone
      exact hnone p (mem_append_right _ (mem_cons_of_mem _ hp)) hlive heq
    have heq := hsame p.name hne
    rw [hafter p.name hne, hbefore, hsearch, hfind, Option.none_or, Option.none_or,
      Option.none_or] at heq
    cases hpost : findName post p.name with
    | none => exact findName_eq_none_iff.mp hpost p hp hlive rfl
    | some q =>
      rw [hpost] at heq
      cases heq
  · intro hhides n hne
    rw [hafter n hne, hbefore]
    cases hsearch : sb.search w.blocks n w.count with
    | some q => rfl
    | none =>
      cases hfind : findName (pre ++ [r]) n with
      | some q => rfl
      | none =>
        cases hpost : findName post n with
        | none => rfl
        | some q =>
          obtain ⟨hq, hlive, rfl⟩ := findName_spec hpost
          rcases hhides q hq hlive with h | h
          · exact absurd hsearch h
          · exact absurd hfind h

end Directory

/-- Adding an entry keeps a directory exactly if no record that can still be seen stands behind
the record whose slack is taken: the new record reaches to the end of the block. -/
theorem addDirEntry_keeps {sb : SbInfo} {d : Device} {dirIno : Nat} (w : sb.Directory d dirIno)
    {name : List Byte} {childIno fileType : Nat}
    (hnew : sb.lookupInDir d dirIno name = .error .notFound)
    (hlive : childIno ≠ 0) (hchild : childIno < 2 ^ 32) :
    (∀ d', sb.addDirEntry dirIno name childIno fileType d = (.ok (), d') →
      sb.lookupInDir d' dirIno name = .ok childIno ∧
      (∀ n, n ≠ name → sb.lookupInDir d' dirIno n = sb.lookupInDir d dirIno n) ∧
      sb.Chained d' dirIno) ↔
    (name.length ≤ 255 → d.faults d.requests = false →
      ∀ r, insertSlot sb.blockSize (roundUp4 (8 + name.length))
        (records (w.blocks w.count) sb.blockSize) = some r → w.Hides r) := by
  -- What holds after the block was written is the same for every slot.
  have hslot (r : Rec) (hname : name.length ≤ 255)
      (h : insertSlot sb.blockSize (roundUp4 (8 + name.length))
        (records (w.blocks w.count) sb.blockSize) = some r) :
      let d' := sb.written d (w.phys w.count)
        (insertRecord (w.blocks w.count) sb.blockSize r name childIno fileType)
      (sb.lookupInDir d' dirIno name = .ok childIno ∧ sb.Chained d' dirIno) ∧
        ((∀ n, n ≠ name → sb.lookupInDir d' dirIno n = sb.lookupInDir d dirIno n) ↔
          w.Hides r) := by
    intro d'
    obtain ⟨⟨pre, post, hrecs⟩, hroom⟩ := insertSlot_spec h
    obtain ⟨hafter, hchained⟩ := w.lookup_written hrecs hroom hname hchild
    obtain ⟨hearlier, hlast⟩ := w.absent hnew
    refine ⟨⟨?_, hchained⟩, w.lookup_written_iff hnew hrecs fun n hne => ?_⟩
    · rw [hrecs, findName_eq_none_iff] at hlast
      have hpre : findName (pre ++ [{ r with recLen := r.used }]) name = none := by
        rw [findName_eq_none_iff]
        intro p hp
        rcases mem_append.mp hp with hp | hp
        · exact hlast p (mem_append_left _ hp)
        · rw [mem_singleton.mp hp]
          exact hlast r (mem_append_right _ mem_cons_self)
      rw [hafter, hearlier, Option.none_or, ← singleton_append, ← append_assoc,
        findName_append, hpre, Option.none_or]
      simp [findName, hlive, answer]
    · rw [hafter]
      refine answer_congr ?_
      cases sb.search w.blocks n w.count with
      | some q => rfl
      | none => exact findName_trim pre r.used (Ne.symm hne)
  constructor
  · intro h hname hfault r hr
    have hafter := h _ (w.addDirEntry_ok.mpr ⟨hname, hfault, r, hr, rfl⟩)
    exact (hslot r hname hr).2.mp hafter.2.1
  · intro h d' hadd
    obtain ⟨hname, hfault, r, hr, rfl⟩ := w.addDirEntry_ok.mp hadd
    obtain ⟨⟨hfound, hchained⟩, hiff⟩ := hslot r hname hr
    exact ⟨hfound, hiff.mpr (h hname hfault r hr), hchained⟩

end SbInfo

section

def sampleRootInode : Inode where
  mode := 0x41ED
  size := 1024
  flags := EXT4_EXTENTS_FL
  nlink := 2
  iBlock i := if i < 60 then sampleDevice.bytes (5288 + i) else 0xAA

def sampleRootBlock : Bytes := fun i => if i < 1024 then sampleDevice.bytes (7168 + i) else 0xAA

theorem readInode_sampleRoot {d' : Device} (hcap : d'.capacitySectors = 32)
    (hsame : ∀ i, i < 3072 ∨ 4096 ≤ i → i < 6400 → d'.bytes i = sampleDevice.bytes i) :
    sampleVolume.readInode d' 2 = .ok sampleRootInode := by
  have hdesc : readBytes d' 2048 32 = readBytes sampleDevice 2048 32 :=
    readBytes_congr hcap fun i hi => hsame _ (by omega) (by omega)
  have hraw : readBytes d' 5248 128 = readBytes sampleDevice 5248 128 :=
    readBytes_congr hcap fun i hi => hsame _ (by omega) (by omega)
  have hoffset : sampleVolume.inodeOffset d' 2 = .ok 5248 := by
    show (readBytes d' 2048 32 >>= _) >>= _ = _
    rw [hdesc]
    decide +kernel
  show (sampleVolume.inodeOffset d' 2 >>= _) = _
  rw [hoffset]
  show (readBytes d' 5248 128 >>= _) = _
  rw [hraw, show readBytes sampleDevice 5248 128 = .ok fun i =>
    if i < 128 then sampleDevice.bytes (5248 + i) else 0xAA from if_pos (by decide)]
  refine congrArg Except.ok ?_
  rw [sampleRootInode, Inode.mk.injEq]
  refine ⟨by decide +kernel, by decide +kernel, by decide +kernel, by decide +kernel, ?_⟩
  funext i
  split
  · next hi =>
    show (if 40 + i < 128 then sampleDevice.bytes (5248 + (40 + i)) else 0xAA) = _
    rw [if_pos (by omega), ← add_assoc]
  · rfl

theorem mapBlock_sampleRoot (d' : Device) (lb : Nat) (hlb : lb ≤ 0) :
    sampleVolume.mapBlock d' sampleRootInode lb = .ok 7 := by
  cases Nat.le_zero.mp hlb
  have hflags : sampleRootInode.flags &&& EXT4_EXTENTS_FL ≠ 0 := by decide
  have hmagic : readInt16 sampleRootInode.iBlock 0 = EXT4_EXTENT_MAGIC := by decide +kernel
  have hdepth : readInt16 sampleRootInode.iBlock 6 = 0 := by decide +kernel
  have hfind :
      findExtent sampleRootInode.iBlock 60 0 (readInt16 sampleRootInode.iBlock 2) 0 = 7 := by
    decide +kernel
  unfold mapBlock
  simp only [hflags, hmagic, hdepth, if_false, ne_eq, not_true]
  exact congrArg Except.ok hfind

theorem records_sampleRootBlock :
    records sampleRootBlock 1024 =
      [⟨0, 2, 12, 2, [0x2E]⟩, ⟨12, 2, 1012, 2, [0x2E, 0x2E]⟩] := by
  decide +kernel

theorem chain_sampleRootBlock : ChainTo sampleRootBlock 1024 0 (records sampleRootBlock 1024) := by
  rw [records_sampleRootBlock]
  exact ⟨by decide +kernel, by decide +kernel, rfl⟩

theorem readBlock_sampleRoot : sampleVolume.readBlock sampleDevice 7 = .ok sampleRootBlock := by
  rw [readBlock, readBytes, if_pos (by decide)]
  rfl

/-- The root directory of a device that differs from the sample in the root's block alone. -/
def rootOn (d : Device) (hcap : d.capacitySectors = 32)
    (hsame : ∀ i, i < 6400 → d.bytes i = sampleDevice.bytes i) (block : Bytes)
    (hblock : sampleVolume.readBlock d 7 = .ok block)
    (hchain : ChainTo block 1024 0 (records block 1024)) : sampleVolume.Directory d 2 where
  inode := sampleRootInode
  count := 0
  phys _ := 7
  blocks _ := block
  readInode := readInode_sampleRoot hcap fun i _ hi => hsame i hi
  kind := rfl
  size := rfl
  mapBlock := mapBlock_sampleRoot d
  phys_ne _ _ := Nat.succ_ne_zero 6
  phys_inj _ _ h h' _ := (Nat.le_zero.mp h).trans (Nat.le_zero.mp h').symm
  readBlock _ _ := hblock
  chain _ _ := hchain
  apart _ d' _ hcap' hsame' :=
    ⟨readInode_sampleRoot (hcap'.trans hcap) fun i _ hi =>
      (hsame' i (.inl (hi.trans (by decide)))).trans (hsame i hi), mapBlock_sampleRoot d'⟩

def sampleRoot : sampleVolume.Directory sampleDevice 2 :=
  rootOn sampleDevice rfl (fun _ _ => rfl) sampleRootBlock readBlock_sampleRoot
    chain_sampleRootBlock

/-- In the empty root nothing stands behind the record of the parent. -/
theorem addDirEntry_keeps_sample :
    (∃ d', sampleVolume.addDirEntry 2 [0x61] 12 1 sampleDevice = (.ok (), d')) ∧
    ∀ d', sampleVolume.addDirEntry 2 [0x61] 12 1 sampleDevice = (.ok (), d') →
      sampleVolume.lookupInDir d' 2 [0x61] = .ok 12 ∧
      (∀ n, n ≠ [0x61] →
        sampleVolume.lookupInDir d' 2 n = sampleVolume.lookupInDir sampleDevice 2 n) ∧
      sampleVolume.Chained d' 2 := by
  have hslot : insertSlot 1024 12 (records sampleRootBlock 1024) =
      some ⟨12, 2, 1012, 2, [0x2E, 0x2E]⟩ := by
    decide +kernel
  constructor
  · exact ⟨_, sampleRoot.addDirEntry_ok.mpr ⟨by decide, rfl, _, hslot, rfl⟩⟩
  · refine (addDirEntry_keeps sampleRoot (by decide +kernel) (by decide)
      (by decide)).mpr fun _ _ r hr => ?_
    cases hslot.symm.trans hr
    intro p hp hoff
    rw [show records (sampleRoot.blocks sampleRoot.count) sampleVolume.blockSize = _ from
      records_sampleRootBlock] at hp
    simp only [mem_cons, not_mem_nil, or_false] at hp
    rcases hp with rfl | rfl <;> simp at hoff

/-- The sample volume with a file `f` in its root and slack in the record before it. -/
def slackDevice : Device where
  bytes i :=
    let behind := [(7184, 32), (7185, 0), (7212, 11), (7216, 0xD4), (7217, 3), (7218, 1), (7219, 1),
      (7220, 0x66)]
    match behind.lookup i with
    | some b => BitVec.ofNat 8 b
    | none => sampleDevice.bytes i
  capacitySectors := 32
  faults _ := false
  requests := 0

/-- The new entry `n` takes that slack, and `f` is gone. -/
theorem slack_loses_file :
    mount slackDevice = .ok sampleVolume ∧
      sampleVolume.lookupInDir slackDevice 2 [0x66] = .ok 11 ∧
      sampleVolume.lookupInDir slackDevice 2 [0x6E] = .error .notFound ∧
      (sampleVolume.addDirEntry 2 [0x6E] 12 1 slackDevice).1 = .ok () ∧
      sampleVolume.lookupInDir (sampleVolume.addDirEntry 2 [0x6E] 12 1 slackDevice).2 2 [0x66] =
        .error .notFound := by
  refine ⟨?_, ?_, ?_, ?_, ?_⟩ <;> decide +kernel

end

end Innigkeit.Filesystem.Ext4

import Innigkeit.Filesystem.SimpleFs

/-!
When the files of the flat file system stay apart. A sector is owned by a file if
it lies in the run that the directory or an open handle gives to the file. Every
operation but `write` only gives sectors up; `write` takes the sectors up to the
end of what it writes, whoever owns them, and a new file begins where the runs
end that the directory knows. So the files stay apart if the sizes of all open
files are written before a file is created, and only the last file grows.
-/

namespace Innigkeit.Filesystem.SimpleFs

open Zig Function Transition List Option State System

/-! ### The fields of the directory -/

theorem get32_lt (buf : Bytes) (offset : ℕ) : get32 buf offset < 2 ^ 32 := by
  unfold get32
  omega

theorem get32_put32 (buf : Bytes) (offset : ℕ) {v : ℕ} (h : v < 2 ^ 32) :
    get32 (put32 buf offset v) offset = v := by
  simp only [get32, put32, Nat.reduceEqDiff, if_true, if_false, BitVec.toNat_ofNat,
    Nat.left_eq_add, Nat.add_eq_left, OfNat.ofNat_ne_zero, one_ne_zero]
  omega

variable {offset : ℕ}

theorem get32_congr {buf buf' : Bytes} (h : ∀ k, offset ≤ k → k < offset + 4 → buf' k = buf k) :
    get32 buf' offset = get32 buf offset := by
  unfold get32
  rw [h offset (by omega) (by omega), h (offset + 1) (by omega) (by omega),
    h (offset + 2) (by omega) (by omega), h (offset + 3) (by omega) (by omega)]

theorem get32_put32_of_disjoint (buf : Bytes) (offset : ℕ) {other : ℕ} (v : ℕ)
    (h : offset + 4 ≤ other ∨ other + 4 ≤ offset) :
    get32 (put32 buf other v) offset = get32 buf offset := by
  apply get32_congr
  intro k hlo hhi
  simp only [put32]
  rw [if_neg (by omega), if_neg (by omega), if_neg (by omega), if_neg (by omega)]

theorem get32_putName_of_disjoint (buf : Bytes) {other : ℕ} (name : List Byte)
    (h : offset + 4 ≤ other ∨ other + 16 ≤ offset) :
    get32 (putName buf other name) offset = get32 buf offset := by
  apply get32_congr
  intro k hlo hhi
  rw [putName, if_neg (by omega)]

structure Slot where
  inUse : Bool
  start : ℕ
  size : ℕ

def slot (dir : Bytes) (i : ℕ) : Slot := ⟨isInUse dir i, startSectorOf dir i, sizeOf dir i⟩

variable {dir : Bytes} {i size start idx n len sector : ℕ} {d d' : Disk} {e : Error} {s s' : State}
  {f f' : OpenFile} {name buf : List Byte}

theorem slot_congr {dir' : Bytes} (hi : i < maxEntries) (h : ∀ k < 512, dir' k = dir k) :
    slot dir' i = slot dir i := by
  unfold maxEntries at hi
  simp only [slot, isInUse, flagsOf, startSectorOf, sizeOf, entrySize]
  rw [get32_congr fun k _ hk => h k (by omega), get32_congr fun k _ hk => h k (by omega),
    get32_congr fun k _ hk => h k (by omega)]

theorem slot_setSize (dir : Bytes) (idx : ℕ) (hsize : size < 2 ^ 32) (i : ℕ) :
    slot (setSize dir idx size) i = if i = idx then { slot dir i with size } else slot dir i := by
  simp only [slot, isInUse, flagsOf, startSectorOf, sizeOf, setSize, entrySize]
  rw [get32_put32_of_disjoint dir (i * 32 + 24) size (by omega),
    get32_put32_of_disjoint dir (i * 32 + 20) size (by omega)]
  split
  next h =>
    subst h
    rw [get32_put32 dir _ hsize]
  next h => rw [get32_put32_of_disjoint dir (i * 32 + 16) size (by omega)]

theorem slot_setEntry_self (dir : Bytes) (idx : ℕ) (name : List Byte) {flags : ℕ}
    (hsize : size < 2 ^ 32) (hstart : start < 2 ^ 32) (hflags : flags < 2 ^ 32) :
    slot (setEntry dir idx name size start flags) idx = ⟨flags % 2 != 0, start, size⟩ := by
  simp only [slot, isInUse, flagsOf, startSectorOf, sizeOf, setEntry, entrySize]
  rw [get32_put32_of_disjoint _ (idx * 32 + 24) 0 (by omega), get32_put32 _ _ hflags,
    get32_put32_of_disjoint _ (idx * 32 + 20) 0 (by omega),
    get32_put32_of_disjoint _ (idx * 32 + 20) flags (by omega), get32_put32 _ _ hstart,
    get32_put32_of_disjoint _ (idx * 32 + 16) 0 (by omega),
    get32_put32_of_disjoint _ (idx * 32 + 16) flags (by omega),
    get32_put32_of_disjoint _ (idx * 32 + 16) start (by omega), get32_put32 _ _ hsize]

theorem slot_setEntry_of_ne (dir : Bytes) (hne : i ≠ idx) (name : List Byte)
    (size start flags : ℕ) : slot (setEntry dir idx name size start flags) i = slot dir i := by
  have hget (offset : ℕ) (h : offset + 4 ≤ idx * 32 ∨ idx * 32 + 32 ≤ offset) :
      get32 (setEntry dir idx name size start flags) offset = get32 dir offset := by
    simp only [setEntry, entrySize]
    rw [get32_put32_of_disjoint _ _ _ (by omega), get32_put32_of_disjoint _ _ _ (by omega),
      get32_put32_of_disjoint _ _ _ (by omega), get32_put32_of_disjoint _ _ _ (by omega),
      get32_putName_of_disjoint _ _ (by omega)]
  simp only [slot, isInUse, flagsOf, startSectorOf, sizeOf, entrySize]
  rw [hget _ (by omega), hget _ (by omega), hget _ (by omega)]

theorem highSector_fold (dir : Bytes) (slots : List ℕ) (high : ℕ) :
    high ≤ slots.foldl (fun high i =>
      if isInUse dir i then
        let fileEnd := startSectorOf dir i + sectorsOf (sizeOf dir i)
        if high < fileEnd then fileEnd else high
      else high) high ∧
    ∀ i ∈ slots, isInUse dir i = true →
      startSectorOf dir i + sectorsOf (sizeOf dir i) ≤ slots.foldl (fun high i =>
        if isInUse dir i then
          let fileEnd := startSectorOf dir i + sectorsOf (sizeOf dir i)
          if high < fileEnd then fileEnd else high
        else high) high := by
  induction slots generalizing high with
  | nil => exact ⟨le_rfl, by simp⟩
  | cons j slots ih =>
    rw [foldl_cons]
    dsimp only
    by_cases hj : isInUse dir j = true
    · simp only [hj, if_true]
      set next := if high < startSectorOf dir j + sectorsOf (sizeOf dir j) then
        startSectorOf dir j + sectorsOf (sizeOf dir j) else high with hnext
      have hle : high ≤ next ∧ startSectorOf dir j + sectorsOf (sizeOf dir j) ≤ next := by
        rw [hnext]
        split <;> omega
      obtain ⟨hfold, hrest⟩ := ih next
      refine ⟨hle.1.trans hfold, fun i hi hused => ?_⟩
      rcases mem_cons.mp hi with rfl | hi
      · exact hle.2.trans hfold
      · exact hrest i hi hused
    · simp only [hj]
      obtain ⟨hfold, hrest⟩ := ih high
      refine ⟨hfold, fun i hi hused => ?_⟩
      rcases mem_cons.mp hi with rfl | hi
      · exact absurd hused hj
      · exact hrest i hi hused

theorem le_highSector (dir : Bytes) : dataStartSector ≤ highSector dir :=
  (highSector_fold dir _ _).1

theorem end_le_highSector (dir : Bytes) (hi : i < maxEntries) (hused : isInUse dir i = true) :
    startSectorOf dir i + sectorsOf (sizeOf dir i) ≤ highSector dir :=
  (highSector_fold dir _ _).2 i (mem_range.mpr hi) hused

/-! ### What reading and writing the directory does to the disk -/

def dirOf (d : Disk) : Bytes := fun k => d.bytes (512 * dirSector + k)

variable {result : Except Error Bytes}

theorem readSector_bytes (h : d.readSector sector = (result, d')) : d'.bytes = d.bytes := by
  unfold Disk.readSector at h
  split at h <;> cases h <;> rfl

theorem readSector_ok {buf : Bytes} (h : d.readSector sector = (.ok buf, d')) (k : ℕ) :
    buf k = d.bytes (512 * sector + k) := by
  unfold Disk.readSector at h
  split at h <;> cases h
  rfl

theorem writeSector_error {buf : Bytes} (h : d.writeSector sector buf = (.error e, d')) :
    d'.bytes = d.bytes := by
  unfold Disk.writeSector at h
  split at h <;> cases h
  rfl

theorem writeSector_ok {buf : Bytes} (h : d.writeSector sector buf = (.ok (), d')) (i : ℕ) :
    d'.bytes i = if i / 512 = sector then buf (i % 512) else d.bytes i := by
  unfold Disk.writeSector at h
  split at h <;> cases h
  rfl

theorem readDirectory_cases (d : Disk) : ∃ d', d'.bytes = d.bytes ∧
    ((∃ e, readDirectory d = (.error e, d')) ∨ readDirectory d = (.ok (dirOf d), d')) := by
  unfold readDirectory
  split
  · cases h : d.readSector dirSector with
    | mk result d' =>
      refine ⟨d', readSector_bytes h, ?_⟩
      cases result with
      | error e => exact .inl ⟨e, rfl⟩
      | ok buf => exact .inr (by rw [show buf = dirOf d from funext (readSector_ok h)])
  · exact ⟨d, rfl, .inl ⟨_, rfl⟩⟩

theorem writeDirectory_cases (d : Disk) (dir : Bytes) :
    (∃ e d', writeDirectory d dir = (.error e, d') ∧ d'.bytes = d.bytes) ∨
      ∃ d', writeDirectory d dir = (.ok (), d') ∧ ∀ k < 512, dirOf d' k = dir k := by
  unfold writeDirectory
  split
  · cases h : d.writeSector dirSector dir with
    | mk result d' =>
      cases result with
      | error e => exact .inl ⟨e, d', rfl, writeSector_error h⟩
      | ok u =>
        refine .inr ⟨d', rfl, fun k hk => ?_⟩
        have hdiv : (512 * dirSector + k) / 512 = dirSector := by omega
        have hmod : (512 * dirSector + k) % 512 = k := by omega
        rw [dirOf, writeSector_ok h, if_pos hdiv, hmod]
  · exact .inl ⟨_, d, rfl, rfl⟩

/-! ### Owned sectors -/

/-- Somebody takes the file in the slot to have this size. -/
def HasSize (s : State) (i size : ℕ) : Prop :=
  size = (slot s.dir i).size ∨ ∃ h f, s.handles h = some f ∧ f.dirIdx = i ∧ f.size = size

/-- The sector lies in the run of the file in the slot. -/
def Owned (s : State) (i sector : ℕ) : Prop :=
  i < maxEntries ∧ (slot s.dir i).inUse = true ∧ ∃ size, HasSize s i size ∧
    (slot s.dir i).start ≤ sector ∧ sector < (slot s.dir i).start + sectorsOf size

/-- The runs of the files are disjoint and lie in the data area. -/
structure Separate (s : State) : Prop where
  inside : ∀ i sector, Owned s i sector → dataStartSector ≤ sector ∧ sector < dataEndSector
  disjoint : ∀ i j sector, Owned s i sector → Owned s j sector → i = j

/-- The handle agrees with the directory. -/
structure Bound (dir : Bytes) (f : OpenFile) : Prop where
  slot_lt : f.dirIdx < maxEntries
  slot_used : (slot dir f.dirIdx).inUse = true
  slot_start : (slot dir f.dirIdx).start = f.startSector
  size_lt : f.size < 2 ^ 32

structure Valid (s : State) : Prop where
  bound : ∀ n f, s.handles n = some f → Bound s.dir f
  start_le : ∀ i < maxEntries, (slot s.dir i).inUse = true → dataStartSector ≤ (slot s.dir i).start

variable {m : ℕ}

theorem sectorsOf_mono (h : m ≤ n) : sectorsOf m ≤ sectorsOf n := by
  unfold sectorsOf
  omega

/-- The file in a slot ends before the sector, whoever is asked for its size. -/
def EndsBefore (s : State) (i sector : ℕ) : Prop :=
  ∀ size, HasSize s i size → (slot s.dir i).start + sectorsOf size ≤ sector

/-- What every operation keeps: a file ends before the files that do not begin before it, and
before the end of the data area. -/
structure Kept (s : State) : Prop where
  valid : Valid s
  inside : ∀ i < maxEntries, (slot s.dir i).inUse = true → EndsBefore s i dataEndSector
  ordered : ∀ i < maxEntries, ∀ j < maxEntries, i ≠ j → (slot s.dir i).inUse = true →
    (slot s.dir j).inUse = true → (slot s.dir i).start ≤ (slot s.dir j).start →
      EndsBefore s i (slot s.dir j).start

theorem Kept.separate (h : Kept s) : Separate s where
  inside := by
    rintro i sector ⟨hi, hused, size, hsize, hlo, hhi⟩
    exact ⟨(h.valid.start_le i hi hused).trans hlo,
      hhi.trans_le (h.inside i hi hused size hsize)⟩
  disjoint := by
    rintro i j sector ⟨hi, hiused, isize, hisize, hilo, hihi⟩ ⟨hj, hjused, jsize, hjsize, hjlo, hjhi⟩
    by_contra hne
    rcases le_total (slot s.dir i).start (slot s.dir j).start with hle | hle
    · have hend := h.ordered i hi j hj hne hiused hjused hle isize hisize
      omega
    · have hend := h.ordered j hj i hi (Ne.symm hne) hjused hiused hle jsize hjsize
      omega

/-- The slots are as before, and nobody takes a file to be larger than somebody did before. -/
theorem Kept.of_slots (h : Kept s)
    (hslots : ∀ i < maxEntries, (slot s'.dir i).inUse = (slot s.dir i).inUse ∧
      (slot s'.dir i).start = (slot s.dir i).start)
    (hsizes : ∀ i < maxEntries, ∃ size, (slot s'.dir i).size ≤ size ∧ HasSize s i size)
    (hhandles : ∀ n f, s'.handles n = some f → s.handles n = some f ∨
      Bound s.dir f ∧ ∃ size, f.size ≤ size ∧ HasSize s f.dirIdx size) : Kept s' := by
  have hends (i : ℕ) (hi : i < maxEntries) {sector : ℕ} (hold : EndsBefore s i sector) :
      EndsBefore s' i sector := by
    intro size hsize
    obtain ⟨size', hle, hsize'⟩ : ∃ size', size ≤ size' ∧ HasSize s i size' := by
      rcases hsize with rfl | ⟨n, f, hf, rfl, rfl⟩
      · exact hsizes i hi
      · rcases hhandles n f hf with hf | ⟨-, hhas⟩
        · exact ⟨f.size, le_rfl, .inr ⟨n, f, hf, rfl, rfl⟩⟩
        · exact hhas
    have hmono := sectorsOf_mono hle
    have hend := hold size' hsize'
    rw [(hslots i hi).2]
    omega
  refine ⟨⟨fun n f hf => ?_, fun i hi hused => ?_⟩, fun i hi hused => ?_,
    fun i hi j hj hne hiused hjused hle => ?_⟩
  · obtain ⟨hlt, hused, hstart, hlt32⟩ := (hhandles n f hf).elim (h.valid.bound n f) And.left
    exact ⟨hlt, (hslots _ hlt).1.trans hused, (hslots _ hlt).2.trans hstart, hlt32⟩
  · rw [(hslots i hi).1] at hused
    exact (h.valid.start_le i hi hused).trans_eq (hslots i hi).2.symm
  · rw [(hslots i hi).1] at hused
    exact hends i hi (h.inside i hi hused)
  · rw [(hslots i hi).1] at hiused
    rw [(hslots j hj).1] at hjused
    rw [(hslots i hi).2, (hslots j hj).2] at hle
    rw [(hslots j hj).2]
    exact hends i hi (h.ordered i hi j hj hne hiused hjused hle)

/-- The directory is read and one size in it is replaced by a size the file had. -/
theorem Kept.setSize (h : Kept s) (hsize : size < 2 ^ 32)
    (hhas : ∃ size', size ≤ size' ∧ HasSize s idx size')
    (hdir : ∀ k < 512, dirOf d k = SimpleFs.setSize s.dir idx size k) :
    Kept { s with disk := d } := by
  have hslot (i : ℕ) (hi : i < maxEntries) : slot (dir { s with disk := d }) i =
      if i = idx then { slot s.dir i with size } else slot s.dir i :=
    (slot_congr hi hdir).trans (slot_setSize _ _ hsize i)
  refine h.of_slots (fun i hi => ?_) (fun i hi => ?_) fun _ _ => .inl
  · rw [hslot i hi]
    split <;> exact ⟨rfl, rfl⟩
  · rw [hslot i hi]
    split
    next hidx => exact hidx ▸ hhas
    next => exact ⟨_, le_rfl, .inl rfl⟩

theorem dir_of_bytes (hbytes : d.bytes = s.disk.bytes) :
    State.dir { s with disk := d } = s.dir := by
  funext k
  simp only [dir, hbytes]

theorem Kept.of_bytes (h : Kept s) (hbytes : d.bytes = s.disk.bytes) :
    Kept { s with disk := d } := by
  refine h.of_slots (fun i _ => ?_) (fun i _ => ⟨_, le_rfl, .inl ?_⟩) fun _ _ => .inl
  · rw [dir_of_bytes hbytes]
    exact ⟨rfl, rfl⟩
  · rw [dir_of_bytes hbytes]

theorem handle_cases {handles : ℕ → Option OpenFile} {g : OpenFile}
    (h : update handles n (some f) m = some g) : g = f ∨ handles m = some g := by
  rw [update_apply] at h
  split at h
  · cases h
    exact .inl rfl
  · exact .inr h

/-- A handle gets a file whose size is not larger than one it had. -/
theorem Kept.setHandle (h : Kept s) (n : ℕ) (hf : Bound s.dir f)
    (hhas : ∃ size, f.size ≤ size ∧ HasSize s f.dirIdx size) :
    Kept { s with handles := update s.handles n (some f) } := by
  refine h.of_slots (fun _ _ => ⟨rfl, rfl⟩) (fun _ _ => ⟨_, le_rfl, .inl rfl⟩) ?_
  intro m g hg
  rcases handle_cases hg with rfl | hg
  · exact .inr ⟨hf, hhas⟩
  · exact .inl hg

theorem Kept.dropHandle (h : Kept s) (n : ℕ) :
    Kept { s with handles := update s.handles n none } := by
  refine h.of_slots (fun _ _ => ⟨rfl, rfl⟩) (fun _ _ => ⟨_, le_rfl, .inl rfl⟩) ?_
  intro m g hg
  dsimp only at hg
  rw [update_apply] at hg
  split at hg
  · cases hg
  · exact .inl hg

/-- A new file begins where all other files end. -/
theorem Kept.setEntry (h : Kept s) (hfree : (slot s.dir idx).inUse = false)
    (hlo : dataStartSector ≤ start) (hhi : start ≤ dataEndSector)
    (hends : ∀ i < maxEntries, (slot s.dir i).inUse = true → EndsBefore s i start)
    (hdir : ∀ k < 512, dirOf d k = SimpleFs.setEntry s.dir idx name 0 start 1 k) :
    Kept { s with disk := d } := by
  unfold dataEndSector at hhi
  have hself (hidx : idx < maxEntries) : slot (dirOf d) idx = ⟨true, start, 0⟩ := by
    rw [slot_congr hidx hdir]
    exact slot_setEntry_self _ _ _ (by decide) (by omega) (by decide)
  have hother (i : ℕ) (hi : i < maxEntries) (hne : i ≠ idx) :
      slot (dirOf d) i = slot s.dir i := by
    rw [slot_congr hi hdir, slot_setEntry_of_ne _ hne]
  -- no handle is open on a slot that is not in use
  have hunused (n : ℕ) (f : OpenFile) (hf : s.handles n = some f) : f.dirIdx ≠ idx := by
    rintro rfl
    have hused := (h.valid.bound n f hf).slot_used
    rw [hfree] at hused
    cases hused
  -- the new file is empty, and the others are as before
  have hnew : idx < maxEntries → ∀ sector, start ≤ sector →
      EndsBefore { s with disk := d } idx sector := by
    intro hidx sector hle size hsize
    have hzero : size = 0 := by
      rcases hsize with hsize | ⟨n, f, hf, heq, -⟩
      · exact hsize.trans (congrArg Slot.size (hself hidx))
      · exact absurd heq (hunused n f hf)
    have hstart : (slot (dir { s with disk := d }) idx).start = start :=
      congrArg Slot.start (hself hidx)
    rw [hstart, hzero]
    exact hle
  have hold (i : ℕ) (hi : i < maxEntries) (hne : i ≠ idx) {sector : ℕ}
      (hend : EndsBefore s i sector) : EndsBefore { s with disk := d } i sector := by
    intro size hsize
    have hslot : slot (dir { s with disk := d }) i = slot s.dir i := hother i hi hne
    rw [hslot]
    exact hend size (hsize.imp_left (·.trans (congrArg Slot.size hslot)))
  refine ⟨⟨fun n f hf => ?_, fun i hi hused => ?_⟩, fun i hi hused => ?_,
    fun i hi j hj hne hiused hjused hle => ?_⟩
  · obtain ⟨hlt, hused, hstart, hlt32⟩ := h.valid.bound n f hf
    have hslot := hother _ hlt (hunused n f hf)
    exact ⟨hlt, (congrArg Slot.inUse hslot).trans hused, (congrArg Slot.start hslot).trans hstart,
      hlt32⟩
  · by_cases hne : i = idx
    · subst hne
      exact hlo.trans_eq (congrArg Slot.start (hself hi)).symm
    · have hslot := hother i hi hne
      exact (h.valid.start_le i hi ((congrArg Slot.inUse hslot).symm.trans hused)).trans_eq
        (congrArg Slot.start hslot).symm
  · by_cases hne : i = idx
    · subst hne
      exact hnew hi _ (by unfold dataEndSector; omega)
    · have hslot : slot (dir { s with disk := d }) i = slot s.dir i := hother i hi hne
      exact hold i hi hne (h.inside i hi (hslot ▸ hused))
  · by_cases hidx : i = idx
    · subst hidx
      have hstart : (slot (dir { s with disk := d }) i).start = start :=
        congrArg Slot.start (hself hi)
      exact hnew hi _ (hstart ▸ hle)
    · have hslot : slot (dir { s with disk := d }) i = slot s.dir i := hother i hi hidx
      rw [hslot] at hiused hle
      by_cases hjdx : j = idx
      · subst hjdx
        have hstart : (slot (dir { s with disk := d }) j).start = start :=
          congrArg Slot.start (hself hj)
        rw [hstart]
        exact hold i hi hidx (hends i hi hiused)
      · have hjslot : slot (dir { s with disk := d }) j = slot s.dir j := hother j hj hjdx
        rw [hjslot] at hjused hle ⊢
        exact hold i hi hidx (h.ordered i hi j hj hne hiused hjused hle)

/-! ### The operations -/

/-- How the file system has to be used: a file is created only while no open file is larger than
the directory says, and a write that takes more sectors than its handle knows of goes to the file
that begins last, up to the end of the data area. -/
def Careful (s : State) : Operation → Prop
  | .open _ name flags => flags.create = true → findEntry s.dir name = none →
      ∀ n f, s.handles n = some f → f.size ≤ sizeOf s.dir f.dirIdx
  | .write n buf => ∀ f, s.handles n = some f → f.writable = true → buf ≠ [] →
      sectorsOf f.size < sectorsOf (f.pos + buf.length) →
        f.startSector + sectorsOf (f.pos + buf.length) ≤ dataEndSector ∧
          ∀ j < maxEntries, isInUse s.dir j = true → j ≠ f.dirIdx →
            startSectorOf s.dir j < f.startSector
  | .read _ _ | .sync _ | .close _ => True

theorem findEntry_some (h : findEntry dir name = some idx) :
    idx < maxEntries ∧ (slot dir idx).inUse = true := by
  have hmem := mem_of_find?_eq_some h
  have hsome := find?_some h
  rw [Bool.and_eq_true] at hsome
  exact ⟨mem_range.mp hmem, hsome.1⟩

theorem findFreeSlot_some (h : findFreeSlot dir = some idx) :
    idx < maxEntries ∧ (slot dir idx).inUse = false := by
  have hmem := mem_of_find?_eq_some h
  have hsome := find?_some h
  rw [Bool.not_eq_true'] at hsome
  exact ⟨mem_range.mp hmem, hsome⟩

/-- Whatever an attempt to open a file for a handle returns, the files are kept apart. -/
structure Opens (s : State) (n : ℕ) (x : Except Error OpenFile × Disk) : Prop where
  failed : ∀ e d, x = (.error e, d) → Kept { s with disk := d }
  opened : ∀ f d, x = (.ok f, d) → Kept { disk := d, handles := update s.handles n (some f) }

theorem Opens.of_error (h : Kept { s with disk := d }) : Opens s n (.error e, d) := by
  constructor
  · rintro e' d' heq
    cases heq
    exact h
  · rintro f d' heq
    cases heq

theorem Opens.of_ok (h : Kept { disk := d, handles := update s.handles n (some f) }) :
    Opens s n (.ok f, d) := by
  constructor
  · rintro e d' heq
    cases heq
  · rintro f' d' heq
    cases heq
    exact h

theorem openExisting_opens (h : Kept s) (hbytes : d.bytes = s.disk.bytes) (n : ℕ)
    (hidx : idx < maxEntries) (hused : (slot s.dir idx).inUse = true) (flags : OpenFlags) :
    Opens s n (openExisting d s.dir idx flags) := by
  unfold openExisting
  cases htruncate : flags.truncate with
  | true =>
    simp only [if_true]
    obtain ⟨e, d', hwrite, hsame⟩ | ⟨d', hwrite, hdir⟩ :=
      writeDirectory_cases d (setSize s.dir idx 0)
    · rw [hwrite]
      exact .of_error (h.of_bytes (hsame.trans hbytes))
    · have hkept := h.setSize (d := d') (by decide) ⟨_, Nat.zero_le _, .inl rfl⟩ hdir
      have hslot : slot (dir { s with disk := d' }) idx = { slot s.dir idx with size := 0 } := by
        have hset := slot_congr hidx hdir
        rw [slot_setSize _ _ (by decide), if_pos rfl] at hset
        exact hset
      rw [hwrite]
      refine .of_ok (hkept.setHandle n ⟨hidx, ?_, ?_, Nat.two_pow_pos 32⟩
        ⟨_, Nat.zero_le _, .inl rfl⟩)
      · exact (congrArg Slot.inUse hslot).trans hused
      · exact congrArg Slot.start hslot
  | false =>
    have hdir := dir_of_bytes hbytes
    refine .of_ok ((h.of_bytes hbytes).setHandle n ⟨hidx, ?_, ?_, get32_lt ..⟩
      ⟨_, le_rfl, .inl ?_⟩)
    · rw [hdir]
      exact hused
    · rw [hdir]
      rfl
    · rw [hdir]
      rfl

theorem allocateSectors_ok (h : allocateSectors dir 0 = .ok start) :
    start = highSector dir ∧ start ≤ dataEndSector := by
  unfold allocateSectors at h
  split at h <;> cases h
  exact ⟨rfl, by omega⟩

/-- If no handle is ahead of the directory, it knows where the files end. -/
theorem endsBefore_highSector
    (hsynced : ∀ n f, s.handles n = some f → f.size ≤ sizeOf s.dir f.dirIdx)
    (hi : i < maxEntries) (hused : (slot s.dir i).inUse = true) :
    EndsBefore s i (highSector s.dir) := by
  have hend := end_le_highSector s.dir hi hused
  have hsize : ∀ size, HasSize s i size → size ≤ sizeOf s.dir i := by
    rintro size (rfl | ⟨n, f, hf, rfl, rfl⟩)
    · exact le_rfl
    · exact hsynced n f hf
  intro size hhas
  exact (Nat.add_le_add_left (sectorsOf_mono (hsize size hhas)) _).trans hend

section

variable (h : Kept s)
include h

theorem openNew_opens (hbytes : d.bytes = s.disk.bytes) (n : ℕ) (name : List Byte)
    (hsynced : ∀ n f, s.handles n = some f → f.size ≤ sizeOf s.dir f.dirIdx) :
    Opens s n (openNew d s.dir name) := by
  unfold openNew
  cases hslot : findFreeSlot s.dir with
  | none => exact .of_error (h.of_bytes hbytes)
  | some idx =>
    obtain ⟨hidx, hfree⟩ := findFreeSlot_some hslot
    cases hstart : allocateSectors s.dir 0 with
    | error e => exact .of_error (h.of_bytes hbytes)
    | ok start =>
      obtain ⟨rfl, hhi⟩ := allocateSectors_ok hstart
      dsimp only
      obtain ⟨e, d', hwrite, hsame⟩ | ⟨d', hwrite, hdir⟩ :=
        writeDirectory_cases d (setEntry s.dir idx name 0 (highSector s.dir) 1)
      · rw [hwrite]
        exact .of_error (h.of_bytes (hsame.trans hbytes))
      · have hkept := h.setEntry (d := d') hfree (le_highSector s.dir) hhi
          (fun i hi hused => endsBefore_highSector hsynced hi hused) hdir
        have hlt : highSector s.dir < 2 ^ 32 := hhi.trans_lt (by decide)
        have hnew : slot (dir { s with disk := d' }) idx = ⟨true, highSector s.dir, 0⟩ :=
          (slot_congr hidx hdir).trans
            (slot_setEntry_self _ _ _ (Nat.two_pow_pos 32) hlt (by decide))
        rw [hwrite]
        refine .of_ok (hkept.setHandle n ⟨hidx, ?_, ?_, Nat.two_pow_pos 32⟩
          ⟨_, Nat.zero_le _, .inl rfl⟩)
        · exact congrArg Slot.inUse hnew
        · exact congrArg Slot.start hnew

theorem open_opens (n : ℕ) (name : List Byte) (flags : OpenFlags)
    (hcareful : Careful s (.open n name flags)) : Opens s n («open» s.disk name flags) := by
  unfold «open»
  by_cases hname : name.length = 0 ∨ 15 < name.length
  · rw [if_pos hname]
    exact .of_error h
  · rw [if_neg hname]
    obtain ⟨d, hbytes, ⟨e, hread⟩ | hread⟩ := readDirectory_cases s.disk
    · rw [hread]
      exact .of_error (h.of_bytes hbytes)
    · rw [hread]
      cases hfind : findEntry (dirOf s.disk) name with
      | some idx =>
        obtain ⟨hidx, hused⟩ := findEntry_some hfind
        simp only [hfind]
        exact openExisting_opens h hbytes n hidx hused flags
      | none =>
        simp only [hfind]
        cases hcreate : flags.create with
        | true => exact openNew_opens h hbytes n name (hcareful hcreate hfind)
        | false => exact .of_error (h.of_bytes hbytes)

theorem open_kept {flags : OpenFlags} (hcareful : Careful s (.open n name flags))
    (hnext : next s (.open n name flags) = some s') : Kept s' := by
  have hopens := open_opens h n name flags hcareful
  simp only [next] at hnext
  cases hn : s.handles n with
  | some f => simp [hn] at hnext
  | none =>
    cases hopen : «open» s.disk name flags with
    | mk result d =>
      cases result with
      | error e =>
        simp only [hn, hopen, some.injEq] at hnext
        exact hnext ▸ hopens.failed e d hopen
      | ok f =>
        simp only [hn, hopen, some.injEq] at hnext
        exact hnext ▸ hopens.opened f d hopen

theorem read_kept (hnext : next s (.read n len) = some s') : Kept s' := by
  simp only [next] at hnext
  cases hn : s.handles n with
  | none => simp [hn] at hnext
  | some f =>
    simp only [hn, some.injEq] at hnext
    subst hnext
    have hread : (read s.disk f len).2.2.bytes = s.disk.bytes ∧
        ∃ pos, (read s.disk f len).2.1 = { f with pos } := by
      unfold read
      split
      · exact ⟨rfl, f.pos, rfl⟩
      · split
        · dsimp only
          split
          · exact ⟨rfl, _, rfl⟩
          · exact ⟨rfl, f.pos, rfl⟩
        · exact ⟨rfl, f.pos, rfl⟩
    obtain ⟨hbytes, pos, hfile⟩ := hread
    rw [hfile]
    have hkept := h.of_bytes hbytes
    have hbound := hkept.valid.bound n f hn
    exact hkept.setHandle n (f := { f with pos }) ⟨hbound.1, hbound.2, hbound.3, hbound.4⟩
      ⟨f.size, le_rfl, .inr ⟨n, f, hn, rfl, rfl⟩⟩

theorem sync_disk_kept (hn : s.handles n = some f) : Kept { s with disk := (sync s.disk f).2 } := by
  unfold sync
  obtain ⟨d, hbytes, ⟨e, hread⟩ | hread⟩ := readDirectory_cases s.disk
  · rw [hread]
    exact h.of_bytes hbytes
  rw [hread]
  dsimp only
  obtain ⟨e, d', hwrite, hsame⟩ | ⟨d', hwrite, hdir⟩ :=
    writeDirectory_cases d (setSize (dirOf s.disk) f.dirIdx f.size)
  · rw [hwrite]
    exact h.of_bytes (hsame.trans hbytes)
  · rw [hwrite]
    exact h.setSize (h.valid.bound n f hn).size_lt ⟨f.size, le_rfl, .inr ⟨n, f, hn, rfl, rfl⟩⟩ hdir

theorem sync_kept (hnext : next s (.sync n) = some s') : Kept s' := by
  simp only [next] at hnext
  cases hn : s.handles n with
  | none => simp [hn] at hnext
  | some f =>
    simp only [hn, some.injEq] at hnext
    exact hnext ▸ sync_disk_kept h hn

theorem close_kept (hnext : next s (.close n) = some s') : Kept s' := by
  simp only [next] at hnext
  cases hn : s.handles n with
  | none => simp [hn] at hnext
  | some f =>
    simp only [hn, some.injEq] at hnext
    subst hnext
    unfold close
    split
    · exact (sync_disk_kept h hn).dropHandle n
    · exact h.dropHandle n

end

/-! ### Writing -/

/-- What the write loop does to the handle and to the disk. -/
structure Wrote (d : Disk) (file : OpenFile) (len curByte : ℕ) (file' : OpenFile) (d' : Disk) :
    Prop where
  same_start : file'.startSector = file.startSector
  same_slot : file'.dirIdx = file.dirIdx
  pos_le : file'.pos ≤ file.pos + len
  size_le : file'.size ≤ max file.size (file.pos + len)
  size_lt : file.size < 2 ^ 32 → file'.size < 2 ^ 32
  outside : ∀ i, i < curByte ∨ curByte + len ≤ i → d'.bytes i = d.bytes i

theorem Wrote.refl (d : Disk) (file : OpenFile) (len curByte : ℕ) :
    Wrote d file len curByte file d :=
  ⟨rfl, rfl, Nat.le_add_right .., Nat.le_max_left .., fun h => h, fun _ _ => rfl⟩

theorem writeLoop_wrote {fuel : ℕ} {file file' : OpenFile} {curByte : ℕ}
    {result : Except Error Unit} (h : writeLoop fuel d file buf curByte = .ok (result, file', d')) :
    Wrote d file buf.length curByte file' d' := by
  induction fuel generalizing d file buf curByte with
  | zero =>
    cases h
    exact .refl ..
  | succ fuel ih =>
    simp only [writeLoop] at h
    by_cases hempty : buf = []
    · rw [if_pos hempty] at h
      cases h
      exact .refl ..
    rw [if_neg hempty] at h
    cases hread : d.readSector (curByte / 512) with
    | mk readResult d₁ =>
      have hbytes := readSector_bytes hread
      cases readResult with
      | error e =>
        simp only [hread, Except.ok.injEq, Prod.mk.injEq] at h
        obtain ⟨-, rfl, rfl⟩ := h
        exact { Wrote.refl d _ buf.length curByte with
          outside := fun i _ => congrFun hbytes i }
      | ok sectorBuf =>
        simp only [hread] at h
        split at h
        next e d₂ hwrite =>
          cases h
          have hsame := writeSector_error hwrite
          exact { Wrote.refl d _ buf.length curByte with
            outside := fun i _ => congrFun (hsame.trans hbytes) i }
        next d₂ hwrite =>
          split at h
          · cases h
          next pos hpos =>
            rw [add_eq_ok] at hpos
            obtain ⟨hlt, rfl⟩ := hpos
            have hrest := ih h
            have hlen : (buf.drop (min buf.length (512 - curByte % 512))).length +
                min buf.length (512 - curByte % 512) = buf.length := by
              rw [length_drop]
              omega
            generalize min buf.length (512 - curByte % 512) = copyLen at *
            obtain ⟨h1, h2, h3, h4, h5, h6⟩ := hrest
            refine ⟨h1, h2, ?_, ?_, fun hsize => h5 (max_lt hsize hlt), ?_⟩
            · dsimp only at h3
              omega
            · dsimp only at h4
              omega
            · intro i hi
              rw [h6 i (by omega), writeSector_ok hwrite i]
              split
              next hsector =>
                -- a byte of the sector outside of the part that was copied
                rw [if_neg (by omega), readSector_ok hread]
                congr 1
                omega
              next => exact congrFun hbytes i

theorem write_wrote {file file' : OpenFile} {result : Except Error ℕ}
    (h : write d file buf = .ok (result, file', d')) :
    file' = file ∧ d' = d ∨ file.writable = true ∧ buf ≠ [] ∧
      Wrote d file buf.length (512 * file.startSector + file.pos) file' d' := by
  unfold write at h
  by_cases hwritable : file.writable
  · simp only [hwritable, Bool.not_true, Bool.false_eq_true, if_false] at h
    by_cases hempty : buf.length = 0
    · rw [if_pos hempty] at h
      cases h
      exact .inl ⟨rfl, rfl⟩
    · rw [if_neg hempty] at h
      split at h
      · cases h
        exact .inl ⟨rfl, rfl⟩
      · obtain ⟨⟨loopResult, file₁, d₁⟩, hloop, hret⟩ := bind_eq_ok.mp h
        cases hret
        exact .inr ⟨hwritable, fun hnil => hempty (by rw [hnil]; rfl), writeLoop_wrote hloop⟩
  · simp only [hwritable, Bool.not_false, if_true] at h
    cases h
    exact .inl ⟨rfl, rfl⟩

/-- The sectors from the start of a file to the end of a write. -/
def needs (f : OpenFile) (len sector : ℕ) : Prop :=
  f.startSector ≤ sector ∧ sector < f.startSector + sectorsOf (f.pos + len)

/-- A write changes no byte that belongs to another file, and none outside of the data area. -/
def WriteConfined (s : State) : Prop :=
  ∀ n f buf s', Careful s (.write n buf) → s.handles n = some f →
    next s (.write n buf) = some s' → ∀ i, s'.disk.bytes i ≠ s.disk.bytes i →
      dataStartSector ≤ i / 512 ∧ i / 512 < dataEndSector ∧
        ∀ j, Owned s j (i / 512) → j = f.dirIdx

theorem Wrote.needs_of_changed (h : Wrote d f len (512 * f.startSector + f.pos) f' d')
    (hi : d'.bytes i ≠ d.bytes i) : needs f len (i / 512) := by
  have hin : 512 * f.startSector + f.pos ≤ i ∧ i < 512 * f.startSector + f.pos + len := by
    by_contra hout
    exact hi (h.outside i (by omega))
  unfold needs sectorsOf
  omega

theorem write_next (hn : s.handles n = some f) (hnext : next s (.write n buf) = some s') :
    ∃ result f' d', write s.disk f buf = .ok (result, f', d') ∧
      s' = { disk := d', handles := update s.handles n (some f') } := by
  simp only [next, hn] at hnext
  cases hwrite : write s.disk f buf with
  | error trap => simp [hwrite] at hnext
  | ok out =>
    obtain ⟨result, f', d'⟩ := out
    simp only [hwrite, some.injEq] at hnext
    exact ⟨result, f', d', rfl, hnext.symm⟩

/-- What a careful write needs lies in the data area, and before every file that does not begin
before the one it goes to. -/
theorem Kept.room (h : Kept s) (hcareful : Careful s (.write n buf)) (hn : s.handles n = some f)
    (hwritable : f.writable = true) (hbuf : buf ≠ []) :
    f.startSector + sectorsOf (f.pos + buf.length) ≤ dataEndSector ∧
      ∀ j < maxEntries, j ≠ f.dirIdx → (slot s.dir j).inUse = true →
        f.startSector ≤ (slot s.dir j).start →
          f.startSector + sectorsOf (f.pos + buf.length) ≤ (slot s.dir j).start := by
  obtain ⟨hlt, hused, hstart, -⟩ := h.valid.bound n f hn
  by_cases hgrows : sectorsOf f.size < sectorsOf (f.pos + buf.length)
  · obtain ⟨hend, hlast⟩ := hcareful f hn hwritable hbuf hgrows
    refine ⟨hend, fun j hj hne hjused hle => ?_⟩
    have hbefore : (slot s.dir j).start < f.startSector := hlast j hj hjused hne
    omega
  · have hsize : HasSize s f.dirIdx f.size := .inr ⟨n, f, hn, rfl, rfl⟩
    have hinside := h.inside f.dirIdx hlt hused f.size hsize
    refine ⟨by omega, fun j hj hne hjused hle => ?_⟩
    have hordered := h.ordered f.dirIdx hlt j hj (Ne.symm hne) hused hjused
      (hstart.le.trans hle) f.size hsize
    omega

theorem Kept.writeConfined (h : Kept s) : WriteConfined s := by
  intro n f buf s' hcareful hn hnext i hi
  obtain ⟨result, f', d', hwrite, rfl⟩ := write_next hn hnext
  rcases write_wrote hwrite with ⟨-, rfl⟩ | ⟨hwritable, hbuf, hwrote⟩
  · exact absurd rfl hi
  · obtain ⟨hlo, hhi⟩ := hwrote.needs_of_changed hi
    obtain ⟨hend, hother⟩ := h.room hcareful hn hwritable hbuf
    obtain ⟨hlt, hused, hsame, -⟩ := h.valid.bound n f hn
    have hstart := h.valid.start_le f.dirIdx hlt hused
    refine ⟨by omega, by omega, fun j hj => ?_⟩
    obtain ⟨hjlt, hjused, size, hsize, hjlo, hjhi⟩ := hj
    by_contra hne
    rcases le_total f.startSector (slot s.dir j).start with hle | hle
    · have hbefore := hother j hjlt hne hjused hle
      omega
    · have hbefore := h.ordered j hjlt f.dirIdx hlt hne hjused hused (hle.trans hsame.ge) size hsize
      omega

section

variable
  (hslot : ∀ i < maxEntries, slot (State.dir ⟨d', update s.handles n (some f')⟩) i = slot s.dir i)
  (hbound : Bound s.dir f) (hn : s.handles n = some f)
  (hwrote : Wrote s.disk f len (512 * f.startSector + f.pos) f' d')
include hslot hbound hn hwrote

/-- A file ends where it did before the write, or where the write ends. -/
theorem EndsBefore.wrote (hi : i < maxEntries) (h : EndsBefore s i sector)
    (hself : i = f.dirIdx → f.startSector + sectorsOf (f.pos + len) ≤ sector) :
    EndsBefore ⟨d', update s.handles n (some f')⟩ i sector := by
  intro size hsize
  rw [hslot i hi]
  rcases hsize with hsize | ⟨m, g, hg, rfl, rfl⟩
  · exact h size (.inl (hsize.trans (congrArg Slot.size (hslot i hi))))
  · rcases handle_cases hg with rfl | hg
    · have hold := h f.size (.inr ⟨n, f, hn, hwrote.same_slot.symm, rfl⟩)
      have hnew := hself hwrote.same_slot
      rw [hwrote.same_slot, hbound.slot_start] at hold ⊢
      rcases le_total f.size (f.pos + len) with hle | hle
      · have hmono := sectorsOf_mono (hwrote.size_le.trans_eq (max_eq_right hle))
        omega
      · have hmono := sectorsOf_mono (hwrote.size_le.trans_eq (max_eq_left hle))
        omega
    · exact h g.size (.inr ⟨m, g, hg, rfl, rfl⟩)

theorem Kept.grow (h : Kept s)
    (hend : f.startSector + sectorsOf (f.pos + len) ≤ dataEndSector)
    (hother : ∀ j < maxEntries, j ≠ f.dirIdx → (slot s.dir j).inUse = true →
      f.startSector ≤ (slot s.dir j).start →
        f.startSector + sectorsOf (f.pos + len) ≤ (slot s.dir j).start) :
    Kept ⟨d', update s.handles n (some f')⟩ := by
  refine ⟨⟨fun m g hg => ?_, fun i hi hused => ?_⟩, fun i hi hused => ?_,
    fun i hi j hj hne hiused hjused hle => ?_⟩
  · rcases handle_cases hg with rfl | hg
    · obtain ⟨hlt, hused, hsame, hsize⟩ := hbound
      rw [← hwrote.same_slot] at hlt hused hsame
      exact ⟨hlt, (congrArg Slot.inUse (hslot _ hlt)).trans hused,
        ((congrArg Slot.start (hslot _ hlt)).trans hsame).trans hwrote.same_start.symm,
        hwrote.size_lt hsize⟩
    · obtain ⟨hlt, hused, hsame, hsize⟩ := h.valid.bound m g hg
      exact ⟨hlt, (congrArg Slot.inUse (hslot _ hlt)).trans hused,
        (congrArg Slot.start (hslot _ hlt)).trans hsame, hsize⟩
  · rw [hslot i hi] at hused ⊢
    exact h.valid.start_le i hi hused
  · rw [hslot i hi] at hused
    exact (h.inside i hi hused).wrote hslot hbound hn hwrote hi fun _ => hend
  · rw [hslot i hi] at hiused hle
    rw [hslot j hj] at hjused hle ⊢
    refine (h.ordered i hi j hj hne hiused hjused hle).wrote hslot hbound hn hwrote hi ?_
    rintro rfl
    exact hother j hj (Ne.symm hne) hjused (hbound.slot_start.ge.trans hle)

end

theorem write_kept (h : Kept s) (hcareful : Careful s (.write n buf))
    (hnext : next s (.write n buf) = some s') : Kept s' := by
  cases hn : s.handles n with
  | none => simp [next, hn] at hnext
  | some f =>
    have hconfined := h.writeConfined n f buf s' hcareful hn hnext
    obtain ⟨result, f', d', hwrite, rfl⟩ := write_next hn hnext
    have hbound := h.valid.bound n f hn
    rcases write_wrote hwrite with ⟨rfl, rfl⟩ | ⟨hwritable, hbuf, hwrote⟩
    · exact h.setHandle n hbound ⟨f'.size, le_rfl, .inr ⟨n, f', hn, rfl, rfl⟩⟩
    -- the directory lies before the data area, so its slots are the same
    have hslot (i : ℕ) (hi : i < maxEntries) :
        slot (dir ⟨d', update s.handles n (some f')⟩) i = slot s.dir i := by
      apply slot_congr hi
      intro k hk
      by_contra hchanged
      have hlo := (hconfined _ hchanged).1
      simp only [dirSector, dataStartSector] at hlo
      omega
    obtain ⟨hend, hother⟩ := h.room hcareful hn hwritable hbuf
    exact h.grow hslot hbound hn hwrote hend hother

theorem next_kept (h : Kept s) {operation : Operation} (hcareful : Careful s operation)
    (hnext : next s operation = some s') : Kept s' := by
  cases operation with
  | «open» n name flags => exact open_kept h hcareful hnext
  | read n len => exact read_kept h hnext
  | write n buf => exact write_kept h hcareful hnext
  | sync n => exact sync_kept h hnext
  | close n => exact close_kept h hnext

theorem initial_kept (h : Initial s) : Kept s := by
  obtain ⟨hhandles, hunused⟩ := h
  have hnone (i : ℕ) (hi : i < maxEntries) : (slot s.dir i).inUse ≠ true := by
    have hfree : (slot s.dir i).inUse = false := hunused i hi
    simp [hfree]
  refine ⟨⟨fun n f hf => ?_, fun i hi hused => absurd hused (hnone i hi)⟩,
    fun i hi hused => absurd hused (hnone i hi),
    fun i hi _ _ _ hused => absurd hused (hnone i hi)⟩
  rw [hhandles n] at hf
  cases hf

theorem reachable_kept (h : system.Reachable Careful s) : Kept s :=
  h.invariant (fun _ => initial_kept) fun _ _ _ hk hcareful hnext => next_kept hk hcareful hnext

/-- In careful use, the files stay apart and no write leaves its file. -/
theorem files_separate (s : State) (h : system.Reachable Careful s) :
    Separate s ∧ WriteConfined s := by
  have hk := reachable_kept h
  exact ⟨hk.separate, hk.writeConfined⟩

def blank : State := { disk := { bytes := fun _ => 0, capacitySectors := 1024 } }

theorem blank_initial : Initial blank := by
  refine ⟨fun _ => rfl, fun i _ => ?_⟩
  simp [blank, isInUse, flagsOf, get32, dir]

/-- The condition for one open handle, which a run can be checked for. -/
theorem careful_write (hn : s.handles n = some f)
    (hend : f.startSector + sectorsOf (f.pos + buf.length) ≤ dataEndSector)
    (hlast : (List.range maxEntries).all (fun j =>
      !isInUse s.dir j || j == f.dirIdx || startSectorOf s.dir j < f.startSector) = true) :
    Careful s (.write n buf) := by
  intro g hg _ _ _
  rw [hn, some.injEq] at hg
  subst hg
  refine ⟨hend, fun j hj hused hne => ?_⟩
  have hj' := List.all_eq_true.mp hlast j (mem_range.mpr hj)
  simpa [hused, hne] using hj'

def Operation.handle : Operation → ℕ
  | .open handle _ _ | .read handle _ | .write handle _ | .sync handle | .close handle => handle

theorem next_handles_of_ne {operation : Operation} (hnext : next s operation = some s')
    (hne : m ≠ operation.handle) : s'.handles m = s.handles m := by
  cases operation with
  | «open» n name flags =>
    simp only [next] at hnext
    split at hnext <;> cases hnext
    · rfl
    · exact update_of_ne hne ..
  | read n len | write n buf | close n =>
    simp only [next] at hnext
    split at hnext
    · cases hnext
    · first
      | cases hnext
        exact update_of_ne hne ..
      | split at hnext <;> cases hnext
        exact update_of_ne hne ..
  | sync n =>
    simp only [next] at hnext
    split at hnext <;> cases hnext
    rfl

/-- The second file is created after the size of the first has been written, and then grows. -/
theorem files_separate_synced : ∃ s, system.Reachable Careful s ∧ (slot s.dir 1).start = 3 ∧
    s.disk.bytes 1024 = 1 ∧ s.disk.bytes 1536 = 4 ∧ Separate s ∧ WriteConfined s := by
  let first : List Operation := [.open 0 [97] { create := true }]
  let synced : List Operation := first ++ [.write 0 [1, 2, 3], .sync 0]
  let both : List Operation := synced ++ [.open 1 [98] { create := true }]
  have hrun : (runNext next blank (both ++ [.write 1 [4]])).map (fun s =>
      ((slot s.dir 1).start, s.disk.bytes 1024, s.disk.bytes 1536)) = some (3, 1, 4) := by
    decide +kernel
  have hfirst : (runNext next blank first).map (fun s => (s.handles 0,
      (List.range maxEntries).all fun j =>
        !isInUse s.dir j || j == 0 || startSectorOf s.dir j < 2)) =
      some (some { startSector := 2, size := 0, dirIdx := 0, writable := true }, true) := by
    decide +kernel
  have hsynced : (runNext next blank synced).map (fun s =>
      ((s.handles 0).map fun f => (f.size, f.dirIdx), sizeOf s.dir 0)) =
      some (some (3, 0), 3) := by
    decide +kernel
  have hboth : (runNext next blank both).map (fun s => (s.handles 1,
      (List.range maxEntries).all fun j =>
        !isInUse s.dir j || j == 1 || startSectorOf s.dir j < 3)) =
      some (some { startSector := 3, size := 0, dirIdx := 1, writable := true }, true) := by
    decide +kernel
  obtain ⟨s, hs, hstate⟩ := map_eq_some_iff.mp hrun
  simp only [both, synced, first, cons_append, nil_append, runNext, bind_eq_some_iff] at hs
  obtain ⟨s₁, h₁, s₂, h₂, s₃, h₃, s₄, h₄, s₅, h₅, hlast⟩ := hs
  cases hlast
  simp only [both, synced, first, cons_append, nil_append, runNext, bind_some, h₁, h₂, h₃, h₄,
    map_some, some.injEq, Prod.mk.injEq] at hfirst hsynced hboth hstate
  have hr₁ : system.Reachable Careful s₁ :=
    .step (l := .open 0 [97] { create := true }) (.init blank_initial)
      (fun _ _ n f hf => by cases hf) h₁
  have hr₂ : system.Reachable Careful s₂ :=
    .step hr₁ (careful_write hfirst.1 (by decide) hfirst.2) h₂
  have hr₃ : system.Reachable Careful s₃ := .step (l := .sync 0) hr₂ trivial h₃
  have hall : Careful s₃ (.open 1 [98] { create := true }) := by
    intro _ _ n f hf
    by_cases hn : n = 0
    · subst hn
      rw [hf, map_some, some.injEq, Prod.mk.injEq] at hsynced
      rw [hsynced.1.1, hsynced.1.2, hsynced.2]
    · rw [next_handles_of_ne h₃ hn, next_handles_of_ne h₂ hn, next_handles_of_ne h₁ hn] at hf
      cases hf
  have hr₄ : system.Reachable Careful s₄ := .step hr₃ hall h₄
  have hr : system.Reachable Careful s :=
    .step hr₄ (careful_write hboth.1 (by decide) hboth.2) h₅
  exact ⟨s, hr, hstate.1, hstate.2.1, hstate.2.2, files_separate s hr⟩

/-- The file in a slot, with the size that a handle gives it. -/
def ownedBy (s : State) (n i : ℕ) : Bool :=
  isInUse s.dir i && startSectorOf s.dir i == 2 &&
    (s.handles n).map (fun f => (f.dirIdx, f.size)) == some (i, 1)

theorem owned_of_ownedBy (hi : i < maxEntries) (h : ownedBy s n i = true) : Owned s i 2 := by
  simp only [ownedBy, Bool.and_eq_true, beq_iff_eq] at h
  obtain ⟨⟨hused, hstart⟩, hhandle⟩ := h
  obtain ⟨f, hf, heq⟩ := map_eq_some_iff.mp hhandle
  rw [Prod.mk.injEq] at heq
  have hslot : (slot s.dir i).start = 2 := hstart
  refine ⟨hi, hused, 1, .inr ⟨n, f, hf, heq.1, heq.2⟩, hslot.le, ?_⟩
  rw [hslot]
  decide

/-- Two files that are created before a size is written share their first sector, and the second
write replaces the byte of the first file. -/
theorem files_overlap : ∃ s, system.Reachable anyStep s ∧ Owned s 0 2 ∧ Owned s 1 2 ∧
    s.disk.bytes 1024 = 2 ∧ ¬ Separate s := by
  have hrun : (runNext next blank [.open 0 [97] { create := true },
      .open 1 [98] { create := true }, .write 0 [1], .write 1 [2]]).map (fun s =>
        (s.disk.bytes 1024, ownedBy s 0 0, ownedBy s 1 1)) = some (2, true, true) := by
    decide +kernel
  obtain ⟨s, hs, h⟩ := map_eq_some_iff.mp hrun
  simp only [Prod.mk.injEq] at h
  obtain ⟨hbyte, hfirst, hsecond⟩ := h
  have hr : system.Reachable anyStep s := runNext_reachable _ (.init blank_initial) hs
  have h₀ := owned_of_ownedBy (by decide) hfirst
  have h₁ := owned_of_ownedBy (by decide) hsecond
  refine ⟨s, hr, h₀, h₁, hbyte, fun hsep => ?_⟩
  cases hsep.disjoint 0 1 2 h₀ h₁

end Innigkeit.Filesystem.SimpleFs

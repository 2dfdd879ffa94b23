import Innigkeit.Crypto.Xts
import Innigkeit.Zig.Checked

/-!
The encrypted volume under the cipher hooks of the block driver. The backing
device is an array of sectors that answers every request in range. Logical sector
`lba` is backing sector `lba + data_start_lba`, encrypted under its backing
number; the header sector lies before all of them. Reading and writing through
the hooks is reading and writing a plain disk.
-/

namespace Innigkeit.Crypto

open Zig Function List

inductive DeviceError where
  | outOfRange
  deriving DecidableEq, Repr

/-- The backing device. Its size is a `u64`. -/
structure Device where
  sectors : ℕ → Sector
  capacitySectors : ℕ
  capacity_lt : capacitySectors < 2 ^ 64

def Device.inRange (d : Device) (lba count : ℕ) : Prop :=
  lba ≤ d.capacitySectors ∧ count ≤ d.capacitySectors - lba
  deriving Decidable

def readSectorsRaw (d : Device) (lba count : ℕ) : Except DeviceError (List Sector) :=
  if count = 0 ∨ 8 < count then .error .outOfRange
  else if d.inRange lba count then .ok ((range count).map fun i => d.sectors (lba + i))
  else .error .outOfRange

def Device.put (d : Device) (lba : ℕ) (sector : Sector) : Device :=
  { d with sectors := update d.sectors lba sector }

def writeSectorRaw (d : Device) (lba : ℕ) (sector : Sector) : Except DeviceError Device :=
  if d.inRange lba 1 then .ok (d.put lba sector)
  else .error .outOfRange

/-! ### The encrypted block device -/

structure Volume where
  backing : Device
  cipher : Xts

namespace Volume

def decryptLoop (cipher : Xts) (lba : ℕ) : ℕ → List Sector → Checked (List Sector)
  | _, [] => .ok []
  | i, sector :: rest => do
    let number ← add 64 lba i
    let decrypted ← decryptLoop cipher lba (i + 1) rest
    return cipher.decryptSector sector number :: decrypted

def readSectors (self : Volume) (lba count : ℕ) :
    Checked (Except DeviceError (List Sector)) :=
  match readSectorsRaw self.backing lba count with
  | .error e => .ok (.error e)
  | .ok sectors => .ok <$> decryptLoop self.cipher lba 0 sectors

/-- The loop of `writeSectors`, from sector `i` of the plaintext on. What was written before an
error stays written. -/
def writeLoop (cipher : Xts) (lba : ℕ) :
    ℕ → List Sector → Device → Checked (Except DeviceError Unit × Device)
  | _, [], d => .ok (.ok (), d)
  | i, sector :: rest, d => do
    let number ← add 64 lba i
    match writeSectorRaw d number (cipher.encryptSector sector number) with
    | .error e => return (.error e, d)
    | .ok d => writeLoop cipher lba (i + 1) rest d

def writeSectors (self : Volume) (lba : ℕ) (plaintext : List Sector) (count : ℕ) :
    Checked (Except DeviceError Unit × Volume) := do
  assert (count ≤ plaintext.length)
  let (result, backing) ← writeLoop self.cipher lba 0 (plaintext.take count) self.backing
  return (result, { self with backing })

/-! ### The hooks of the block driver -/

def headerLba : ℕ := 0
def dataStartLba : ℕ := 1

def cipherRead (self : Volume) (lba count : ℕ) : Checked (Except DeviceError (List Sector)) := do
  let start ← add 64 lba dataStartLba
  self.readSectors start count

def cipherWrite (self : Volume) (lba : ℕ) (buf : List Sector) (count : ℕ) :
    Checked (Except DeviceError Unit × Volume) := do
  let start ← add 64 lba dataStartLba
  self.writeSectors start buf count

end Volume

theorem neZero_blocks : NeZero 32 := ⟨by decide⟩

theorem neZero_bytes : NeZero 16 := ⟨by decide⟩

def Sector.byte (sector : Sector) (k : ℕ) : Byte :=
  sector (@Fin.ofNat 32 neZero_blocks (k / 16)) (@Fin.ofNat 16 neZero_bytes k)

def Sector.bytes (sector : Sector) : List Byte := (range 512).map (Sector.byte sector)

/-- The loop of `readBytes` with the cipher hooks registered: up to eight sectors a round. The
fuel is the number of rounds, of which each takes at least one byte. -/
def readBytesLoop (volume : Volume) :
    ℕ → ℕ → ℕ → Checked (Except DeviceError (List Byte))
  | 0, _, _ => .ok (.ok [])
  | fuel + 1, curByte, remaining =>
    if remaining = 0 then .ok (.ok [])
    else do
      let sector := curByte / 512
      let offInSector := curByte % 512
      let sectorsNeeded := min 8 ((offInSector + remaining + 511) / 512)
      match ← volume.cipherRead sector sectorsNeeded with
      | .error e => return .error e
      | .ok sectors =>
        let copyLen := min remaining (512 * sectorsNeeded - offInSector)
        let chunk := ((sectors.flatMap Sector.bytes).drop offInSector).take copyLen
        let curByte ← add 64 curByte copyLen
        let rest ← readBytesLoop volume fuel curByte (remaining - copyLen)
        return rest.map (chunk ++ ·)

def readBytes (volume : Volume) (byteOffset len : ℕ) : Checked (Except DeviceError (List Byte)) :=
  readBytesLoop volume len byteOffset len

/-! ### The plain disk -/

def Volume.plaintext (self : Volume) (lba : ℕ) : Sector :=
  self.cipher.decryptSector (self.backing.sectors (lba + Volume.dataStartLba))
    (lba + Volume.dataStartLba)

abbrev PlainDisk := ℕ → Sector

namespace PlainDisk

def write (disk : PlainDisk) (lba : ℕ) (buf : List Sector) : PlainDisk := fun n =>
  if lba ≤ n ∧ n < lba + buf.length then buf.getD (n - lba) (disk n) else disk n

def byte (disk : PlainDisk) (n : ℕ) : Byte := Sector.byte (disk (n / 512)) (n % 512)

end PlainDisk

/-! ### One request -/

namespace Volume

variable {lba count : ℕ}

theorem decryptLoop_eq (cipher : Xts) (f : ℕ → Sector) {i : ℕ} (h : lba + i + count ≤ 2 ^ 64) :
    decryptLoop cipher lba i ((range' i count).map f) =
      .ok ((range' i count).map fun j => cipher.decryptSector (f j) (lba + j)) := by
  induction count generalizing i with
  | zero => rfl
  | succ count ih =>
    have hnumber : lba + i < 2 ^ 64 := by omega
    simp only [range'_succ, map_cons, decryptLoop, add_of_lt hnumber,
      ih (i := i + 1) (by omega), ok_bind, pure_eq_ok]

theorem cipherRead_eq (self : Volume) (lba count : ℕ) (hcount : 0 < count ∧ count ≤ 8)
    (h : lba + dataStartLba + count ≤ self.backing.capacitySectors) :
    self.cipherRead lba count =
      .ok (.ok ((range count).map fun i => self.plaintext (lba + i))) := by
  have hcapacity := self.backing.capacity_lt
  have hstart : lba + dataStartLba < 2 ^ 64 := by omega
  have hrange : self.backing.inRange (lba + dataStartLba) count := ⟨by omega, by omega⟩
  have hraw : readSectorsRaw self.backing (lba + dataStartLba) count =
      .ok ((range count).map fun i => self.backing.sectors (lba + dataStartLba + i)) := by
    rw [readSectorsRaw, if_neg (by omega), if_pos hrange]
  simp only [cipherRead, add_of_lt hstart, ok_bind, readSectors, hraw, range_eq_range']
  rw [decryptLoop_eq _ _ (by omega)]
  simp only [plaintext, add_right_comm lba]
  rfl

theorem cipherRead_refused (self : Volume) (hcount : ¬ (0 < count ∧ count ≤ 8))
    (h : lba + dataStartLba ≤ self.backing.capacitySectors) :
    self.cipherRead lba count = .ok (.error .outOfRange) := by
  have hcapacity := self.backing.capacity_lt
  have hstart : lba + dataStartLba < 2 ^ 64 := by omega
  have hraw : readSectorsRaw self.backing (lba + dataStartLba) count = .error .outOfRange := by
    rw [readSectorsRaw, if_pos (by omega)]
  simp only [cipherRead, add_of_lt hstart, ok_bind, readSectors, hraw]

theorem writeLoop_eq (cipher : Xts) (lba i : ℕ) (buf : List Sector) (d : Device)
    (h : lba + i + buf.length ≤ d.capacitySectors) :
    ∃ d', writeLoop cipher lba i buf d = .ok (.ok (), d') ∧
      d'.capacitySectors = d.capacitySectors ∧ ∀ n, d'.sectors n =
        if lba + i ≤ n ∧ n < lba + i + buf.length then
          cipher.encryptSector (buf.getD (n - (lba + i)) (d.sectors n)) n
        else d.sectors n := by
  induction buf generalizing i d with
  | nil =>
    refine ⟨d, rfl, rfl, fun n => ?_⟩
    rw [length_nil, if_neg (by omega)]
  | cons sector rest ih =>
    rw [length_cons] at h
    have hcapacity := d.capacity_lt
    have hnumber : lba + i < 2 ^ 64 := by omega
    have hrange : d.inRange (lba + i) 1 := ⟨by omega, by omega⟩
    obtain ⟨d', hloop, hsize, hsectors⟩ := ih (i := i + 1)
      (d := d.put (lba + i) (cipher.encryptSector sector (lba + i)))
      (by dsimp only [Device.put]; omega)
    refine ⟨d', ?_, hsize, fun n => ?_⟩
    · simp only [writeLoop, add_of_lt hnumber, ok_bind, writeSectorRaw, if_pos hrange]
      exact hloop
    · simp only [hsectors n, length_cons, Device.put]
      by_cases hn : n = lba + i
      · subst hn
        rw [if_neg (by omega), if_pos (by omega), Nat.sub_self, getD_cons_zero, update_self]
      · by_cases hin : lba + (i + 1) ≤ n ∧ n < lba + (i + 1) + rest.length
        · have hsucc : n - (lba + i) = n - (lba + (i + 1)) + 1 := by omega
          rw [if_pos hin, if_pos (by omega), hsucc, getD_cons_succ, update_of_ne hn]
        · rw [if_neg hin, if_neg (by omega), update_of_ne hn]

variable {buf : List Sector}

theorem cipherWrite_eq (self : Volume)
    (hbuf : count ≤ buf.length) (h : lba + dataStartLba + count ≤ self.backing.capacitySectors) :
    ∃ backing, self.cipherWrite lba buf count = .ok (.ok (), { self with backing }) ∧
      backing.capacitySectors = self.backing.capacitySectors ∧ ∀ n, backing.sectors n =
        if lba + dataStartLba ≤ n ∧ n < lba + dataStartLba + count then
          self.cipher.encryptSector
            (buf.getD (n - (lba + dataStartLba)) (self.backing.sectors n)) n
        else self.backing.sectors n := by
  have hcapacity := self.backing.capacity_lt
  have hstart : lba + dataStartLba < 2 ^ 64 := by omega
  have htake : (buf.take count).length = count := by
    rw [length_take]
    omega
  obtain ⟨backing, hloop, hsize, hsectors⟩ := writeLoop_eq self.cipher (lba + dataStartLba) 0
    (buf.take count) self.backing (by omega)
  refine ⟨backing, ?_, hsize, fun n => ?_⟩
  · have hassert : assert (count ≤ buf.length) = .ok () := assert_eq_ok.mpr hbuf
    simp only [cipherWrite, add_of_lt hstart, ok_bind, writeSectors, hassert, hloop, pure_eq_ok]
  · rw [hsectors n, htake, add_zero]
    split
    next hin =>
      congr 1
      rw [getD_eq_getElem?_getD, getD_eq_getElem?_getD, getElem?_take, if_pos (by omega)]
    next => rfl

theorem plaintext_write {self : Volume} {backing : Device} (hbuf : count ≤ buf.length)
    (h : ∀ n, backing.sectors n =
      if lba + dataStartLba ≤ n ∧ n < lba + dataStartLba + count then
        self.cipher.encryptSector (buf.getD (n - (lba + dataStartLba)) (self.backing.sectors n)) n
      else self.backing.sectors n) :
    plaintext { self with backing } = PlainDisk.write self.plaintext lba (buf.take count) := by
  have htake : (buf.take count).length = count := by
    rw [length_take]
    omega
  funext n
  simp only [plaintext, PlainDisk.write, h, htake]
  by_cases hin : lba ≤ n ∧ n < lba + count
  · have hsub : n + dataStartLba - (lba + dataStartLba) = n - lba := by omega
    have hlt : n - lba < buf.length := by omega
    rw [if_pos (by omega), if_pos hin, Xts.decrypt_encrypt, hsub, getD_eq_getElem?_getD,
      getD_eq_getElem?_getD, getElem?_take, if_pos (by omega),
      getElem?_eq_getElem hlt, Option.getD_some, Option.getD_some]
  · rw [if_neg (by omega), if_neg hin]

end Volume

/-! ### Bytes -/

variable {α : Type}

theorem flatMap_rows (g : ℕ → ℕ → α) {m : ℕ} (hm : 0 < m) (count : ℕ) :
    ((range count).flatMap fun i => (range m).map (g i)) =
      (range (m * count)).map fun k => g (k / m) (k % m) := by
  induction count with
  | zero => rfl
  | succ count ih =>
    rw [range_succ, flatMap_append, ih, Nat.mul_succ, range_add, map_append,
      flatMap_singleton, map_map]
    congr 1
    apply map_congr_left
    intro k hk
    rw [mem_range] at hk
    simp only [Function.comp, Nat.mul_add_div hm, Nat.div_eq_of_lt hk, add_zero,
      Nat.mul_add_mod, Nat.mod_eq_of_lt hk]

theorem PlainDisk.bytes_eq (disk : PlainDisk) (sector count : ℕ) :
    ((range count).map fun i => disk (sector + i)).flatMap Sector.bytes =
      (range (512 * count)).map fun k => disk.byte (512 * sector + k) := by
  rw [flatMap_map]
  refine (flatMap_rows (fun i => Sector.byte (disk (sector + i))) (by decide) count).trans ?_
  apply map_congr_left
  intro k _
  have hdiv : (512 * sector + k) / 512 = sector + k / 512 := by omega
  have hmod : (512 * sector + k) % 512 = k % 512 := by omega
  rw [PlainDisk.byte, hdiv, hmod]

theorem drop_take_range (f : ℕ → α) {n off len : ℕ} (h : off + len ≤ n) :
    (((range n).map f).drop off).take len = (range len).map fun k => f (off + k) := by
  apply ext_getElem
  · simp only [length_take, length_drop, length_map, length_range]
    omega
  · intro k hk hk'
    simp only [getElem_take, getElem_drop, getElem_map, getElem_range]

theorem readBytesLoop_eq (volume : Volume) {fuel : ℕ} (curByte remaining : ℕ)
    (hfuel : remaining ≤ fuel)
    (h : curByte + remaining + 512 ≤ 512 * volume.backing.capacitySectors)
    (hlt : curByte + remaining < 2 ^ 64) :
    readBytesLoop volume fuel curByte remaining =
      .ok (.ok ((range remaining).map fun k =>
        PlainDisk.byte volume.plaintext (curByte + k))) := by
  induction fuel generalizing curByte remaining with
  | zero =>
    obtain rfl : remaining = 0 := by omega
    rfl
  | succ fuel ih =>
    rw [readBytesLoop]
    by_cases hzero : remaining = 0
    · subst hzero
      rfl
    rw [if_neg hzero]
    dsimp only
    generalize hneeded : min 8 ((curByte % 512 + remaining + 511) / 512) = needed
    generalize hcopy : min remaining (512 * needed - curByte % 512) = copyLen
    have hread := volume.cipherRead_eq (curByte / 512) needed (by omega)
      (by unfold Volume.dataStartLba; omega)
    have hadd : curByte + copyLen < 2 ^ 64 := by omega
    have hrest := ih (curByte + copyLen) (remaining - copyLen)
      (by omega) (by omega) (by omega)
    simp only [hread, ok_bind, add_of_lt hadd, hrest, pure_eq_ok, Except.map, PlainDisk.bytes_eq]
    rw [drop_take_range _ (by omega)]
    congr 2
    have hsplit : remaining = copyLen + (remaining - copyLen) := by omega
    conv_rhs => rw [hsplit, range_add, map_append, map_map]
    have hbase : 512 * (curByte / 512) + curByte % 512 = curByte := Nat.div_add_mod ..
    congr 1
    · apply map_congr_left
      intro k _
      rw [← add_assoc, hbase]
    · apply map_congr_left
      intro k _
      simp only [Function.comp, add_assoc]

/-! ### Sequences of requests -/

inductive Request where
  | read (lba count : ℕ)
  | write (lba : ℕ) (buf : List Sector) (count : ℕ)
  | readBytes (byteOffset len : ℕ)

inductive Reply where
  | sectors (result : Except DeviceError (List Sector))
  | written (result : Except DeviceError Unit)
  | bytes (result : Except DeviceError (List Byte))

/-- A request for logical sectors of a device with a header sector, and for a write a buffer that
is long enough. -/
def Request.Within (capacity : ℕ) : Request → Prop
  | .read lba count => lba + Volume.dataStartLba + count ≤ capacity
  | .write lba buf count => lba + Volume.dataStartLba + count ≤ capacity ∧ count ≤ buf.length
  | .readBytes byteOffset len =>
    byteOffset + len + 512 * Volume.dataStartLba ≤ 512 * capacity ∧ byteOffset + len < 2 ^ 64

def Request.Writes (n : ℕ) : Request → Prop
  | .write lba _ count => lba ≤ n ∧ n < lba + count
  | .read _ _ | .readBytes _ _ => False

def Volume.serve (self : Volume) : Request → Checked (Reply × Volume)
  | .read lba count => do return (.sectors (← self.cipherRead lba count), self)
  | .write lba buf count => do
    let (result, volume) ← self.cipherWrite lba buf count
    return (.written result, volume)
  | .readBytes byteOffset len => do
    return (.bytes (← Crypto.readBytes self byteOffset len), self)

/-- The same request on a plain disk. A transfer of no sector, or of more than eight, is refused
when it is a read. -/
def PlainDisk.serve (disk : PlainDisk) : Request → Reply × PlainDisk
  | .read lba count =>
    if 0 < count ∧ count ≤ 8 then
      (.sectors (.ok ((range count).map fun i => disk (lba + i))), disk)
    else (.sectors (.error .outOfRange), disk)
  | .write lba buf count => (.written (.ok ()), disk.write lba (buf.take count))
  | .readBytes byteOffset len =>
    (.bytes (.ok ((range len).map fun k => disk.byte (byteOffset + k))), disk)

def Volume.run (self : Volume) : List Request → Checked (List Reply × Volume)
  | [] => .ok ([], self)
  | request :: requests => do
    let (reply, volume) ← self.serve request
    let (replies, volume) ← volume.run requests
    return (reply :: replies, volume)

def PlainDisk.run (disk : PlainDisk) : List Request → List Reply × PlainDisk
  | [] => ([], disk)
  | request :: requests =>
    let (reply, disk) := disk.serve request
    let (replies, disk) := PlainDisk.run disk requests
    (reply :: replies, disk)

/-- What the requests may change of the volume: nothing but the sectors that they write. -/
structure Volume.Confined (before after : Volume) (writes : ℕ → Prop) : Prop where
  same_size : after.backing.capacitySectors = before.backing.capacitySectors
  header : after.backing.sectors headerLba = before.backing.sectors headerLba
  others : ∀ n, ¬ writes n →
    after.backing.sectors (n + dataStartLba) = before.backing.sectors (n + dataStartLba)

theorem Volume.Confined.refl (self : Volume) (writes : ℕ → Prop) : self.Confined self writes :=
  ⟨rfl, rfl, fun _ _ => rfl⟩

theorem Volume.Confined.trans {v₁ v₂ v₃ : Volume} {writes writes' : ℕ → Prop}
    (h : v₁.Confined v₂ writes) (h' : v₂.Confined v₃ writes') :
    v₁.Confined v₃ fun n => writes n ∨ writes' n := by
  refine ⟨h'.same_size.trans h.same_size, h'.header.trans h.header, fun n hn => ?_⟩
  rw [not_or] at hn
  exact (h'.others n hn.2).trans (h.others n hn.1)

theorem Volume.serve_refines (self : Volume) {request : Request}
    (h : request.Within self.backing.capacitySectors) :
    ∃ reply volume, self.serve request = .ok (reply, volume) ∧
      PlainDisk.serve self.plaintext request = (reply, volume.plaintext) ∧
      self.Confined volume fun n => request.Writes n := by
  cases request with
  | read lba count =>
    by_cases hcount : 0 < count ∧ count ≤ 8
    · refine ⟨_, self, ?_, if_pos hcount, .refl ..⟩
      simp only [serve, self.cipherRead_eq _ _ hcount h, ok_bind, pure_eq_ok]
    · have hstart : lba + dataStartLba ≤ self.backing.capacitySectors :=
        (Nat.le_add_right ..).trans h
      refine ⟨_, self, ?_, if_neg hcount, .refl ..⟩
      simp only [serve, self.cipherRead_refused hcount hstart, ok_bind, pure_eq_ok]
  | write lba buf count =>
    obtain ⟨backing, hwrite, hsize, hsectors⟩ := self.cipherWrite_eq h.2 h.1
    refine ⟨.written (.ok ()), { self with backing }, ?_, ?_, hsize, ?_, fun n hn => ?_⟩
    · simp only [serve, hwrite, ok_bind, pure_eq_ok]
    · rw [plaintext_write h.2 hsectors]
      rfl
    · -- the header lies before every logical sector
      rw [hsectors, if_neg]
      unfold headerLba dataStartLba
      omega
    · rw [hsectors, if_neg]
      simp only [Request.Writes] at hn
      omega
  | readBytes byteOffset len =>
    refine ⟨_, self, ?_, rfl, .refl ..⟩
    have hread := readBytesLoop_eq self _ _ (Nat.le_refl len) h.1 h.2
    simp only [serve, readBytes, hread, ok_bind, pure_eq_ok]

/-- A volume serves every sequence of requests as the plain disk of its plaintext does. Of the
backing device only the sectors behind the written logical sectors change, and never the header. -/
theorem volume_refines_plain (self : Volume) (requests : List Request)
    (h : ∀ request ∈ requests, request.Within self.backing.capacitySectors) :
    ∃ replies volume, self.run requests = .ok (replies, volume) ∧
      PlainDisk.run self.plaintext requests = (replies, volume.plaintext) ∧
      self.Confined volume fun n => ∃ request ∈ requests, request.Writes n := by
  induction requests generalizing self with
  | nil => exact ⟨[], self, rfl, rfl, .refl ..⟩
  | cons request requests ih =>
    rw [forall_mem_cons] at h
    obtain ⟨reply, volume, hserve, hplain, hconfined⟩ := self.serve_refines h.1
    obtain ⟨replies, volume', hrun, hrest, hconfined'⟩ := ih volume fun r hr => by
      rw [hconfined.same_size]
      exact h.2 r hr
    refine ⟨reply :: replies, volume', ?_, ?_, ?_⟩
    · simp only [Volume.run, hserve, hrun, ok_bind, pure_eq_ok]
    · simp only [PlainDisk.run, hplain, hrest]
    · have hboth := hconfined.trans hconfined'
      simpa only [exists_mem_cons_iff] using hboth

theorem not_not_block (block : Block) : (fun k => ~~~(~~~block k)) = block := by
  funext k
  exact BitVec.not_not

/-- A cipher that is its own inverse. -/
def complementCipher : BlockCipher where
  encrypt block := fun k => ~~~block k
  decrypt block := fun k => ~~~block k
  decrypt_encrypt := not_not_block

theorem sixteen_lt : 16 < 2 ^ 64 := by decide

def blankVolume : Volume where
  backing := ⟨fun _ _ _ => 0, 16, sixteen_lt⟩
  cipher := ⟨complementCipher, complementCipher⟩

/-- A sector is written, read back, and read by bytes across its end. -/
theorem volume_refines_plain_written :
    ∃ replies volume, blankVolume.run [.write 3 [fun _ _ => 7] 1, .read 2 3, .readBytes 2000 600] =
        .ok (replies, volume) ∧
      PlainDisk.run blankVolume.plaintext
          [.write 3 [fun _ _ => 7] 1, .read 2 3, .readBytes 2000 600] =
        (replies, volume.plaintext) ∧
      blankVolume.Confined volume fun n =>
        ∃ request ∈ [Request.write 3 [fun _ _ => 7] 1, .read 2 3, .readBytes 2000 600],
          request.Writes n :=
  volume_refines_plain blankVolume _ (by
    simp [Request.Within, blankVolume, Volume.dataStartLba])

/-- Nine sectors lie in the device and are not read. -/
theorem nine_sectors_refused :
    Request.Within blankVolume.backing.capacitySectors (.read 0 9) ∧
      ∀ sectors volume, blankVolume.serve (.read 0 9) ≠ .ok (.sectors (.ok sectors), volume) := by
  refine ⟨by simp [Request.Within, blankVolume, Volume.dataStartLba], fun sectors volume h => ?_⟩
  have hstart : 0 + Volume.dataStartLba ≤ blankVolume.backing.capacitySectors := by
    simp [blankVolume, Volume.dataStartLba]
  rw [Volume.serve, blankVolume.cipherRead_refused (by decide) hstart] at h
  cases h

end Innigkeit.Crypto

import Innigkeit.Library.Transition
import Innigkeit.Zig.Checked

/-!
The flat file system on the data disk. Sector 1 is the directory of sixteen
entries; the data of a file is the run of sectors that begins at the entry's
start sector. An open file carries its own copy of the size, which reaches the
directory only with `sync` and `close`. The disk refuses requests behind its
end, and may refuse any other request too.
-/

namespace Innigkeit.Filesystem.SimpleFs

open Zig Function Transition

abbrev Byte := BitVec 8

abbrev Bytes := ℕ → Byte

def dirSector : ℕ := 1
def dataStartSector : ℕ := 2
def dataEndSector : ℕ := 512
def maxEntries : ℕ := 16
def entrySize : ℕ := 32

inductive Error where
  | invalidArgument
  | noDevice
  | ioError
  | notFound
  | noSpace
  | permissionDenied
  deriving DecidableEq, Repr

/-! ### The disk -/

/-- `faults` says which requests the device refuses, by their number. -/
structure Disk where
  bytes : Bytes
  capacitySectors : ℕ
  ready : Bool := true
  faults : ℕ → Bool := fun _ => false
  requests : ℕ := 0

namespace Disk

def submit (d : Disk) : Disk := { d with requests := d.requests + 1 }

def answers (d : Disk) (last : ℕ) : Bool := last ≤ d.capacitySectors && !d.faults d.requests

def readSector (d : Disk) (sector : ℕ) : Except Error Bytes × Disk :=
  if d.answers (sector + 1) then (.ok fun k => d.bytes (512 * sector + k), d.submit)
  else (.error .ioError, d.submit)

def writeSector (d : Disk) (sector : ℕ) (buf : Bytes) : Except Error Unit × Disk :=
  if d.answers (sector + 1) then
    (.ok (), { d.submit with
      bytes := fun i => if i / 512 = sector then buf (i % 512) else d.bytes i })
  else (.error .ioError, d.submit)

end Disk

/-! ### The directory sector -/

def get32 (buf : Bytes) (offset : ℕ) : ℕ :=
  (buf offset).toNat + 256 * (buf (offset + 1)).toNat + 65536 * (buf (offset + 2)).toNat +
    16777216 * (buf (offset + 3)).toNat

def put32 (buf : Bytes) (offset v : ℕ) : Bytes := fun k =>
  if k = offset then .ofNat 8 v
  else if k = offset + 1 then .ofNat 8 (v / 256)
  else if k = offset + 2 then .ofNat 8 (v / 65536)
  else if k = offset + 3 then .ofNat 8 (v / 16777216)
  else buf k

/-- Sixteen bytes: the name, filled up with zeros. -/
def putName (buf : Bytes) (offset : ℕ) (name : List Byte) : Bytes := fun k =>
  if offset ≤ k ∧ k < offset + 16 then name.getD (k - offset) 0 else buf k

def sizeOf (dir : Bytes) (i : ℕ) : ℕ := get32 dir (i * entrySize + 16)
def startSectorOf (dir : Bytes) (i : ℕ) : ℕ := get32 dir (i * entrySize + 20)
def flagsOf (dir : Bytes) (i : ℕ) : ℕ := get32 dir (i * entrySize + 24)

def isInUse (dir : Bytes) (i : ℕ) : Bool := flagsOf dir i % 2 != 0

def getName (dir : Bytes) (i : ℕ) : List Byte :=
  ((List.range 16).map fun k => dir (i * entrySize + k)).takeWhile (· ≠ 0)

def setSize (dir : Bytes) (i size : ℕ) : Bytes := put32 dir (i * entrySize + 16) size

/-- `entry.* = …` followed by the copy of the name. -/
def setEntry (dir : Bytes) (i : ℕ) (name : List Byte) (size start flags : ℕ) : Bytes :=
  put32 (put32 (put32 (put32 (putName dir (i * entrySize) name) (i * entrySize + 16) size)
    (i * entrySize + 20) start) (i * entrySize + 24) flags) (i * entrySize + 28) 0

def findEntry (dir : Bytes) (name : List Byte) : Option ℕ :=
  (List.range maxEntries).find? fun i => isInUse dir i && getName dir i == name

def findFreeSlot (dir : Bytes) : Option ℕ :=
  (List.range maxEntries).find? fun i => !isInUse dir i

def sectorsOf (size : ℕ) : ℕ := (size + 511) / 512

/-- The end of the last run that the directory knows. -/
def highSector (dir : Bytes) : ℕ :=
  (List.range maxEntries).foldl (fun high i =>
    if isInUse dir i then
      let fileEnd := startSectorOf dir i + sectorsOf (sizeOf dir i)
      if high < fileEnd then fileEnd else high
    else high) dataStartSector

def allocateSectors (dir : Bytes) (sectorCount : ℕ) : Except Error ℕ :=
  if dataEndSector < highSector dir + sectorCount then .error .noSpace else .ok (highSector dir)

def readDirectory (d : Disk) : Except Error Bytes × Disk :=
  if d.ready then d.readSector dirSector else (.error .noDevice, d)

def writeDirectory (d : Disk) (dir : Bytes) : Except Error Unit × Disk :=
  if d.ready then d.writeSector dirSector dir else (.error .noDevice, d)

/-! ### Operations on files -/

structure OpenFlags where
  create : Bool := false
  truncate : Bool := false
  deriving DecidableEq, Repr

structure OpenFile where
  startSector : ℕ
  size : ℕ
  pos : ℕ := 0
  dirIdx : ℕ
  writable : Bool
  deriving DecidableEq, Repr

def openExisting (d : Disk) (dir : Bytes) (idx : ℕ) (flags : OpenFlags) :
    Except Error OpenFile × Disk :=
  let file : OpenFile := {
    startSector := startSectorOf dir idx, size := sizeOf dir idx, dirIdx := idx
    writable := flags.create || flags.truncate }
  if flags.truncate then
    match writeDirectory d (setSize dir idx 0) with
    | (.error e, d) => (.error e, d)
    | (.ok (), d) => (.ok { file with size := 0 }, d)
  else (.ok file, d)

def openNew (d : Disk) (dir : Bytes) (name : List Byte) : Except Error OpenFile × Disk :=
  match findFreeSlot dir with
  | none => (.error .noSpace, d)
  | some freeIdx =>
    match allocateSectors dir 0 with
    | .error e => (.error e, d)
    | .ok start =>
      match writeDirectory d (setEntry dir freeIdx name 0 start 1) with
      | (.error e, d) => (.error e, d)
      | (.ok (), d) =>
        (.ok { startSector := start, size := 0, dirIdx := freeIdx, writable := true }, d)

def «open» (d : Disk) (name : List Byte) (flags : OpenFlags) : Except Error OpenFile × Disk :=
  if name.length = 0 ∨ 15 < name.length then (.error .invalidArgument, d)
  else
    match readDirectory d with
    | (.error e, d) => (.error e, d)
    | (.ok dir, d) =>
      match findEntry dir name with
      | some idx => openExisting d dir idx flags
      | none => if flags.create then openNew d dir name else (.error .notFound, d)

def read (d : Disk) (file : OpenFile) (len : ℕ) :
    Except Error (List Byte) × OpenFile × Disk :=
  if len = 0 ∨ file.size ≤ file.pos then (.ok [], file, d)
  else if d.ready then
    let toRead := min len (file.size - file.pos)
    let byteOffset := 512 * file.startSector + file.pos
    if d.answers ((byteOffset + toRead + 511) / 512) then
      (.ok ((List.range toRead).map fun k => d.bytes (byteOffset + k)),
        { file with pos := file.pos + toRead }, d.submit)
    else (.error .ioError, file, d.submit)
  else (.error .noDevice, file, d)

/-- The loop of `write`: one read-modify-write of a sector for each part of the buffer. The fuel
is the number of rounds, of which each takes at least one byte. -/
def writeLoop : ℕ → Disk → OpenFile → List Byte → ℕ → Checked (Except Error Unit × OpenFile × Disk)
  | 0, d, file, _, _ => .ok (.ok (), file, d)
  | fuel + 1, d, file, buf, curByte =>
    if buf = [] then .ok (.ok (), file, d)
    else
      let sectorOffset := curByte % 512
      let sector := curByte / 512
      match d.readSector sector with
      | (.error e, d) => .ok (.error e, file, d)
      | (.ok sectorBuf, d) =>
        let copyLen := min buf.length (512 - sectorOffset)
        let written : Bytes := fun k =>
          if sectorOffset ≤ k ∧ k < sectorOffset + copyLen then buf.getD (k - sectorOffset) 0
          else sectorBuf k
        match d.writeSector sector written with
        | (.error e, d) => .ok (.error e, file, d)
        | (.ok (), d) =>
          match add 32 file.pos copyLen with
          | .error trap => .error trap
          | .ok pos =>
            writeLoop fuel d { file with pos, size := max file.size pos }
              (buf.drop copyLen) (curByte + copyLen)

def write (d : Disk) (file : OpenFile) (buf : List Byte) :
    Checked (Except Error ℕ × OpenFile × Disk) :=
  if !file.writable then .ok (.error .permissionDenied, file, d)
  else if buf.length = 0 then .ok (.ok 0, file, d)
  else if !d.ready then .ok (.error .noDevice, file, d)
  else do
    let (result, file, d) ← writeLoop buf.length d file buf (512 * file.startSector + file.pos)
    return (result.map fun _ => buf.length, file, d)

def sync (d : Disk) (file : OpenFile) : Except Error Unit × Disk :=
  match readDirectory d with
  | (.error e, d) => (.error e, d)
  | (.ok dir, d) => writeDirectory d (setSize dir file.dirIdx file.size)

def close (d : Disk) (file : OpenFile) : Disk :=
  if file.writable then (sync d file).2 else d

/-! ### Runs -/

/-- The disk with the files that are open on it, by the number of the handle. -/
structure State where
  disk : Disk
  handles : ℕ → Option OpenFile := fun _ => none

inductive Operation where
  | «open» (handle : ℕ) (name : List Byte) (flags : OpenFlags)
  | read (handle len : ℕ)
  | write (handle : ℕ) (buf : List Byte)
  | sync (handle : ℕ)
  | close (handle : ℕ)
  deriving DecidableEq, Repr

/-- The state after an operation, whether it failed or not; `none` if it traps or if the handle is
not open, or already in use for `open`. -/
def next (s : State) : Operation → Option State
  | .open handle name flags =>
    match s.handles handle, «open» s.disk name flags with
    | some _, _ => none
    | none, (.error _, disk) => some { s with disk }
    | none, (.ok file, disk) => some { disk, handles := update s.handles handle (some file) }
  | .read handle len =>
    match s.handles handle with
    | none => none
    | some file =>
      let (_, file, disk) := read s.disk file len
      some { disk, handles := update s.handles handle (some file) }
  | .write handle buf =>
    match s.handles handle with
    | none => none
    | some file =>
      match write s.disk file buf with
      | .error _ => none
      | .ok (_, file, disk) =>
        some { disk, handles := update s.handles handle (some file) }
  | .sync handle =>
    match s.handles handle with
    | none => none
    | some file => some { s with disk := (sync s.disk file).2 }
  | .close handle =>
    match s.handles handle with
    | none => none
    | some file =>
      some { disk := close s.disk file, handles := update s.handles handle none }

def State.dir (s : State) : Bytes := fun k => s.disk.bytes (512 * dirSector + k)

/-- No file is open, and no entry of the directory is in use. -/
def Initial (s : State) : Prop :=
  (∀ h, s.handles h = none) ∧ ∀ i < maxEntries, isInUse s.dir i = false

def system : System State Operation := System.ofNext Initial next

end Innigkeit.Filesystem.SimpleFs

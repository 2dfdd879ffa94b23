import Mathlib.Algebra.Order.Ring.Nat

/-!
The block device under the ext4 driver, with the contract of `blk.readBytes` and
`blk.writeBytes`: reads may start anywhere, a write must cover whole sectors. An
operation that fails keeps what it wrote before it failed, so an action returns
its result together with the device. The driver's block cache is dropped from
the disk before every write and is not modelled.
-/

namespace Innigkeit.Filesystem.Ext4

abbrev Byte := BitVec 8

/-- A buffer; how many of its bytes count is said where it is used. -/
abbrev Bytes := Nat → Byte

def SECTOR_SIZE : Nat := 512

inductive Error where
  | ioError
  | badMagic
  | blockSizeTooLarge
  | incompatibleFeatures
  | corruptFilesystem
  | invalidInode
  | indirectBlocksUnsupported
  | badExtentMagic
  | extentDepthTooLarge
  | extentTreeTooDeep
  | extentTreeFull
  | notADirectory
  | notAFile
  | notFound
  | alreadyExists
  | invalidPath
  | pathTooLong
  | nameTooLong
  | tooManySymlinks
  | badSymlink
  | noSpace
  deriving DecidableEq, Repr

/-- `faults` says which write requests the device refuses, by their number. -/
structure Device where
  bytes : Bytes
  capacitySectors : Nat
  faults : Nat → Bool
  requests : Nat

abbrev Result (α : Type) := Except Error α

/-- An action on the device that may fail half-way. -/
def Action (α : Type) := Device → Result α × Device

namespace Action

variable {α β : Type}

instance : Monad Action where
  pure a := fun d => (.ok a, d)
  bind x f := fun d =>
    match x d with
    | (.ok a, d') => f a d'
    | (.error e, d') => (.error e, d')

def fail (e : Error) : Action α := fun d => (.error e, d)

def observe (f : Device → Result α) : Action α := fun d => (f d, d)

def Never (x : Action α) : Prop := ∀ d a, (x d).1 ≠ .ok a

theorem bind_apply (x : Action α) (f : α → Action β) (d : Device) :
    (x >>= f) d = match x d with
      | (.ok a, d') => f a d'
      | (.error e, d') => (.error e, d') := rfl

variable {f : Device → Result α} {g : α → Action β} {d : Device}

theorem observe_bind_ok {a : α} (h : f d = .ok a) : (observe f >>= g) d = g a d := by
  rw [bind_apply, observe, h]

theorem observe_bind_error {e : Error}
    (h : f d = .error e) : (observe f >>= g) d = (.error e, d) := by
  rw [bind_apply, observe, h]

theorem Never.bind {x : Action α} (h : x.Never) (f : α → Action β) : (x >>= f).Never := by
  intro d b
  rw [bind_apply]
  cases hx : x d with
  | mk r d' =>
    cases r with
    | ok a => exact absurd (by rw [hx]) (h d a)
    | error e => simp

theorem never_bind_of (x : Action α) {f : α → Action β} (h : ∀ a, (f a).Never) :
    (x >>= f).Never := by
  intro d b
  rw [bind_apply]
  cases hx : x d with
  | mk r d' =>
    cases r with
    | ok a => exact h a d' b
    | error e => simp

theorem never_fail (e : Error) : (fail e : Action α).Never := by
  intro d a
  simp [fail]

end Action

/-- Nothing is read behind the end of the buffer, which is undefined there. -/
def readBytes (d : Device) (offset len : Nat) : Result Bytes :=
  if offset + len ≤ d.capacitySectors * SECTOR_SIZE then
    .ok fun i => if i < len then d.bytes (offset + i) else 0xAA
  else .error .ioError

theorem readBytes_congr {d d' : Device} {offset len : Nat}
    (hcap : d'.capacitySectors = d.capacitySectors)
    (h : ∀ i, i < len → d'.bytes (offset + i) = d.bytes (offset + i)) :
    readBytes d' offset len = readBytes d offset len := by
  unfold readBytes
  rw [hcap]
  split
  · refine congrArg _ (funext fun i => ?_)
    split
    · next hi => exact h i hi
    · rfl
  · rfl

/-- All writes of the driver are at most eight sectors long, that is one request. -/
def writeBytes (offset : Nat) (buf : Bytes) (len : Nat) : Action Unit := fun d =>
  if len = 0 then (.ok (), d)
  else if offset % SECTOR_SIZE ≠ 0 ∨ len % SECTOR_SIZE ≠ 0 then (.error .ioError, d)
  else
    let d' := { d with requests := d.requests + 1 }
    if offset + len ≤ d.capacitySectors * SECTOR_SIZE ∧ d.faults d.requests = false then
      (.ok (), { d' with
        bytes := fun i => if offset ≤ i ∧ i < offset + len then buf (i - offset) else d.bytes i })
    else (.error .ioError, d')

theorem writeBytes_ragged {offset len : Nat} {buf : Bytes} (hpos : len ≠ 0)
    (h : len % SECTOR_SIZE ≠ 0) (d : Device) :
    writeBytes offset buf len d = (.error .ioError, d) := by
  simp [writeBytes, hpos, h]

def readInt16 (buf : Bytes) (i : Nat) : Nat := (buf i).toNat + 256 * (buf (i + 1)).toNat

def readInt32 (buf : Bytes) (i : Nat) : Nat := readInt16 buf i + 2 ^ 16 * readInt16 buf (i + 2)

def writeInt16 (buf : Bytes) (i v : Nat) : Bytes := fun k =>
  if k = i then BitVec.ofNat 8 v
  else if k = i + 1 then BitVec.ofNat 8 (v / 256)
  else buf k

def writeInt32 (buf : Bytes) (i v : Nat) : Bytes :=
  writeInt16 (writeInt16 buf i v) (i + 2) (v / 2 ^ 16)

def writeName (buf : Bytes) (i : Nat) (name : List Byte) : Bytes := fun k =>
  if i ≤ k ∧ k < i + name.length then name.getD (k - i) 0 else buf k

def slice (buf : Bytes) (i j : Nat) : List Byte := (List.range (j - i)).map fun k => buf (i + k)

end Innigkeit.Filesystem.Ext4

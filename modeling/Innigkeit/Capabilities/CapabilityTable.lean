import Innigkeit.Capabilities.Message
import Innigkeit.User.Syscall
import Mathlib.Data.List.FinRange

/-!
The capability tables of the processes and the objects that they name. A slot
whose type is null holds the index of the next free slot in the field that
otherwise holds the object's address. All tables and objects are one state, so
that an operation on two tables may be one on the same table twice.

A table operation runs under the table's lock and is one step here. Reference
counts are natural numbers; the generation of an object is a word of 32 bits
and wraps. An object that was destroyed keeps the content that it had, which is
what a read through a dangling pointer would find.
-/

namespace Innigkeit.Capabilities

open Zig Function

/-- `slots_per_process` -/
def capCount : ℕ := 256

instance : NeZero capCount := ⟨by decide⟩

/-- `null_slot` -/
def nullIdx : ℕ := 2 ^ 32 - 1

/-- The types of objects; the tag `null` of an empty slot is `none` in `Slot.type`. -/
inductive ObjectType where
  | frame
  | notify
  | endpoint
  | reply
  | secureVault
  | gpuBuffer
  | netSocket
  deriving DecidableEq, Repr

/-- A packed word: read, write, grant and revoke from bit 0 on, then padding. -/
abbrev Rights := BitVec 16

namespace Rights

def read (rights : Rights) : Bool := rights.getLsbD 0

def write (rights : Rights) : Bool := rights.getLsbD 1

def grant (rights : Rights) : Bool := rights.getLsbD 2

def revoke (rights : Rights) : Bool := rights.getLsbD 3

def all : Rights := 0b1111

def readOnly : Rights := 0b0001

end Rights

def rightsSubset (sub sup : Rights) : Bool := sub &&& sup = sub

theorem rightsSubset_iff {sub sup : Rights} : rightsSubset sub sup = true ↔ sub &&& sup = sub := by
  simp [rightsSubset]

theorem rightsSubset_refl (rights : Rights) : rightsSubset rights rights = true := by
  simp [rightsSubset]

theorem rightsSubset_trans {a b c : Rights} (hab : rightsSubset a b = true)
    (hbc : rightsSubset b c = true) : rightsSubset a c = true := by
  rw [rightsSubset_iff] at *
  calc a &&& c = (a &&& b) &&& c := by rw [hab]
    _ = a &&& (b &&& c) := BitVec.and_assoc ..
    _ = a := by rw [hbc, hab]

theorem rightsSubset_iff_and_not {sub sup : Rights} :
    rightsSubset sub sup = true ↔ sub &&& ~~~sup = 0 := by
  rw [rightsSubset_iff]
  constructor
  · intro h
    rw [← h, BitVec.and_assoc]
    simp
  · intro h
    refine BitVec.eq_of_getLsbD_eq fun i hi => ?_
    have hbit := congrArg (fun x => x.getLsbD i) h
    simp only [BitVec.getLsbD_and, BitVec.getLsbD_not, hi, decide_true, Bool.true_and] at hbit ⊢
    cases hsub : sub.getLsbD i with
    | false => rfl
    | true =>
      rw [hsub] at hbit
      simpa using hbit

structure Slot where
  ptrOrNext : ℕ := 0
  type : Option ObjectType := none
  rights : Rights := 0
  generation : BitVec 32 := 0
  deriving DecidableEq, Repr

structure CapabilityTable where
  slots : Fin capCount → Slot
  freeHead : ℕ

structure LiveSlot where
  type : ObjectType
  ptr : ℕ
  rights : Rights
  generation : BitVec 32
  deriving DecidableEq, Repr

/-- What `getAndRefLocked` returns, together with a reference to the object. -/
structure SlotInfo where
  capType : ObjectType
  ptr : ℕ
  rights : Rights
  deriving DecidableEq, Repr

def Slot.live (slot : Slot) : Option LiveSlot :=
  slot.type.map fun type => ⟨type, slot.ptrOrNext, slot.rights, slot.generation⟩

def LiveSlot.info (slot : LiveSlot) : SlotInfo := ⟨slot.type, slot.ptr, slot.rights⟩

namespace CapabilityTable

def init (generation : Fin capCount → BitVec 32) : CapabilityTable where
  slots i :=
    { ptrOrNext := if i.val + 1 < capCount then i.val + 1 else nullIdx
      type := none
      rights := 0
      generation := generation i }
  freeHead := 0

def getLocked (table : CapabilityTable) (idx : ℕ) : Option LiveSlot :=
  if h : idx < capCount then (table.slots ⟨idx, h⟩).live else none

end CapabilityTable

/-- The fields that all types of objects have. -/
structure Object where
  generation : BitVec 32 := 0
  refcount : ℕ := 1
  destroyed : Bool := false
  deriving DecidableEq, Repr

namespace Object

def ref (object : Object) : Object := { object with refcount := object.refcount + 1 }

def unref (object : Object) : Object :=
  { object with
    refcount := object.refcount - 1
    destroyed := object.destroyed || object.refcount == 1 }

/-- `generation.fetchAdd(1)` -/
def revoke (object : Object) : Object := { object with generation := object.generation + 1 }

end Object

inductive TableError where
  | notFound
  | full
  | rightsEscalation
  | noRevokeRight
  deriving DecidableEq, Repr

structure Kernel (Process : Type) where
  tables : Process → CapabilityTable
  /-- The memory of the objects, by address. -/
  objects : ℕ → Object

namespace Kernel

variable {Process : Type} [DecidableEq Process]

def modifyObject (k : Kernel Process) (ptr : ℕ) (f : Object → Object) : Kernel Process :=
  { k with objects := update k.objects ptr (f (k.objects ptr)) }

def objectGeneration (k : Kernel Process) (ptr : ℕ) : BitVec 32 := (k.objects ptr).generation

def incrementObjectGeneration (k : Kernel Process) (ptr : ℕ) : Kernel Process :=
  k.modifyObject ptr Object.revoke

def refObject (k : Kernel Process) (ptr : ℕ) : Kernel Process := k.modifyObject ptr Object.ref

def unrefObject (k : Kernel Process) (ptr : ℕ) : Kernel Process := k.modifyObject ptr Object.unref

def setSlot (k : Kernel Process) (p : Process) (i : Fin capCount) (slot : Slot) (freeHead : ℕ) :
    Kernel Process :=
  { k with tables := update k.tables p ⟨update (k.tables p).slots i slot, freeHead⟩ }

def insertLocked (k : Kernel Process) (p : Process) (capType : ObjectType) (ptr : ℕ)
    (rights : Rights) : Checked (Except TableError (Fin capCount) × Kernel Process) :=
  if h : (k.tables p).freeHead < capCount then do
    let idx : Fin capCount := ⟨(k.tables p).freeHead, h⟩
    let freeHead ← intCast 32 ((k.tables p).slots idx).ptrOrNext
    let slot : Slot :=
      { ptrOrNext := ptr
        type := some capType
        rights := rights
        generation := k.objectGeneration ptr }
    .ok (.ok idx, k.setSlot p idx slot freeHead)
  else
    .ok (.error .full, k)

/-- An insertion with the error exit that its callers share: the reference that
the slot would have owned is dropped. -/
def insertOrUnref (k : Kernel Process) (p : Process) (info : SlotInfo) :
    Checked (Except TableError (Fin capCount) × Kernel Process) := do
  match ← k.insertLocked p info.capType info.ptr info.rights with
  | (.ok idx, k) => .ok (.ok idx, k)
  | (.error e, k) => .ok (.error e, k.unrefObject info.ptr)

def getAndRefLocked (k : Kernel Process) (p : Process) (idx : ℕ) :
    Option (SlotInfo × Kernel Process) :=
  match (k.tables p).getLocked idx with
  | none => none
  | some slot =>
    if slot.generation ≠ k.objectGeneration slot.ptr then none
    else some (slot.info, k.refObject slot.ptr)

def copyLocked (k : Kernel Process) (p : Process) (srcIdx : ℕ) (newRights : Rights) :
    Checked (Except TableError (Fin capCount) × Kernel Process) :=
  match k.getAndRefLocked p srcIdx with
  | none => .ok (.error .notFound, k)
  | some (src, k) =>
    if rightsSubset newRights src.rights then k.insertOrUnref p { src with rights := newRights }
    else .ok (.error .rightsEscalation, k.unrefObject src.ptr)

def removeLocked (k : Kernel Process) (p : Process) (idx : ℕ) :
    Except TableError (Kernel Process) :=
  if h : idx < capCount then
    let removed := (k.tables p).slots ⟨idx, h⟩
    if removed.type = none then .error .notFound
    else
      let slot := { removed with ptrOrNext := (k.tables p).freeHead, type := none, rights := 0 }
      .ok ((k.setSlot p ⟨idx, h⟩ slot idx).unrefObject removed.ptrOrNext)
  else .error .notFound

/-- One round of the loop of `deinitAll`; the slot keeps its rights. -/
def deinitSlot (p : Process) (k : Kernel Process) (i : Fin capCount) : Kernel Process :=
  let slot := (k.tables p).slots i
  if slot.type = none then k
  else
    (k.setSlot p i { slot with ptrOrNext := (k.tables p).freeHead, type := none } i).unrefObject
      slot.ptrOrNext

def deinitAll (k : Kernel Process) (p : Process) : Kernel Process :=
  (List.finRange capCount).foldl (deinitSlot p) k

def revokeLocked (k : Kernel Process) (p : Process) (idx : ℕ) :
    Except TableError (Kernel Process) :=
  match (k.tables p).getLocked idx with
  | none => .error .notFound
  | some slot =>
    if slot.rights.revoke then .ok (k.incrementObjectGeneration slot.ptr)
    else .error .noRevokeRight

/-- One round of the loop of `transferCaps`. -/
def transferEntry (src dst : Process) (k : Kernel Process) (handle : BitVec 32) :
    Checked (BitVec 32 × Kernel Process) :=
  if handle = 0 then .ok (handle, k)
  else
    match k.getAndRefLocked src handle.toNat with
    | none => .ok (0, k)
    | some (info, k) =>
      if info.rights.grant then do
        match ← k.insertOrUnref dst info with
        | (.ok idx, k) => .ok (BitVec.ofNat 32 idx, k)
        | (.error _, k) => .ok (0, k)
      else .ok (0, k.unrefObject info.ptr)

def transferEntries (src dst : Process) (k : Kernel Process) :
    List (BitVec 32) → Checked (List (BitVec 32) × Kernel Process)
  | [] => .ok ([], k)
  | handle :: handles => do
    let (handle, k) ← k.transferEntry src dst handle
    let (handles, k) ← k.transferEntries src dst handles
    .ok (handle :: handles, k)

end Kernel

/-- A task, as far as transfers look at it: only user tasks have a process. -/
inductive TaskType (Process : Type) where
  | kernel
  | user (process : Process)
  deriving DecidableEq, Repr

namespace Kernel

variable {Process : Type} [DecidableEq Process]

theorem transferEntries_length {src dst : Process} {k k' : Kernel Process}
    {handles handles' : List (BitVec 32)}
    (h : k.transferEntries src dst handles = .ok (handles', k')) :
    handles'.length = handles.length := by
  induction handles generalizing k handles' with
  | nil =>
    cases h
    rfl
  | cons handle handles ih =>
    simp only [transferEntries, bind_eq_ok] at h
    obtain ⟨first, -, rest, hrest, heq⟩ := h
    cases heq
    simp [ih hrest]

def transferCaps (k : Kernel Process) (msg : Message) (sender receiver : TaskType Process) :
    Checked (Message × Kernel Process) :=
  match sender, receiver with
  | .user src, .user dst =>
    match h : k.transferEntries src dst msg.caps.val with
    | .ok (handles, k') =>
      .ok ({ msg with caps := ⟨handles, (transferEntries_length h).trans msg.caps.property⟩ }, k')
    | .error trap => .error trap
  | _, _ => .ok (msg, k)

def capMove (k : Kernel Process) (p : Process) (handle : ℕ) :
    Checked (Except User.SyscallError (Fin capCount) × Kernel Process) :=
  match (k.tables p).getLocked handle with
  | none => .ok (.error .badHandle, k)
  | some slot => do
    match ← k.copyLocked p handle slot.rights with
    | (.error .full, k) => .ok (.error .outOfMemory, k)
    | (.error .notFound, k) => .ok (.error .badHandle, k)
    -- The same rights cannot be an escalation, and the slot is still there.
    | (.error _, _) => .error .panic
    | (.ok newIdx, k) =>
      match k.removeLocked p handle with
      | .ok k => .ok (.ok newIdx, k)
      | .error _ => .error .panic

end Kernel

end Innigkeit.Capabilities

import Innigkeit.Capabilities.TableRuns

/-!
Derivation of capabilities as two steps. A slot is validated and a reference to
its object is taken under the lock of its table; later the new slot is inserted
under the lock of the table that it goes to. `copyLocked` keeps the one lock in
between and `transferCaps` both, `Frame.clone` and the grants of a spawn give it
up; a revocation takes the lock of the revoker's table only. Every path derives
with these two steps, so the runs of the steps contain the runs of the paths.

For each slot and each reference the machine records which slots it was derived
from and how often the object had been revoked when its source was validated.
-/

namespace Innigkeit.Capabilities

open Zig Function Transition

/-- The paths on which a capability is derived from a slot. -/
inductive Path (Process : Type) where
  | copy (newRights : Rights)
  /-- The frame operation `clone` of `cap_invoke`. -/
  | clone
  | transfer (receiver : Process)
  | grant (child : Process) (requestedRights : Rights)
  deriving DecidableEq

namespace Path

variable {Process : Type}

/-- The table that the new slot goes to. -/
def target (p : Process) : Path Process → Process
  | .copy _ | .clone => p
  | .transfer receiver => receiver
  | .grant child _ => child

def check (info : SlotInfo) : Path Process → Option Rights
  | .copy newRights => if rightsSubset newRights info.rights then some newRights else none
  | .clone => if info.capType = .frame ∧ info.rights.grant then some info.rights else none
  | .transfer _ => if info.rights.grant then some info.rights else none
  | .grant _ requestedRights =>
    if info.rights.grant ∧ requestedRights &&& ~~~info.rights = 0 then some requestedRights
    else none

end Path

/-- A slot on a chain of derivations. -/
structure Ancestor (Process : Type) where
  table : Process
  rights : Rights
  deriving DecidableEq

/-- Where a capability comes from: the slots it was derived from, its source first, and how often
the object had been revoked when the source was validated. A root slot has neither. -/
structure Origin (Process : Type) where
  lineage : List (Ancestor Process) := []
  validated : Option ℕ := none
  deriving DecidableEq

/-- A reference that no slot owns; it goes into the target's table, or it is only a snapshot. -/
structure Reference (Agent Process : Type) where
  holder : Agent
  info : SlotInfo
  target : Option Process
  origin : Origin Process := {}
  deriving DecidableEq

/-- Threads of the kernel, the locks of the tables and the references that the threads hold. -/
structure Machine (Agent Process : Type) where
  kernel : Kernel Process
  locks : Process → Option Agent
  references : List (Reference Agent Process)
  revokes : ℕ → ℕ
  origin : Process × Fin capCount → Origin Process

inductive Step (Agent Process : Type) where
  | lock (a : Agent) (p : Process)
  | unlock (a : Agent) (p : Process)
  /-- A new object, to be inserted as a root slot. -/
  | create (a : Agent) (p : Process) (capType : ObjectType) (ptr : ℕ) (rights : Rights)
  /-- Another reference to an object that the thread is about to insert as a root slot. -/
  | share (a : Agent) (r : Reference Agent Process) (p : Process) (rights : Rights)
  | validate (a : Agent) (path : Path Process) (p : Process) (idx : ℕ)
  | insert (a : Agent) (r : Reference Agent Process)
  | drop (a : Agent) (r : Reference Agent Process)
  | remove (a : Agent) (p : Process) (idx : ℕ)
  | deinitAll (a : Agent) (p : Process)
  | revoke (a : Agent) (p : Process) (idx : ℕ)
  deriving DecidableEq

namespace Machine

variable {Agent Process : Type} [DecidableEq Agent] [DecidableEq Process]

/-- The reference that a validated slot leaves with the thread. -/
def derived (m : Machine Agent Process) (a : Agent) (path : Path Process) (p : Process) (idx : ℕ)
    (info : SlotInfo) (rights : Rights) : Reference Agent Process where
  holder := a
  info := { info with rights := rights }
  target := some (path.target p)
  origin :=
    { lineage := ⟨p, info.rights⟩ :: (m.origin (p, Fin.ofNat capCount idx)).lineage
      validated := some (m.revokes info.ptr) }

/-- The clone of a frame takes a second reference and keeps the snapshot until it is done. -/
def resolve (m : Machine Agent Process) (kernel : Kernel Process) (a : Agent) (path : Path Process)
    (p : Process) (idx : ℕ) (info : SlotInfo) (rights : Rights) : Machine Agent Process :=
  match path with
  | .clone =>
    { m with
      kernel := kernel.refObject info.ptr
      references := m.derived a path p idx info rights :: ⟨a, info, none, {}⟩ :: m.references }
  | .copy _ | .transfer _ | .grant _ _ =>
    { m with kernel, references := m.derived a path p idx info rights :: m.references }

def next (m : Machine Agent Process) : Step Agent Process → Option (Machine Agent Process)
  | .lock a p =>
    if m.locks p = none then some { m with locks := update m.locks p (some a) } else none
  | .unlock a p =>
    if m.locks p = some a then some { m with locks := update m.locks p none } else none
  | .create a p capType ptr rights =>
    if (m.kernel.objects ptr).destroyed then
      some { m with
        kernel := m.kernel.modifyObject ptr fun _ => {}
        references := ⟨a, ⟨capType, ptr, rights⟩, some p, {}⟩ :: m.references
        revokes := update m.revokes ptr 0 }
    else none
  | .share a r p rights =>
    if r ∈ m.references ∧ r.holder = a ∧ r.target ≠ none ∧ r.origin = {} then
      some { m with
        kernel := m.kernel.refObject r.info.ptr
        references := ⟨a, { r.info with rights := rights }, some p, {}⟩ :: m.references }
    else none
  | .validate a path p idx =>
    if m.locks p = some a then
      match m.kernel.getAndRefLocked p idx with
      | none => some m
      | some (info, kernel) =>
        match path.check info with
        | none => some { m with kernel := kernel.unrefObject info.ptr }
        | some rights => some (m.resolve kernel a path p idx info rights)
    else none
  | .insert a r =>
    match r.target with
    | none => none
    | some p =>
      if r ∈ m.references ∧ r.holder = a ∧ m.locks p = some a then
        match m.kernel.insertLocked p r.info.capType r.info.ptr r.info.rights with
        | .error _ => none
        | .ok (.ok i, kernel) =>
          some { m with
            kernel
            references := m.references.erase r
            origin := update m.origin (p, i) r.origin }
        | .ok (.error _, kernel) =>
          some { m with
            kernel := kernel.unrefObject r.info.ptr
            references := m.references.erase r }
      else none
  | .drop a r =>
    if r ∈ m.references ∧ r.holder = a then
      some { m with
        kernel := m.kernel.unrefObject r.info.ptr
        references := m.references.erase r }
    else none
  | .remove a p idx =>
    if m.locks p = some a then
      match m.kernel.removeLocked p idx with
      | .ok kernel => some { m with kernel }
      | .error _ => some m
    else none
  | .deinitAll a p =>
    if m.locks p = some a then some { m with kernel := m.kernel.deinitAll p } else none
  | .revoke a p idx =>
    if m.locks p = some a then
      match (m.kernel.tables p).getLocked idx, m.kernel.revokeLocked p idx with
      | some live, .ok kernel =>
        some { m with kernel, revokes := update m.revokes live.ptr (m.revokes live.ptr + 1) }
      | _, _ => some m
    else none

/-- No object, no reference, no lock, and every table was initialised. -/
def Initial (m : Machine Agent Process) : Prop :=
  World.Initial ⟨m.kernel, m.references.map fun r => r.info.ptr⟩ ∧ ∀ p, m.locks p = none

def system : System (Machine Agent Process) (Step Agent Process) := System.ofNext Initial next

end Machine

end Innigkeit.Capabilities

import Innigkeit.Library.Transition
import Mathlib.Algebra.Order.Ring.Int
import Mathlib.Data.List.FinRange

/-!
The descriptor table of a process. A read or a write copies the descriptor out
under the lock, works on the copy without it and commits the copy under the lock
again, so any other operation can come between. The generation of a slot is the
number of its closes modulo `2 ^ 32`: as long as no slot is closed that often, a
commit whose open is gone is dropped.
-/

namespace Innigkeit.User

open Function Transition Option

def maxDescriptors : ℕ := 32

structure FileDescriptor (Node : Type) where
  node : Node
  offset : ℕ
  writable : Bool
  deriving DecidableEq

inductive Descriptor (Node : Type) where
  | closed
  | terminalOut
  | keyboardIn
  | file (file : FileDescriptor Node)
  deriving DecidableEq

def Descriptor.isClosed {Node : Type} : Descriptor Node → Bool
  | .closed => true
  | _ => false

structure FdTable.Slot (Node : Type) where
  desc : Descriptor Node := .closed
  gen : BitVec 32 := 0
  deriving DecidableEq

structure FdTable (Node : Type) where
  slots : Fin maxDescriptors → FdTable.Slot Node

namespace FdTable

variable {Node : Type}

inductive Error where
  | badFd
  | invalidArgument
  deriving DecidableEq

def reset : FdTable Node where
  slots fd :=
    if fd.val = 0 then { desc := .keyboardIn }
    else if fd.val = 1 ∨ fd.val = 2 then { desc := .terminalOut }
    else {}

def set (self : FdTable Node) (fd : Fin maxDescriptors) (desc : Descriptor Node) : FdTable Node :=
  { slots := update self.slots fd { self.slots fd with desc } }

@[grind =]
theorem set_slots (self : FdTable Node) (fd i : Fin maxDescriptors) (desc : Descriptor Node) :
    (self.set fd desc).slots i = if i = fd then { self.slots fd with desc } else self.slots i :=
  update_apply ..

def resolve (self : FdTable Node) (fd : Fin maxDescriptors) :
    Option (Descriptor Node × BitVec 32) :=
  if (self.slots fd).desc.isClosed then none
  else some ((self.slots fd).desc, (self.slots fd).gen)

def insertFile (self : FdTable Node) (node : Node) (writable : Bool) :
    Option (Fin maxDescriptors × FdTable Node) :=
  ((List.finRange maxDescriptors).find? fun fd => (self.slots fd).desc.isClosed).map fun fd =>
    (fd, self.set fd (.file { node, offset := 0, writable }))

def closeFd (self : FdTable Node) (fd : Fin maxDescriptors) :
    Except Error (Option (FileDescriptor Node) × FdTable Node) :=
  let table := { slots := update self.slots fd { gen := (self.slots fd).gen + 1 } }
  match (self.slots fd).desc with
  | .closed => .error .badFd
  | .file file => .ok (some file, table)
  | .terminalOut | .keyboardIn => .ok (none, table)

def commitFile (self : FdTable Node) (fd : Fin maxDescriptors) (gen : BitVec 32)
    (file : FileDescriptor Node) : FdTable Node :=
  if (self.slots fd).gen ≠ gen then self
  else
    match (self.slots fd).desc with
    | .file _ => self.set fd (.file file)
    | _ => self

def castI64 (v : ℤ) : Option ℤ := if -2 ^ 63 ≤ v ∧ v < 2 ^ 63 then some v else none

def seekBase (fileSize : Node → ℕ) (file : FileDescriptor Node) : ℕ → Option ℤ
  | 0 => some 0
  | 1 => castI64 file.offset
  | 2 => castI64 (fileSize file.node)
  | _ => none

def lseek (fileSize : Node → ℕ) (self : FdTable Node) (fd : Fin maxDescriptors) (offset : ℤ)
    (whence : ℕ) : Except Error (ℕ × FdTable Node) :=
  match (self.slots fd).desc with
  | .closed => .error .badFd
  | .file file =>
    match (seekBase fileSize file whence).bind fun base => castI64 (base + offset) with
    | none => .error .invalidArgument
    | some newOffset =>
      if newOffset < 0 then .error .invalidArgument
      else .ok (newOffset.toNat,
        self.set fd (.file { file with offset := newOffset.toNat }))
  | .terminalOut | .keyboardIn => .error .invalidArgument

/-! ### Runs -/

/-- A descriptor that was resolved, with the opens and closes of its slot until then. -/
structure Resolved where
  fd : Fin maxDescriptors
  gen : BitVec 32
  opens : ℕ
  closes : ℕ
  deriving DecidableEq

structure State (Node : Type) where
  table : FdTable Node
  opens : Fin maxDescriptors → ℕ
  closes : Fin maxDescriptors → ℕ
  resolved : List Resolved

/-- The sections under the lock. What a read or a write commits is left open. -/
inductive Section (Node : Type) where
  | resolve (fd : Fin maxDescriptors)
  | insertFile (node : Node) (writable : Bool)
  | closeFd (fd : Fin maxDescriptors)
  | lseek (fd : Fin maxDescriptors) (offset : ℤ) (whence : ℕ)
  | commitFile (resolved : Resolved) (file : FileDescriptor Node)

def next (fileSize : Node → ℕ) (s : State Node) : Section Node → Option (State Node)
  | .resolve fd => (s.table.resolve fd).map fun r =>
    { s with resolved := ⟨fd, r.2, s.opens fd, s.closes fd⟩ :: s.resolved }
  | .insertFile node writable => (s.table.insertFile node writable).map fun r =>
    { s with table := r.2, opens := update s.opens r.1 (s.opens r.1 + 1) }
  | .closeFd fd =>
    match s.table.closeFd fd with
    | .error _ => none
    | .ok (_, table) =>
      some { s with table, closes := update s.closes fd (s.closes fd + 1) }
  | .lseek fd offset whence =>
    match s.table.lseek fileSize fd offset whence with
    | .error _ => none
    | .ok (_, table) => some { s with table }
  | .commitFile r file =>
    if r ∈ s.resolved then some { s with table := s.table.commitFile r.fd r.gen file } else none

def system (fileSize : Node → ℕ) : System (State Node) (Section Node) :=
  System.ofNext (· = ⟨reset, fun _ => 0, fun _ => 0, []⟩) (next fileSize)

/-- Fewer than `2 ^ 32` closes of any slot. -/
def fewCloses (s : State Node) : Section Node → Prop
  | .closeFd fd => s.closes fd + 1 < 2 ^ 32
  | _ => True

instance (s : State Node) : (l : Section Node) → Decidable (fewCloses s l)
  | .closeFd _ => inferInstanceAs (Decidable (_ < _))
  | .resolve _ | .insertFile .. | .lseek .. | .commitFile .. => .isTrue trivial

/-- The slot has not been closed since it was resolved. -/
def State.Holds (s : State Node) (r : Resolved) : Prop :=
  s.opens r.fd = r.opens ∧ (s.table.slots r.fd).desc.isClosed = false

structure Valid (s : State Node) : Prop where
  gen : ∀ fd, (s.table.slots fd).gen = .ofNat 32 (s.closes fd)
  few : ∀ fd, s.closes fd < 2 ^ 32
  resolved : ∀ r ∈ s.resolved, r.gen = .ofNat 32 r.closes ∧ r.closes ≤ s.closes r.fd ∧
    (r.closes = s.closes r.fd → s.Holds r)

variable {fileSize : Node → ℕ} {s s' : State Node} {a : Section Node}

theorem initial_valid : Valid (⟨reset, fun _ => 0, fun _ => 0, []⟩ : State Node) := by
  refine ⟨fun fd => ?_, fun _ => Nat.two_pow_pos 32, fun r hr => by cases hr⟩
  simp only [reset]
  split
  · rfl
  · split <;> rfl

/-- Generations agree only as long as the slot has not been closed. -/
theorem Valid.holds (hv : Valid s) {r : Resolved} (hr : r ∈ s.resolved)
    (hgen : (s.table.slots r.fd).gen = r.gen) : s.Holds r := by
  obtain ⟨hgen', hle, hholds⟩ := hv.resolved r hr
  refine hholds ?_
  rw [hgen', hv.gen, ← BitVec.toNat_inj, BitVec.toNat_ofNat, BitVec.toNat_ofNat] at hgen
  have hfew := hv.few r.fd
  omega

theorem Valid.set (hv : Valid s) (fd : Fin maxDescriptors) (file : FileDescriptor Node) :
    Valid { s with table := s.table.set fd (.file file) } := by
  obtain ⟨hgen, hfew, hresolved⟩ := hv
  constructor <;> grind [Descriptor.isClosed, State.Holds]

variable {self table : FdTable Node} {fd : Fin maxDescriptors}

theorem closeFd_eq {closed : Option (FileDescriptor Node)}
    (h : self.closeFd fd = .ok (closed, table)) :
    table.slots = update self.slots fd { gen := (self.slots fd).gen + 1 } := by
  simp only [closeFd] at h
  split at h <;> cases h <;> rfl

theorem insertFile_eq {node : Node} {writable : Bool}
    (h : self.insertFile node writable = some (fd, table)) :
    (self.slots fd).desc.isClosed = true ∧
      table = self.set fd (.file { node, offset := 0, writable }) := by
  obtain ⟨i, hi, heq⟩ := map_eq_some_iff.mp h
  cases heq
  exact ⟨by simpa using List.find?_some hi, rfl⟩

theorem lseek_eq {offset : ℤ} {whence result : ℕ}
    (h : self.lseek fileSize fd offset whence = .ok (result, table)) :
    ∃ file, table = self.set fd (.file file) := by
  simp only [lseek] at h
  split at h
  case h_2 =>
    split at h
    case h_1 => cases h
    case h_2 => split at h <;> cases h; exact ⟨_, rfl⟩
  all_goals cases h

theorem next_valid (hv : Valid s) (hfew : fewCloses s a) (h : next fileSize s a = some s') :
    Valid s' := by
  cases a with
  | resolve fd =>
    obtain ⟨r, hr, rfl⟩ := map_eq_some_iff.mp h
    simp only [resolve, ite_none_left_eq_some] at hr
    obtain ⟨hopen, heq⟩ := hr
    cases heq
    refine ⟨hv.gen, hv.few, List.forall_mem_cons.mpr ⟨?_, hv.resolved⟩⟩
    exact ⟨hv.gen fd, le_rfl, fun _ => ⟨rfl, Bool.eq_false_of_not_eq_true hopen⟩⟩
  | insertFile node writable =>
    obtain ⟨⟨fd, table⟩, hr, rfl⟩ := map_eq_some_iff.mp h
    obtain ⟨hclosed, rfl⟩ := insertFile_eq hr
    obtain ⟨hgen, hfew, hresolved⟩ := hv
    constructor <;> grind [State.Holds, update_apply]
  | closeFd fd =>
    simp only [next] at h
    split at h
    case h_1 => cases h
    case h_2 closed table hclose =>
    cases h
    have htable := closeFd_eq hclose
    refine ⟨fun i => ?_, fun i => ?_, fun r hr => ?_⟩
    · simp only [htable, update_apply]
      split
      next => rw [hv.gen fd, BitVec.ofNat_add]; rfl
      next => exact hv.gen i
    · simp only [update_apply]
      split
      next => exact hfew
      next => exact hv.few i
    · obtain ⟨hgen, hle, hholds⟩ := hv.resolved r hr
      simp only [State.Holds, htable, update_apply] at hholds ⊢
      grind
  | lseek fd offset whence =>
    simp only [next] at h
    split at h
    case h_1 => cases h
    case h_2 result table hseek =>
    cases h
    obtain ⟨file, rfl⟩ := lseek_eq hseek
    exact hv.set fd file
  | commitFile r file =>
    obtain ⟨-, heq⟩ := ite_none_right_eq_some.mp h
    cases heq
    simp only [commitFile]
    split
    next => exact hv
    next =>
      split
      next => exact hv.set r.fd file
      next => exact hv

/-- A commit changes at most the slot that was resolved, while it holds the same open, and a new
file takes a closed slot. -/
structure Guarded (s : State Node) : Prop where
  commit : ∀ r ∈ s.resolved, ∀ file fd,
    (s.table.commitFile r.fd r.gen file).slots fd ≠ s.table.slots fd → fd = r.fd ∧ s.Holds r
  insert : ∀ node writable fd table, s.table.insertFile node writable = some (fd, table) →
    (s.table.slots fd).desc.isClosed = true ∧ ∀ i ≠ fd, table.slots i = s.table.slots i

/-- A read or a write that resolved a descriptor and commits later changes that descriptor only,
and only while no close came in between; a new file goes into a closed slot. -/
theorem commits_guarded (h : (system fileSize).Reachable fewCloses s) : Guarded s := by
  have hv : Valid s := h.invariant (by rintro _ rfl; exact initial_valid)
    fun _ _ _ hv hfew => next_valid hv hfew
  constructor
  · intro r hr file fd hne
    simp only [commitFile] at hne
    split at hne
    next => exact absurd rfl hne
    next hgen =>
      split at hne
      next =>
        refine ⟨?_, hv.holds hr (not_not.mp hgen)⟩
        by_contra hfd
        exact hne (update_of_ne hfd ..)
      next => exact absurd rfl hne
  · intro node writable fd table hinsert
    obtain ⟨hclosed, rfl⟩ := insertFile_eq hinsert
    exact ⟨hclosed, fun i hi => update_of_ne hi ..⟩

def third : Fin maxDescriptors := ⟨3, by decide⟩

/-- Descriptor 3 is resolved, closed and opened again: the commit with the old generation comes
too late and is dropped. -/
theorem commits_guarded_stale : ∃ s : State Unit, (system fun _ => 0).Reachable fewCloses s ∧
    s.resolved = [⟨third, 0, 1, 0⟩] ∧
    (s.table.slots third).desc = .file ⟨(), 0, false⟩ ∧
    (s.table.slots third).gen = 1 ∧ Guarded s := by
  have hrun : (System.runNext (System.restrict fewCloses (next fun _ => 0))
      (⟨reset, fun _ => 0, fun _ => 0, []⟩ : State Unit)
      [.insertFile () true, .resolve third, .closeFd third,
        .insertFile () false, .commitFile ⟨third, 0, 1, 0⟩ ⟨(), 7, true⟩]).map
      (fun s => (s.resolved, s.table.slots third)) =
        some ([⟨third, 0, 1, 0⟩], ⟨.file ⟨(), 0, false⟩, 1⟩) := by
    decide
  obtain ⟨s, hs, heq⟩ := map_eq_some_iff.mp hrun
  obtain ⟨hresolved, hslot⟩ := Prod.mk.inj heq
  have h : (system fun _ => 0).Reachable fewCloses s :=
    System.restrict_reachable _ (.init rfl) hs
  exact ⟨s, h, hresolved, congrArg (·.desc) hslot, congrArg (·.gen) hslot, commits_guarded h⟩

end FdTable

end Innigkeit.User

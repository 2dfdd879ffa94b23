import Innigkeit.Capabilities.TableOperations

/-!
Runs of the table operations over any number of tables and objects. A caller
only inserts or drops a reference that it has; everything else is free. In each
state that is reached, the null slots of a table are its free list and every
count is the number of references, and no operation traps.
-/

namespace Innigkeit.Capabilities

open Zig Function Transition List Kernel System Steps

variable {Process : Type} [DecidableEq Process]

inductive Operation (Process : Type) where
  /-- An object of some type is made at an address that is not in use. -/
  | create (ptr : ℕ)
  | ref (ptr : ℕ)
  | unref (ptr : ℕ)
  | get (p : Process) (idx : ℕ)
  | insert (p : Process) (capType : ObjectType) (ptr : ℕ) (rights : Rights)
  | copy (p : Process) (srcIdx : ℕ) (newRights : Rights)
  | move (p : Process) (handle : ℕ)
  | remove (p : Process) (idx : ℕ)
  | deinitAll (p : Process)
  | revoke (p : Process) (idx : ℕ)
  | transfer (msg : Message) (sender receiver : TaskType Process)
  deriving DecidableEq

namespace Operation

/-- The caller has what it passes on. -/
def Owned (w : World Process) : Operation Process → Prop
  | .create ptr => (w.kernel.objects ptr).destroyed = true
  | .ref ptr | .unref ptr | .insert _ _ ptr _ => ptr ∈ w.outstanding
  | .get .. | .copy .. | .move .. | .remove .. | .deinitAll _ | .revoke .. | .transfer .. => True

instance (w : World Process) : (op : Operation Process) → Decidable (op.Owned w)
  | .create ptr => inferInstanceAs (Decidable ((w.kernel.objects ptr).destroyed = true))
  | .ref ptr | .unref ptr | .insert _ _ ptr _ => inferInstanceAs (Decidable (ptr ∈ w.outstanding))
  | .get .. | .copy .. | .move .. | .remove .. | .deinitAll _ | .revoke .. | .transfer .. =>
    inferInstanceAs (Decidable True)

def Allows : Operation Process → Effect Process → Prop
  | .create ptr, e => e = .create ptr
  | .remove p idx, e => e.Removes fun q i => q = p ∧ i.val = idx
  | .deinitAll p, e => e.Removes fun q _ => q = p
  | .move p idx, e => e.Adds ∨ e.Removes fun q i => q = p ∧ i.val = idx
  | .revoke _ _, e => ∃ ptr, e = .revoke ptr
  | .ref _, e | .unref _, e | .get .., e | .insert .., e | .copy .., e | .transfer .., e => e.Adds

end Operation

namespace World

/-- Perform an operation; a failed one may leave its traces in the kernel only. -/
def perform (w : World Process) : Operation Process → Checked (World Process)
  | .create ptr => .ok ⟨w.kernel.modifyObject ptr fun _ => {}, ptr :: w.outstanding⟩
  | .ref ptr => .ok ⟨w.kernel.refObject ptr, ptr :: w.outstanding⟩
  | .unref ptr => .ok ⟨w.kernel.unrefObject ptr, w.outstanding.erase ptr⟩
  | .get p idx =>
    match w.kernel.getAndRefLocked p idx with
    | none => .ok w
    | some (info, kernel) => .ok ⟨kernel, info.ptr :: w.outstanding⟩
  | .insert p capType ptr rights => do
    match ← w.kernel.insertLocked p capType ptr rights with
    | (.ok _, kernel) => .ok ⟨kernel, w.outstanding.erase ptr⟩
    | (.error _, kernel) => .ok ⟨kernel, w.outstanding⟩
  | .copy p srcIdx newRights => do
    let (_, kernel) ← w.kernel.copyLocked p srcIdx newRights
    .ok ⟨kernel, w.outstanding⟩
  | .move p handle => do
    let (_, kernel) ← w.kernel.capMove p handle
    .ok ⟨kernel, w.outstanding⟩
  | .remove p idx =>
    match w.kernel.removeLocked p idx with
    | .ok kernel => .ok ⟨kernel, w.outstanding⟩
    | .error _ => .ok w
  | .deinitAll p => .ok ⟨w.kernel.deinitAll p, w.outstanding⟩
  | .revoke p idx =>
    match w.kernel.revokeLocked p idx with
    | .ok kernel => .ok ⟨kernel, w.outstanding⟩
    | .error _ => .ok w
  | .transfer msg sender receiver => do
    let (_, kernel) ← w.kernel.transferCaps msg sender receiver
    .ok ⟨kernel, w.outstanding⟩

def next (w : World Process) (op : Operation Process) : Option (World Process) :=
  if op.Owned w then (w.perform op).toOption else none

/-- No object exists and every table was initialised. -/
def Initial (w : World Process) : Prop :=
  (∀ p, ∃ generation, w.kernel.tables p = CapabilityTable.init generation) ∧
    (∀ x, (w.kernel.objects x).refcount = 0 ∧ (w.kernel.objects x).destroyed = true) ∧
    w.outstanding = []

def system : System (World Process) (Operation Process) := System.ofNext Initial next

variable {w w' : World Process} {op : Operation Process}

theorem next_eq_some : w.next op = some w' ↔ op.Owned w ∧ w.perform op = .ok w' := by
  rw [next]
  split
  · next h => simp [toOption_eq_some, h]
  · next h => simp [h]

section

variable [Fintype Process]

omit [DecidableEq Process] in
theorem Initial.accounted (h : w.Initial) : w.Accounted := by
  obtain ⟨htables, hobjects, hout⟩ := h
  refine ⟨fun p => ?_, fun x => ?_, fun x => ?_⟩
  · obtain ⟨generation, hp⟩ := htables p
    rw [hp]
    exact ⟨_, CapabilityTable.init_freeSlots generation⟩
  · have hnaming : w.kernel.naming x = 0 := by
      rw [naming, Counting.total_eq_zero]
      intro place
      obtain ⟨generation, hp⟩ := htables place.1
      refine Slot.names_of_null ?_
      rw [slotAt, hp]
      rfl
    rw [(hobjects x).1, hnaming, hout]
    rfl
  · exact iff_of_true (hobjects x).2 (hobjects x).1

theorem perform_steps (h : w.Accounted) (ho : op.Owned w) :
    ∃ w', w.perform op = .ok w' ∧ Steps op.Allows w w' := by
  obtain ⟨k, out⟩ := w
  cases op with
  | create ptr => exact ⟨_, rfl, single (.create ho) rfl⟩
  | ref ptr =>
    have hpos : 0 < (k.objects ptr).refcount := by
      have hcount : (k.objects ptr).refcount = k.naming ptr + out.count ptr := h.refcount ptr
      have hmem : 0 < out.count ptr := count_pos_iff.mpr ho
      omega
    exact ⟨_, rfl, single (.ref hpos) trivial⟩
  | unref ptr => exact ⟨_, rfl, single (.unref (perm_cons_erase ho)) trivial⟩
  | get p idx =>
    simp only [perform]
    split
    · exact ⟨_, rfl, refl _⟩
    · next info kernel hget =>
      exact ⟨_, rfl, single (getAndRefLocked_micro h hget) trivial⟩
  | insert p capType ptr rights =>
    obtain ⟨cells, hfree⟩ := h.wellFormed p
    simp only [perform]
    cases cells with
    | nil =>
      rw [insertLocked_of_nil hfree]
      exact ⟨_, rfl, refl _⟩
    | cons i cells =>
      rw [insertLocked_of_cons hfree]
      have hfill : Micro ⟨k, out⟩ (.fill p i) ⟨k.setSlot p i (k.newSlot capType ptr rights)
          ((k.tables p).slots i).ptrOrNext, out.erase ptr⟩ :=
        .fill hfree (Option.some_ne_none _) rfl (perm_cons_erase ho)
      exact ⟨_, rfl, single hfill trivial⟩
  | copy p srcIdx newRights =>
    obtain ⟨result, k', hrun, -, hsteps⟩ := copyLocked_steps h p srcIdx newRights
    exact ⟨⟨k', out⟩, by simp only [perform, hrun, ok_bind], hsteps⟩
  | move p handle =>
    obtain ⟨result, k', hrun, hsteps⟩ := capMove_steps h p handle
    exact ⟨⟨k', out⟩, by simp only [perform, hrun, ok_bind], hsteps⟩
  | remove p idx =>
    simp only [perform]
    split
    · next kernel hremove =>
      obtain ⟨i, rfl, hsteps⟩ := removeLocked_steps _ hremove
      refine ⟨_, rfl, hsteps.mono fun e he => ?_⟩
      cases e with
      | clear q j => exact ⟨he.1, congrArg Fin.val he.2⟩
      | _ => exact he
    · exact ⟨_, rfl, refl _⟩
  | deinitAll p => exact ⟨_, rfl, deinitAll_steps k p out⟩
  | revoke p idx =>
    simp only [perform, revokeLocked]
    split
    · next hrevoke =>
      split at hrevoke
      · cases hrevoke
      · split at hrevoke
        · cases hrevoke
          exact ⟨_, rfl, single .revoke ⟨_, rfl⟩⟩
        · cases hrevoke
    · exact ⟨_, rfl, refl _⟩
  | transfer msg sender receiver =>
    obtain ⟨msg', k', hrun, hsteps⟩ := transferCaps_steps h msg sender receiver
    exact ⟨⟨k', out⟩, by simp only [perform, hrun, ok_bind], hsteps⟩

theorem next_steps (h : w.Accounted) (hnext : w.next op = some w') : Steps op.Allows w w' := by
  obtain ⟨ho, hrun⟩ := next_eq_some.mp hnext
  obtain ⟨w₁, hrun₁, hsteps⟩ := perform_steps h ho
  rw [hrun] at hrun₁
  cases hrun₁
  exact hsteps

theorem reachable_accounted (h : system.Reachable anyStep w) : w.Accounted := by
  refine h.invariant (fun s hinit => ?_) fun s op s' hs _ hstep => ?_
  · exact Initial.accounted hinit
  · exact (next_steps hs hstep).accounted hs

theorem insertLocked_free (h : w.Accounted) (p : Process) (capType : ObjectType) (ptr : ℕ)
    (rights : Rights) :
    ∃ result k', w.kernel.insertLocked p capType ptr rights = .ok (result, k') ∧
      ((∃ e, result = .error e) ↔ ∀ i, ((w.kernel.tables p).slots i).type ≠ none) ∧
      ∀ i, result = .ok i → ((w.kernel.tables p).slots i).type = none := by
  obtain ⟨cells, hfree⟩ := h.wellFormed p
  cases cells with
  | nil =>
    refine ⟨_, _, insertLocked_of_nil hfree capType ptr rights, ?_, ?_⟩
    · refine iff_of_true ⟨_, rfl⟩ fun i hi => ?_
      exact not_mem_nil ((hfree.mem_iff i).mpr hi)
    · intro i hi
      cases hi
  | cons j cells =>
    have hj : ((w.kernel.tables p).slots j).type = none :=
      (hfree.mem_iff j).mp mem_cons_self
    refine ⟨_, _, insertLocked_of_cons hfree capType ptr rights, ?_, ?_⟩
    · refine iff_of_false (fun he => ?_) fun hall => hall j hj
      obtain ⟨e, he⟩ := he
      cases he
    · intro i hi
      cases hi
      exact hj

/-- The representation of the tables and the conservation of references in every run. -/
theorem references_conserved (h : system.Reachable anyStep w) :
    (∀ p, ∃ cells, (w.kernel.tables p).FreeSlots cells) ∧
    (∀ p capType ptr rights, ∃ result k',
      w.kernel.insertLocked p capType ptr rights = .ok (result, k') ∧
      ((∃ e, result = .error e) ↔ ∀ i, ((w.kernel.tables p).slots i).type ≠ none) ∧
      ∀ i, result = .ok i → ((w.kernel.tables p).slots i).type = none) ∧
    (∀ x, (w.kernel.objects x).refcount = w.kernel.naming x + w.outstanding.count x) ∧
    (∀ x, (w.kernel.objects x).destroyed = true ↔
      w.kernel.naming x + w.outstanding.count x = 0) ∧
    ∀ op, op.Owned w → ∃ w', w.perform op = .ok w' := by
  have ha := reachable_accounted h
  refine ⟨ha.wellFormed, insertLocked_free ha, ha.refcount, fun x => ?_, fun op ho => ?_⟩
  · rw [ha.destroyed, ha.refcount]
  · obtain ⟨w', hrun, -⟩ := perform_steps ha ho
    exact ⟨w', hrun⟩

end

/-- Tables whose memory was zero. -/
def blank (Process : Type) : World Process where
  kernel :=
    { tables := fun _ => CapabilityTable.init fun _ => 0
      objects := fun _ => { refcount := 0, destroyed := true } }
  outstanding := []

omit [DecidableEq Process] in
theorem blank_initial : (blank Process).Initial :=
  ⟨fun _ => ⟨_, rfl⟩, fun _ => ⟨rfl, rfl⟩, rfl⟩

theorem reachable_of_run {ops : List (Operation Process)}
    (hrun : runNext next (blank Process) ops = some w) : system.Reachable anyStep w :=
  runNext_reachable ops (.init blank_initial) hrun

private theorem length_shareCaps : ([1, 0, 0, 0] : List (BitVec 32)).length = 4 := rfl

/-- An object of the first process, sent to the second one and removed by the first. -/
private def share : List (Operation Bool) :=
  [.create 4096, .insert false .frame 4096 Rights.all, .copy false 0 Rights.all,
    .transfer { caps := ⟨[1, 0, 0, 0], length_shareCaps⟩ } (.user false) (.user true),
    .remove false 0]

theorem references_conserved_shared : ∃ w : World Bool,
    System.runNext next (blank Bool) share = some w ∧
    (w.kernel.objects 4096).refcount = w.kernel.naming 4096 + w.outstanding.count 4096 ∧
    (w.kernel.objects 4096).refcount = 2 := by
  have hrun : (runNext next (blank Bool) share).isSome = true := by decide
  obtain ⟨w, hw⟩ := Option.isSome_iff_exists.mp hrun
  have hcount : (runNext next (blank Bool) share).map
      (fun w => (w.kernel.objects 4096).refcount) = some 2 := by decide
  rw [hw] at hcount
  refine ⟨w, hw, ?_, by simpa using hcount⟩
  exact (references_conserved (reachable_of_run hw)).2.2.1 4096

end World

end Innigkeit.Capabilities

import Innigkeit.Capabilities.TableRuns
import Mathlib.Algebra.BigOperators.Fin

/-!
The references that a table operation gives up. Only the release of a snapshot,
the removal of a slot and the teardown of a table lower a count, and each of
them by the references that it had; a copy, a move or a transfer that fails
gives back what it took.
-/

namespace Innigkeit.Capabilities

open Zig Function Transition List Slot Nat

variable {Process : Type} [DecidableEq Process]

/-- How many slots of a table name the object. -/
def CapabilityTable.naming (table : CapabilityTable) (ptr : ℕ) : ℕ :=
  Counting.total (Slot.names ptr) table.slots

namespace World

/-- The references to an object that an operation gives up for good. -/
def dropped (w : World Process) : Operation Process → ℕ → ℕ
  | .unref ptr, x => if ptr = x then 1 else 0
  | .remove p idx, x =>
    match (w.kernel.tables p).getLocked idx with
    | some live => if live.ptr = x then 1 else 0
    | none => 0
  | .deinitAll p, x => (w.kernel.tables p).naming x
  | _, _ => 0

end World

namespace Kernel

variable {k k' : Kernel Process} {p : Process} {idx x : ℕ}

open Kernel

omit [DecidableEq Process] in
theorem refcount_modifyObject (ptr : ℕ) (f : Object → Object) (x : ℕ) :
    ((k.modifyObject ptr f).objects x).refcount =
      if x = ptr then (f (k.objects ptr)).refcount else (k.objects x).refcount := by
  rw [modifyObject_objects, update_apply]
  split <;> rfl

omit [DecidableEq Process] in
theorem refcount_refObject (ptr : ℕ) :
    ((k.refObject ptr).objects x).refcount =
      (k.objects x).refcount + if x = ptr then 1 else 0 := by
  rw [refObject, refcount_modifyObject]
  split
  · next h => rw [h, Object.ref]
  · rfl

omit [DecidableEq Process] in
theorem refcount_unrefObject (ptr : ℕ) :
    ((k.unrefObject ptr).objects x).refcount =
      (k.objects x).refcount - if x = ptr then 1 else 0 := by
  rw [unrefObject, refcount_modifyObject]
  split
  · next h => rw [h, Object.unref]
  · rfl

variable {result : Except TableError (Fin capCount)} {info : SlotInfo}
variable {rights : Rights}

theorem insertLocked_objects {capType : ObjectType} {ptr : ℕ}
    (h : k.insertLocked p capType ptr rights = .ok (result, k')) : k'.objects = k.objects := by
  rw [insertLocked] at h
  split at h
  · obtain ⟨head, -, heq⟩ := bind_eq_ok.mp h
    cases heq
    rfl
  · cases h
    rfl

private theorem refcount_insertOrUnref (h : k.insertOrUnref p info = .ok (result, k')) (x : ℕ) :
    (k.objects x).refcount ≤ (k'.objects x).refcount + (if x = info.ptr then 1 else 0) := by
  rw [insertOrUnref] at h
  obtain ⟨⟨outcome, k₁⟩, hinsert, hout⟩ := bind_eq_ok.mp h
  have hsame := insertLocked_objects hinsert
  cases outcome with
  | ok i =>
    cases hout
    rw [hsame]
    exact le_add_right _ _
  | error e =>
    cases hout
    rw [refcount_unrefObject, hsame]
    omega

variable {k₁ : Kernel Process}

private theorem refcount_derived (hget : k.getAndRefLocked p idx = some (info, k₁)) {q : Process}
    (h : k₁.insertOrUnref q { info with rights := rights } = .ok (result, k')) (x : ℕ) :
    (k.objects x).refcount ≤ (k'.objects x).refcount := by
  obtain ⟨_, _, _, _, hk₁⟩ := getAndRefLocked_eq_some.mp hget
  have hle := refcount_insertOrUnref h x
  rw [hk₁, refcount_refObject] at hle
  simp only at hle
  omega

omit [DecidableEq Process] in
private theorem refcount_refused (hget : k.getAndRefLocked p idx = some (info, k₁)) (x : ℕ) :
    (k.objects x).refcount ≤ ((k₁.unrefObject info.ptr).objects x).refcount := by
  obtain ⟨_, _, _, _, hk₁⟩ := getAndRefLocked_eq_some.mp hget
  rw [refcount_unrefObject, hk₁, refcount_refObject]
  omega

variable {newRights : Rights}

private theorem refcount_copyLocked (h : k.copyLocked p idx newRights = .ok (result, k')) (x : ℕ) :
    (k.objects x).refcount ≤ (k'.objects x).refcount := by
  rw [copyLocked] at h
  split at h
  · cases h
    exact le_rfl
  · next info k₁ hget =>
    split at h
    · exact refcount_derived hget h x
    · cases h
      exact refcount_refused hget x

private theorem refcount_copyLocked_ok {i : Fin capCount} {live : LiveSlot}
    (hlive : (k.tables p).getLocked idx = some live)
    (h : k.copyLocked p idx newRights = .ok (.ok i, k')) :
    (k'.objects live.ptr).refcount = (k.objects live.ptr).refcount + 1 := by
  rw [copyLocked] at h
  split at h
  · cases h
  · next info k₁ hget =>
    obtain ⟨live', hlive', _, hinfo, hk₁⟩ := getAndRefLocked_eq_some.mp hget
    rw [hlive] at hlive'
    cases hlive'
    split at h
    · rw [insertOrUnref] at h
      obtain ⟨⟨outcome, k₂⟩, hinsert, hout⟩ := bind_eq_ok.mp h
      have hsame := insertLocked_objects hinsert
      cases outcome with
      | ok j =>
        cases hout
        rw [hsame, hk₁, refcount_refObject, if_pos (by rw [hinfo]; rfl)]
      | error e => cases hout
    · cases h

private theorem refcount_transferEntry {src dst : Process} {handle handle' : BitVec 32}
    (h : k.transferEntry src dst handle = .ok (handle', k')) (x : ℕ) :
    (k.objects x).refcount ≤ (k'.objects x).refcount := by
  rw [transferEntry] at h
  split at h
  · cases h
    exact le_rfl
  split at h
  · cases h
    exact le_rfl
  · next info k₁ hget =>
    split at h
    · obtain ⟨⟨result, k₂⟩, hinsert, hout⟩ := bind_eq_ok.mp h
      have hk : k₂ = k' := by
        cases result with
        | ok _ | error _ => exact (Prod.mk.inj (Except.ok.inj hout)).2
      rw [hk] at hinsert
      exact refcount_derived hget hinsert x
    · cases h
      exact refcount_refused hget x

private theorem refcount_transferEntries {src dst : Process} {handles handles' : List (BitVec 32)}
    (h : k.transferEntries src dst handles = .ok (handles', k')) (x : ℕ) :
    (k.objects x).refcount ≤ (k'.objects x).refcount := by
  induction handles generalizing k handles' with
  | nil =>
    cases h
    exact le_rfl
  | cons handle handles ih =>
    simp only [transferEntries, bind_eq_ok] at h
    obtain ⟨⟨h', k₁⟩, hfirst, ⟨rest', k₂⟩, hrest, heq⟩ := h
    cases heq
    exact le_trans (refcount_transferEntry hfirst x) (ih hrest)

private theorem refcount_transferCaps {msg msg' : Message} {sender receiver : TaskType Process}
    (h : k.transferCaps msg sender receiver = .ok (msg', k')) (x : ℕ) :
    (k.objects x).refcount ≤ (k'.objects x).refcount := by
  cases sender with
  | kernel =>
    cases h
    exact le_rfl
  | user src =>
    cases receiver with
    | kernel =>
      cases h
      exact le_rfl
    | user dst =>
      simp only [transferCaps] at h
      split at h
      · next hrun =>
        cases h
        exact refcount_transferEntries hrun x
      · cases h

private theorem refcount_removeLocked (h : k.removeLocked p idx = .ok k') :
    ∃ live, (k.tables p).getLocked idx = some live ∧ ∀ x,
      (k'.objects x).refcount = (k.objects x).refcount - if x = live.ptr then 1 else 0 := by
  rw [removeLocked] at h
  split at h
  · next hidx =>
    simp only at h
    split at h
    · cases h
    · next htype =>
      cases h
      obtain ⟨type, htype'⟩ := Option.ne_none_iff_exists'.mp htype
      refine ⟨⟨type, _, _, _⟩, CapabilityTable.getLocked_eq_some.mpr
        ⟨hidx, live_eq_some.mpr ⟨htype', rfl, rfl, rfl⟩⟩, fun x => ?_⟩
      rw [refcount_unrefObject]
      rfl
  · cases h

private theorem refcount_deinitSlot (i : Fin capCount) (x : ℕ) :
    ((deinitSlot p k i).objects x).refcount =
      (k.objects x).refcount - ((k.tables p).slots i).names x := by
  rw [deinitSlot]
  split
  · next htype =>
    rw [names_of_null htype]
    rfl
  · next htype =>
    rw [refcount_unrefObject, names_of_type htype, setSlot_objects]
    simp only [eq_comm (a := x)]

private theorem deinitSlot_slots {i j : Fin capCount} (hne : j ≠ i) :
    ((deinitSlot p k i).tables p).slots j = (k.tables p).slots j := by
  rw [deinitSlot]
  split
  · rfl
  · have hplace : (p, j) ≠ (p, i) := fun h => hne (Prod.mk.inj h).2
    show (setSlot k p i _ _).slotAt (p, j) = k.slotAt (p, j)
    rw [setSlot_slotAt, update_of_ne hplace]

private theorem refcount_deinitSlots (cells : List (Fin capCount)) (hnodup : cells.Nodup) (x : ℕ) :
    ((cells.foldl (deinitSlot p) k).objects x).refcount =
      (k.objects x).refcount - (cells.map fun i => ((k.tables p).slots i).names x).sum := by
  induction cells generalizing k with
  | nil => rfl
  | cons i cells ih =>
    obtain ⟨hnot, hrest⟩ := nodup_cons.mp hnodup
    have hsame : (cells.map fun j => (((deinitSlot p k i).tables p).slots j).names x) =
        cells.map fun j => ((k.tables p).slots j).names x := by
      refine map_congr_left fun j hj => ?_
      have hne : j ≠ i := by
        intro heq
        exact hnot (heq ▸ hj)
      rw [deinitSlot_slots hne]
    rw [foldl_cons, ih hrest, hsame, refcount_deinitSlot, map_cons, sum_cons, Nat.sub_sub]

theorem refcount_deinitAll (k : Kernel Process) (p : Process) (x : ℕ) :
    ((k.deinitAll p).objects x).refcount = (k.objects x).refcount - (k.tables p).naming x := by
  rw [deinitAll, refcount_deinitSlots _ (nodup_finRange _), CapabilityTable.naming,
    Counting.total, Fin.sum_univ_def]

end Kernel

open Kernel CapabilityTable

/-- An operation lowers a count at most by the references that it gives up. -/
theorem World.perform_refcount [Fintype Process] {w w' : World Process} {op : Operation Process}
    (ha : w.Accounted) (ho : op.Owned w) (h : w.perform op = .ok w') (x : ℕ) :
    (w.kernel.objects x).refcount ≤ (w'.kernel.objects x).refcount + w.dropped op x := by
  cases op with
  | create ptr =>
    cases h
    rw [refcount_modifyObject]
    split
    · next hx =>
      rw [hx, (ha.destroyed ptr).mp ho]
      exact zero_le _
    · exact le_add_right _ _
  | ref ptr =>
    cases h
    rw [refcount_refObject]
    omega
  | unref ptr =>
    cases h
    rw [refcount_unrefObject, dropped]
    simp only [eq_comm (a := x)]
    omega
  | get p idx =>
    simp only [perform] at h
    split at h
    · cases h
      exact le_add_right _ _
    · next info k hget =>
      cases h
      obtain ⟨_, _, _, _, hk⟩ := getAndRefLocked_eq_some.mp hget
      rw [hk, refcount_refObject]
      omega
  | insert p capType ptr rights =>
    simp only [perform] at h
    obtain ⟨⟨result, k⟩, hinsert, hout⟩ := bind_eq_ok.mp h
    have hsame := insertLocked_objects hinsert
    cases result with
    | ok _ | error _ =>
      cases hout
      rw [hsame]
      exact le_add_right _ _
  | copy p srcIdx newRights =>
    simp only [perform] at h
    obtain ⟨⟨result, k⟩, hcopy, hout⟩ := bind_eq_ok.mp h
    cases hout
    exact le_trans (refcount_copyLocked hcopy x) (le_add_right _ _)
  | transfer msg sender receiver =>
    simp only [perform] at h
    obtain ⟨⟨result, k⟩, hrun, hout⟩ := bind_eq_ok.mp h
    cases hout
    exact le_trans (refcount_transferCaps hrun x) (le_add_right _ _)
  | revoke p idx =>
    simp only [perform, revokeLocked] at h
    split at h
    · next k hrevoke =>
      split at hrevoke
      · cases hrevoke
      · split at hrevoke
        · cases hrevoke
          cases h
          rw [incrementObjectGeneration, refcount_modifyObject]
          split
          · next hx =>
            rw [hx]
            exact le_add_right _ _
          · exact le_add_right _ _
        · cases hrevoke
    · cases h
      exact le_add_right _ _
  | remove p idx =>
    simp only [perform] at h
    split at h
    · next k hremove =>
      cases h
      obtain ⟨live, hlive, hcount⟩ := refcount_removeLocked hremove
      rw [hcount, dropped, hlive]
      simp only [eq_comm (a := x)]
      omega
    · cases h
      exact le_add_right _ _
  | deinitAll p =>
    have hk : w'.kernel = w.kernel.deinitAll p := by
      rw [← Except.ok.inj h]
    rw [hk, refcount_deinitAll, dropped]
    omega
  | move p handle =>
    simp only [perform] at h
    obtain ⟨⟨result, k⟩, hmove, hout⟩ := bind_eq_ok.mp h
    cases hout
    refine le_trans ?_ (le_add_right _ _)
    rw [capMove] at hmove
    split at hmove
    · cases hmove
      exact le_rfl
    · next live hlive =>
      obtain ⟨⟨copied, k₁⟩, hcopy, hrest⟩ := bind_eq_ok.mp hmove
      have hle := refcount_copyLocked hcopy x
      cases copied with
      | error e =>
        cases e with
        | full | notFound =>
          cases hrest
          exact hle
        | rightsEscalation | noRevokeRight => cases hrest
      | ok i =>
        simp only at hrest
        split at hrest
        · next k₂ hremove =>
          cases hrest
          obtain ⟨hidx, hslot⟩ := getLocked_eq_some.mp hlive
          obtain ⟨htype, -⟩ := live_eq_some.mp hslot
          obtain ⟨_, _, hcopy', -, hsteps⟩ :=
            copyLocked_steps ha p handle live.rights
          rw [hcopy] at hcopy'
          cases hcopy'
          -- The copy fills a free slot, so that the original is still in use.
          have hkeep : (k₁.tables p).slots ⟨handle, hidx⟩ =
              (w.kernel.tables p).slots ⟨handle, hidx⟩ :=
            hsteps.slotAt_eq (p := p) (i := ⟨handle, hidx⟩) id (by simp [slotAt, htype])
          obtain ⟨live', hlive', hcount⟩ := refcount_removeLocked hremove
          obtain ⟨_, hslot'⟩ := getLocked_eq_some.mp hlive'
          rw [hkeep, hslot] at hslot'
          cases hslot'
          rw [hcount]
          split
          · next hx =>
            have hmore := refcount_copyLocked_ok hlive hcopy
            rw [hx, hmore]
            exact le_rfl
          · exact hle
        · cases hrest

end Innigkeit.Capabilities

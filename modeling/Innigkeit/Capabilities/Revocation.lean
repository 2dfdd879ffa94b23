import Innigkeit.Capabilities.TableRuns

/-!
Revocation over whole runs. A slot whose stamp differs from the generation of
its object fails the check of every lookup. It keeps failing as long as no
revocation moves the generation to a stamp that a slot of the object still has;
the generation is a word of 32 bits, so that revocations enough in number bring
every old stamp back.
-/

namespace Innigkeit.Capabilities

open Zig Function Transition System Rights

variable {Process : Type} [DecidableEq Process]

namespace Kernel

variable {k : Kernel Process} {p : Process} {i : Fin capCount}

/-- The slot is in use and `getAndRefLocked` refuses it. -/
def FailsCheck (k : Kernel Process) (p : Process) (i : Fin capCount) : Prop :=
  ((k.tables p).getLocked i).isSome = true ∧ k.getAndRefLocked p i = none

omit [DecidableEq Process] in
theorem getLocked_fin (k : Kernel Process) (p : Process) (i : Fin capCount) :
    (k.tables p).getLocked i = (k.slotAt (p, i)).live := by
  rw [CapabilityTable.getLocked, dif_pos i.isLt]
  rfl

omit [DecidableEq Process] in
theorem failsCheck_iff : k.FailsCheck p i ↔ (k.slotAt (p, i)).type ≠ none ∧
    (k.slotAt (p, i)).generation ≠ k.objectGeneration (k.slotAt (p, i)).ptrOrNext := by
  rw [FailsCheck, getAndRefLocked, getLocked_fin, Slot.live]
  cases (k.slotAt (p, i)).type with
  | none => simp
  | some type => simp

/-- No slot of the object carries the stamp that its next revocation comes to. -/
def StampsPassed (k : Kernel Process) (ptr : ℕ) : Prop :=
  ∀ place, (k.slotAt place).type ≠ none → (k.slotAt place).ptrOrNext = ptr →
    (k.slotAt place).generation ≠ k.objectGeneration ptr + 1

end Kernel

namespace World

variable {w w' : World Process} {op : Operation Process} {p : Process} {i : Fin capCount}

/-- An object is revoked only when all its slots have older stamps than the next one. -/
def stampsPassed (w : World Process) : Operation Process → Prop
  | .revoke q idx => ∀ live, (w.kernel.tables q).getLocked idx = some live →
      w.kernel.StampsPassed live.ptr
  | _ => True

/-- The operation takes the slot out of use. -/
def empties (p : Process) (i : Fin capCount) : Operation Process → Prop
  | .remove q idx => q = p ∧ idx = i.val
  | .deinitAll q => q = p
  | _ => False

def runsFrom (w₀ : World Process) : System (World Process) (Operation Process) :=
  System.ofNext (· = w₀) next

open Kernel

section

variable [Fintype Process]

theorem failsCheck_micro {e : Effect Process} (ha : w.Accounted) (hstep : Micro w e w')
    (hclear : e ≠ .clear p i) (hrevoke : ∀ x, e ≠ .revoke x) (h : w.kernel.FailsCheck p i) :
    w'.kernel.FailsCheck p i := by
  rw [failsCheck_iff] at h ⊢
  rw [hstep.slotAt_eq hclear h.1]
  refine ⟨h.1, ?_⟩
  have hpos := ha.refcount_pos h.1
  have hgen : w'.kernel.objectGeneration (w.kernel.slotAt (p, i)).ptrOrNext =
      w.kernel.objectGeneration (w.kernel.slotAt (p, i)).ptrOrNext := by
    refine hstep.generation_eq (hrevoke _) ?_
    intro hcreate
    rw [hcreate] at hstep
    cases hstep with
    | create hdestroyed =>
      -- An object that a slot names is not destroyed.
      exact absurd ((ha.destroyed _).mp hdestroyed) (ne_of_gt hpos)
  rw [hgen]
  exact h.2

theorem failsCheck_steps {allows : Effect Process → Prop} (ha : w.Accounted)
    (hsteps : Steps allows w w') (hclear : ¬ allows (.clear p i))
    (hrevoke : ∀ x, ¬ allows (.revoke x)) (h : w.kernel.FailsCheck p i) :
    w'.kernel.FailsCheck p i := by
  induction hsteps with
  | refl => exact h
  | tail hbefore hstep ih =>
    obtain ⟨e, he, hmicro⟩ := hstep
    refine failsCheck_micro (Steps.accounted hbefore ha) hmicro ?_ ?_ ih
    · intro heq
      exact hclear (heq ▸ he)
    · intro x heq
      exact hrevoke x (heq ▸ he)

end

theorem move_failsCheck (h : w.kernel.FailsCheck p i) : w.perform (.move p i) = .ok w := by
  obtain ⟨hlive, hget⟩ := h
  obtain ⟨live, hlive⟩ := Option.isSome_iff_exists.mp hlive
  simp only [perform, capMove, hlive, copyLocked, hget, ok_bind]

theorem revoke_failsCheck {q : Process} {idx : ℕ} (hpassed : w.stampsPassed (.revoke q idx))
    (hrun : w.perform (.revoke q idx) = .ok w') (h : w.kernel.FailsCheck p i) :
    w'.kernel.FailsCheck p i := by
  simp only [perform, revokeLocked] at hrun
  split at hrun
  · next kernel hrevoke =>
    split at hrevoke
    · cases hrevoke
    · next live hlive =>
      split at hrevoke
      · cases hrevoke
        cases hrun
        rw [failsCheck_iff] at h ⊢
        refine ⟨h.1, ?_⟩
        simp only [incrementObjectGeneration, objectGeneration,
          modifyObject_objects, modifyObject_slotAt, update_apply]
        split
        · next heq => exact hpassed live hlive (p, i) h.1 heq
        · exact h.2
      · cases hrevoke
  · cases hrun
    exact h

theorem failsCheck_next [Fintype Process] (ha : w.Accounted) (hempty : ¬ empties p i op)
    (hpassed : w.stampsPassed op) (hnext : w.next op = some w') (h : w.kernel.FailsCheck p i) :
    w'.kernel.FailsCheck p i := by
  have hsteps := next_steps ha hnext
  obtain ⟨-, hrun⟩ := next_eq_some.mp hnext
  cases op with
  | revoke q idx => exact revoke_failsCheck hpassed hrun h
  | move q idx =>
    by_cases hslot : q = p ∧ idx = i.val
    · rw [hslot.1, hslot.2, move_failsCheck h] at hrun
      cases hrun
      exact h
    · refine failsCheck_steps ha hsteps (fun hclear => ?_) (fun x hx => ?_) h
      · cases hclear with
        | inl hadds => exact hadds
        | inr hremoves => exact hslot ⟨hremoves.1.symm, hremoves.2.symm⟩
      · exact hx.elim id id
  | remove q idx =>
    refine failsCheck_steps ha hsteps (fun hclear => ?_) (fun _ => id) h
    exact hempty ⟨hclear.1.symm, hclear.2.symm⟩
  | deinitAll q =>
    exact failsCheck_steps ha hsteps (fun hclear => hempty hclear.symm) (fun _ => id) h
  | create ptr =>
    exact failsCheck_steps ha hsteps (fun hclear => by cases hclear) (fun _ hx => by cases hx) h
  | ref _ | unref _ | get _ _ | insert _ _ _ _ | copy _ _ _ | transfer _ _ _ =>
    exact failsCheck_steps ha hsteps id (fun _ => id) h

/-- A slot that has failed the check fails it until it is removed, in every run whose
revocations pass no stamp that is still in use. -/
theorem stays_revoked [Fintype Process] {w₀ : World Process}
    (h₀ : system.Reachable anyStep w₀) (hfails : w₀.kernel.FailsCheck p i)
    (h : (runsFrom w₀).Reachable (fun s op => ¬ empties p i op ∧ s.stampsPassed op) w) :
    w.kernel.FailsCheck p i := by
  have ha := reachable_accounted h₀
  refine (@System.Reachable.invariant _ _ _ _
    (fun s => s.Accounted ∧ s.kernel.FailsCheck p i) ?_ ?_ w h).2
  · intro s hs
    rw [show s = w₀ from hs]
    exact ⟨ha, hfails⟩
  · intro s op s' hs hallowed hstep
    exact ⟨(next_steps hs.1 hstep).accounted hs.1,
      failsCheck_next hs.1 hallowed.1 hallowed.2 hstep hs.2⟩

/-- One object in the table of the first process, revoked once. -/
private def revokeOnce : List (Operation Bool) :=
  [.create 4096, .insert false .frame 4096 Rights.all, .revoke false 0]

private theorem revokeOnce_run : ∃ w : World Bool,
    runNext next (blank Bool) revokeOnce = some w ∧
    w.kernel.slotAt (false, 0) = ⟨4096, some .frame, Rights.all, 0⟩ ∧
    w.kernel.objectGeneration 4096 = 1 ∧
    ∀ place, (w.kernel.slotAt place).type ≠ none → (w.kernel.slotAt place).generation = 0 := by
  have hrun : (runNext next (blank Bool) revokeOnce).isSome = true := by decide
  obtain ⟨w, hw⟩ := Option.isSome_iff_exists.mp hrun
  have hslot : (runNext next (blank Bool) revokeOnce).map
      (fun w => (w.kernel.slotAt (false, 0), w.kernel.objectGeneration 4096)) =
      some (⟨4096, some .frame, all, 0⟩, 1) := by decide
  have hstamps : (runNext next (blank Bool) revokeOnce).all
      (fun w => decide (∀ place, (w.kernel.slotAt place).generation = 0)) = true := by
    decide +kernel
  rw [hw] at hslot hstamps
  obtain ⟨hslot, hgen⟩ := Prod.mk.inj (Option.some.inj hslot)
  exact ⟨w, hw, hslot, hgen, fun place _ => of_decide_eq_true hstamps place⟩

theorem stays_revoked_twice : ∃ w₀ w : World Bool,
    w₀.kernel.FailsCheck false 0 ∧ w₀.next (.revoke false 0) = some w ∧
    w.kernel.FailsCheck false 0 := by
  obtain ⟨w₀, hw₀, hslot, hgen, hstamps⟩ := revokeOnce_run
  have hfails : w₀.kernel.FailsCheck false 0 := by
    rw [failsCheck_iff, hslot, hgen]
    decide
  have hlive : (w₀.kernel.tables false).getLocked (0 : Fin capCount) =
      some ⟨.frame, 4096, all, 0⟩ := by
    rw [getLocked_fin, hslot]
    rfl
  have hnext : w₀.next (.revoke false 0) =
      some ⟨w₀.kernel.incrementObjectGeneration 4096, w₀.outstanding⟩ := by
    refine next_eq_some.mpr ⟨trivial, ?_⟩
    simp only [perform, revokeLocked]
    rw [show (w₀.kernel.tables false).getLocked 0 = _ from hlive]
    rfl
  refine ⟨w₀, _, hfails, hnext, stays_revoked (reachable_of_run hw₀) hfails ?_⟩
  refine .step (.init rfl) ⟨id, ?_⟩ hnext
  intro live hlive' place hplace _
  rw [show (w₀.kernel.tables false).getLocked 0 = _ from hlive] at hlive'
  cases hlive'
  rw [hstamps place hplace, hgen]
  decide

section

/-- The state after a number of revocations of the object at `x`. -/
private def revoked (w : World Process) (x n : ℕ) : World Process where
  kernel := w.kernel.modifyObject x fun object =>
    { object with generation := object.generation + BitVec.ofNat 32 n }
  outstanding := w.outstanding

omit [DecidableEq Process] in
private theorem revoked_succ (w : World Process) (x n : ℕ) :
    (revoked w x n).kernel.incrementObjectGeneration x = (revoked w x (n + 1)).kernel := by
  simp only [revoked, incrementObjectGeneration, modifyObject, update_self,
    update_idem, Object.revoke, BitVec.ofNat_add, BitVec.add_assoc]
  rfl

/-- The holder of one slot with the revoke right brings the generation to any value. -/
theorem revoke_reaches {idx : ℕ} {live : LiveSlot}
    (hlive : (w.kernel.tables p).getLocked idx = some live) (hright : live.rights.revoke = true)
    (n : ℕ) : (runsFrom w).Reachable (fun _ op => op = .revoke p idx) (revoked w live.ptr n) := by
  induction n with
  | zero =>
    refine .init (show revoked w live.ptr 0 = w from ?_)
    simp [revoked, modifyObject]
  | succ n ih =>
    refine .step ih rfl (show next _ (.revoke p idx) = _ from next_eq_some.mpr ⟨trivial, ?_⟩)
    have htable : ((revoked w live.ptr n).kernel.tables p).getLocked idx = some live := hlive
    simp only [perform, revokeLocked, htable, hright, if_true, revoked_succ]
    rfl

/-- The slot is stale after one revocation and valid after 2 ^ 32 of them. -/
theorem revoked_slot_returns : ∃ w₀ w : World Bool,
    system.Reachable anyStep w₀ ∧ w₀.kernel.FailsCheck false 0 ∧
    (runsFrom w₀).Reachable (fun _ op => ¬ empties false 0 op) w ∧
    ¬ w.kernel.FailsCheck false 0 := by
  obtain ⟨w₀, hw₀, hslot, hgen, -⟩ := revokeOnce_run
  have hlive : (w₀.kernel.tables false).getLocked (0 : Fin capCount) =
      some ⟨.frame, 4096, all, 0⟩ := by
    rw [getLocked_fin, hslot]
    rfl
  refine ⟨w₀, revoked w₀ 4096 (2 ^ 32 - 1), reachable_of_run hw₀, ?_, ?_, ?_⟩
  · rw [failsCheck_iff, hslot, hgen]
    decide
  · refine (revoke_reaches hlive rfl (2 ^ 32 - 1)).mono ?_
    intro s op hop
    rw [hop]
    exact id
  · rw [failsCheck_iff]
    have hback : (revoked w₀ 4096 (2 ^ 32 - 1)).kernel.objectGeneration 4096 =
        w₀.kernel.objectGeneration 4096 + BitVec.ofNat 32 (2 ^ 32 - 1) := by
      simp only [objectGeneration, revoked, modifyObject_objects, update_self]
    have hsame : (revoked w₀ 4096 (2 ^ 32 - 1)).kernel.slotAt (false, 0) =
        w₀.kernel.slotAt (false, 0) := rfl
    rw [hsame, hslot]
    simp only [hback, hgen]
    decide

end

end World

end Innigkeit.Capabilities

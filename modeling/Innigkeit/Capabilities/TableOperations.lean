import Innigkeit.Capabilities.Accounting
import Innigkeit.Library.Transition

/-!
The table operations cut into effects, and the runs of the operations. In every
run the null slots of a table are the slots on its free list, and the count of
an object is the number of slots that name it plus its outstanding references.
-/

namespace Innigkeit.Capabilities

open Zig Function Transition Option CapabilityTable Steps Effect List

variable {Process : Type} [DecidableEq Process]

namespace Effect

def Adds : Effect Process → Prop
  | .ref _ | .unref _ | .fill _ _ => True
  | .clear _ _ | .revoke _ | .create _ => False

def Removes (places : Process → Fin capCount → Prop) : Effect Process → Prop
  | .unref _ => True
  | .clear p i => places p i
  | .ref _ | .fill _ _ | .revoke _ | .create _ => False

end Effect

variable {e : Effect Process} {i : Fin capCount}

open Kernel

theorem Micro.slotAt_eq {w w' : World Process} {p : Process} (hstep : Micro w e w')
    (he : e ≠ .clear p i)
    (hi : (w.kernel.slotAt (p, i)).type ≠ none) :
    w'.kernel.slotAt (p, i) = w.kernel.slotAt (p, i) := by
  cases hstep with
  | ref | unref | revoke | create => rfl
  | fill hfree =>
    rename_i k _ _ q j _ _
    rw [setSlot_slotAt, update_of_ne]
    intro heq
    cases heq
    exact hi ((hfree.mem_iff i).mp mem_cons_self)
  | clear =>
    rename_i k _ q j _ _ _ _
    rw [setSlot_slotAt, update_of_ne]
    intro heq
    cases heq
    exact he rfl

theorem Micro.generation_eq {w w' : World Process} {x : ℕ}
    (hstep : Micro w e w') (hrevoke : e ≠ .revoke x) (hcreate : e ≠ .create x) :
    w'.kernel.objectGeneration x = w.kernel.objectGeneration x := by
  have hother {k : Kernel Process} {y : ℕ} {f : Object → Object} (hxy : x ≠ y) :
      (k.modifyObject y f).objectGeneration x = k.objectGeneration x := by
    simp only [objectGeneration, modifyObject_objects, update_of_ne hxy]
  have hsame {k : Kernel Process} {y : ℕ} {f : Object → Object}
      (hf : ∀ object, (f object).generation = object.generation) :
      (k.modifyObject y f).objectGeneration x = k.objectGeneration x := by
    by_cases hxy : x = y
    · rw [hxy, objectGeneration, modifyObject_objects, update_self, hf, objectGeneration]
    · exact hother hxy
  cases hstep with
  | ref | unref => exact hsame fun _ => rfl
  | fill | clear => rfl
  | revoke => exact hother fun heq => hrevoke (by rw [heq])
  | create => exact hother (f := fun _ => {}) fun heq => hcreate (by rw [heq])

namespace Steps

variable {w w' : World Process} {allows allows' : Effect Process → Prop}

theorem refl (w : World Process) : Steps allows w w :=
  Relation.ReflTransGen.refl

theorem single (h : Micro w e w') (he : allows e) : Steps allows w w' :=
  Relation.ReflTransGen.single ⟨e, he, h⟩

theorem trans {w₁ : World Process} (h₁ : Steps allows w w₁) (h₂ : Steps allows w₁ w') :
    Steps allows w w' := Relation.ReflTransGen.trans h₁ h₂

theorem mono (hle : ∀ e, allows e → allows' e) (h : Steps allows w w') : Steps allows' w w' := by
  induction h with
  | refl => exact refl w
  | tail _ hstep ih =>
    obtain ⟨e, he, hmicro⟩ := hstep
    exact ih.trans (single hmicro (hle e he))

theorem slotAt_eq {p : Process} (h : Steps allows w w')
    (hclear : ¬ allows (.clear p i)) (hi : (w.kernel.slotAt (p, i)).type ≠ none) :
    w'.kernel.slotAt (p, i) = w.kernel.slotAt (p, i) := by
  induction h with
  | refl => rfl
  | tail _ hstep ih =>
    obtain ⟨e, he, hmicro⟩ := hstep
    rw [← ih]
    refine hmicro.slotAt_eq ?_ (ih ▸ hi)
    intro heq
    exact hclear (heq ▸ he)

theorem generation_eq (h : Steps allows w w') (x : ℕ) (hrevoke : ¬ allows (.revoke x))
    (hcreate : ¬ allows (.create x)) :
    w'.kernel.objectGeneration x = w.kernel.objectGeneration x := by
  induction h with
  | refl => rfl
  | tail _ hstep ih =>
    obtain ⟨e, he, hmicro⟩ := hstep
    rw [← ih]
    refine hmicro.generation_eq ?_ ?_
    · intro heq
      exact hrevoke (heq ▸ he)
    · intro heq
      exact hcreate (heq ▸ he)

theorem slotAt_of_removes {places : Process → Fin capCount → Prop}
    (h : Steps (Removes places) w w') {place : Process × Fin capCount}
    (huse : (w'.kernel.slotAt place).type ≠ none) :
    w'.kernel.slotAt place = w.kernel.slotAt place := by
  induction h with
  | refl => rfl
  | tail _ hstep ih =>
    obtain ⟨e, he, hmicro⟩ := hstep
    cases hmicro with
    | unref => exact ih huse
    | clear hi hslot hnext =>
      rw [Kernel.setSlot_slotAt] at huse ⊢
      rw [update_apply] at huse ⊢
      split at huse
      · exact absurd hslot huse
      · next hne =>
        rw [if_neg hne]
        exact ih huse
    | ref | fill | revoke | create => exact he.elim

end Steps

namespace Kernel

variable {k k₁ k' : Kernel Process} {p : Process} {idx : ℕ} {info : SlotInfo} {out out' : List ℕ}

section

omit [DecidableEq Process]

/-- The same tables and generations; only reference counts may differ. -/
structure Alike (k k' : Kernel Process) : Prop where
  tables : k'.tables = k.tables
  generation : ∀ x, k'.objectGeneration x = k.objectGeneration x

theorem Alike.slotAt (h : k.Alike k') : k'.slotAt = k.slotAt := by
  funext place
  rw [Kernel.slotAt, h.tables, Kernel.slotAt]

theorem Alike.trans (h : k.Alike k₁) (h' : k₁.Alike k') : k.Alike k' :=
  ⟨h'.tables.trans h.tables, fun x => (h'.generation x).trans (h.generation x)⟩

theorem alike_refl (k : Kernel Process) : k.Alike k := ⟨rfl, fun _ => rfl⟩

theorem alike_refObject (k : Kernel Process) (x : ℕ) : k.Alike (k.refObject x) := by
  refine ⟨rfl, fun y => ?_⟩
  simp only [objectGeneration, refObject, modifyObject_objects, update_apply]
  split
  · next heq => rw [heq]; rfl
  · rfl

theorem alike_unrefObject (k : Kernel Process) (x : ℕ) : k.Alike (k.unrefObject x) := by
  refine ⟨rfl, fun y => ?_⟩
  simp only [objectGeneration, unrefObject, modifyObject_objects, update_apply]
  split
  · next heq => rw [heq]; rfl
  · rfl

theorem getAndRefLocked_eq_some :
    k.getAndRefLocked p idx = some (info, k') ↔
      ∃ live, (k.tables p).getLocked idx = some live ∧
        live.generation = k.objectGeneration live.ptr ∧ info = live.info ∧
        k' = k.refObject info.ptr := by
  rw [getAndRefLocked]
  split
  · next hnone => simp [hnone]
  · next live hlive =>
    rw [hlive]
    split
    · next hgen =>
      simp only [reduceCtorEq, some.injEq, false_iff]
      intro h
      obtain ⟨_, rfl, heq, _⟩ := h
      exact hgen heq
    · next hgen =>
      rw [not_not] at hgen
      simp only [some.injEq, Prod.mk.injEq]
      constructor
      · intro h
        exact ⟨live, rfl, hgen, h.1.symm, by rw [← h.2, ← h.1]; rfl⟩
      · intro h
        obtain ⟨_, rfl, _, hinfo, hk⟩ := h
        exact ⟨hinfo.symm, by rw [hk, hinfo]; rfl⟩

end

section

variable [Fintype Process]

theorem getAndRefLocked_micro (h : World.Accounted ⟨k, out⟩)
    (hget : k.getAndRefLocked p idx = some (info, k')) :
    Micro ⟨k, out⟩ (.ref info.ptr) ⟨k', info.ptr :: out⟩ := by
  obtain ⟨live, hlive, _, hinfo, hk⟩ := getAndRefLocked_eq_some.mp hget
  obtain ⟨hidx, hslot⟩ := getLocked_eq_some.mp hlive
  obtain ⟨htype, hptr, _, _⟩ := Slot.live_eq_some.mp hslot
  rw [hk]
  refine Micro.ref ?_
  have hpos := h.refcount_pos (p := p) (i := ⟨idx, hidx⟩) (by simp [htype])
  rw [hinfo, LiveSlot.info, ← hptr]
  exact hpos

end

theorem insertOrUnref_steps (hwf : (k.tables p).WellFormed) (hout : out.Perm (info.ptr :: out')) :
    ∃ result k', k.insertOrUnref p info = .ok (result, k') ∧ (∀ e, result = .error e → e = .full) ∧
      Steps Adds ⟨k, out⟩ ⟨k', out'⟩ := by
  obtain ⟨cells, hfree⟩ := hwf
  cases cells with
  | nil =>
    have hmicro : Micro ⟨k, out⟩ (.unref info.ptr) ⟨k.unrefObject info.ptr, out'⟩ := .unref hout
    refine ⟨.error .full, _, ?_, ?_, single hmicro trivial⟩
    · rw [insertOrUnref, insertLocked_of_nil hfree]
      rfl
    · intro e he
      cases he
      rfl
  | cons i cells =>
    let slot := k.newSlot info.capType info.ptr info.rights
    have hmicro : Micro ⟨k, out⟩ (.fill p i)
        ⟨k.setSlot p i slot ((k.tables p).slots i).ptrOrNext, out'⟩ :=
      .fill hfree (some_ne_none _) rfl hout
    refine ⟨.ok i, _, ?_, ?_, single hmicro trivial⟩
    · rw [insertOrUnref, insertLocked_of_cons hfree]
      rfl
    · intro e he
      cases he

section

variable [Fintype Process]

section

variable (h : World.Accounted ⟨k, out⟩)
include h

theorem copyLocked_steps (p : Process) (idx : ℕ) (newRights : Rights) :
    ∃ result k', k.copyLocked p idx newRights = .ok (result, k') ∧
      (∀ live, (k.tables p).getLocked idx = some live → rightsSubset newRights live.rights →
        ∀ e, result = .error e → e = .notFound ∨ e = .full) ∧
      Steps Adds ⟨k, out⟩ ⟨k', out⟩ := by
  rw [copyLocked]
  cases hget : k.getAndRefLocked p idx with
  | none =>
    refine ⟨_, _, rfl, ?_, refl _⟩
    intro _ _ _ e he
    cases he
    exact .inl rfl
  | some snapshot =>
    obtain ⟨src, k₁⟩ := snapshot
    have href := getAndRefLocked_micro h hget
    have hsrc := href.accounted h
    have hfirst : Steps Adds ⟨k, out⟩ ⟨k₁, src.ptr :: out⟩ := single href trivial
    simp only
    split
    · obtain ⟨result, k', hrun, hfull, hsteps⟩ :=
        @insertOrUnref_steps _ _ k₁ p { src with rights := newRights } (src.ptr :: out) out
          (hsrc.wellFormed p) (Perm.refl _)
      exact ⟨result, k', hrun, fun _ _ _ e he => .inr (hfull e he), hfirst.trans hsteps⟩
    · next hsub =>
      have hunref : Micro ⟨k₁, src.ptr :: out⟩ (.unref src.ptr) ⟨k₁.unrefObject src.ptr, out⟩ :=
        .unref (Perm.refl _)
      refine ⟨_, _, rfl, ?_, hfirst.trans (single hunref trivial)⟩
      intro live hlive hsubset
      obtain ⟨live', hlive', _, hinfo, _⟩ := getAndRefLocked_eq_some.mp hget
      rw [hlive] at hlive'
      cases hlive'
      rw [hinfo] at hsub
      exact absurd hsubset hsub

theorem transferEntry_steps (src dst : Process) (handle : BitVec 32) :
    ∃ handle' k', k.transferEntry src dst handle = .ok (handle', k') ∧
      Steps Adds ⟨k, out⟩ ⟨k', out⟩ := by
  rw [transferEntry]
  split
  · exact ⟨_, _, rfl, refl _⟩
  cases hget : k.getAndRefLocked src handle.toNat with
  | none => exact ⟨_, _, rfl, refl _⟩
  | some snapshot =>
    obtain ⟨info, k₁⟩ := snapshot
    have href := getAndRefLocked_micro h hget
    have hinfo := href.accounted h
    have hfirst : Steps Adds ⟨k, out⟩ ⟨k₁, info.ptr :: out⟩ := single href trivial
    simp only
    split
    · obtain ⟨result, k', hrun, -, hsteps⟩ :=
        insertOrUnref_steps (hinfo.wellFormed dst) (Perm.refl _)
      rw [hrun, ok_bind]
      cases result with
      | ok _ | error _ => exact ⟨_, k', rfl, hfirst.trans hsteps⟩
    · have hunref : Micro ⟨k₁, info.ptr :: out⟩ (.unref info.ptr)
          ⟨k₁.unrefObject info.ptr, out⟩ := .unref (Perm.refl _)
      exact ⟨_, _, rfl, hfirst.trans (single hunref trivial)⟩

theorem transferEntries_steps (src dst : Process) (handles : List (BitVec 32)) :
    ∃ handles' k', k.transferEntries src dst handles = .ok (handles', k') ∧
      Steps Adds ⟨k, out⟩ ⟨k', out⟩ := by
  induction handles generalizing k with
  | nil => exact ⟨_, _, rfl, refl _⟩
  | cons handle handles ih =>
    obtain ⟨handle', k₁, hfirst, hsteps⟩ := transferEntry_steps h src dst handle
    obtain ⟨handles', k', hrest, hsteps'⟩ := ih (hsteps.accounted h)
    refine ⟨handle' :: handles', k', ?_, hsteps.trans hsteps'⟩
    simp only [transferEntries, hfirst, hrest, ok_bind]

theorem transferCaps_steps (msg : Message) (sender receiver : TaskType Process) :
    ∃ msg' k', k.transferCaps msg sender receiver = .ok (msg', k') ∧
      Steps Adds ⟨k, out⟩ ⟨k', out⟩ := by
  cases sender with
  | kernel => exact ⟨msg, k, rfl, refl _⟩
  | user src =>
    cases receiver with
    | kernel => exact ⟨msg, k, rfl, refl _⟩
    | user dst =>
      obtain ⟨handles', k', hrun, hsteps⟩ := transferEntries_steps h src dst msg.caps.val
      simp only [transferCaps]
      split
      · next hok =>
        rw [hrun] at hok
        cases hok
        exact ⟨_, k', rfl, hsteps⟩
      · next herror =>
        rw [hrun] at herror
        cases herror

end

end

private theorem emptied_steps {places : Process → Fin capCount → Prop}
    {slot : Slot} (hi : ((k.tables p).slots i).type ≠ none) (hslot : slot.type = none)
    (hnext : slot.ptrOrNext = (k.tables p).freeHead) (hplace : places p i) :
    Steps (Removes places) ⟨k, out⟩
      ⟨(k.setSlot p i slot i).unrefObject ((k.tables p).slots i).ptrOrNext, out⟩ := by
  have hclear : Micro ⟨k, out⟩ (.clear p i)
      ⟨k.setSlot p i slot i, ((k.tables p).slots i).ptrOrNext :: out⟩ := .clear hi hslot hnext
  exact (single hclear hplace).trans (single (.unref (Perm.refl _)) trivial)

theorem removeLocked_steps (out : List ℕ) (hremove : k.removeLocked p idx = .ok k') :
    ∃ i : Fin capCount, i.val = idx ∧
      Steps (Removes fun q j => q = p ∧ j = i) ⟨k, out⟩ ⟨k', out⟩ := by
  rw [removeLocked] at hremove
  split at hremove
  · next hidx =>
    simp only at hremove
    split at hremove
    · cases hremove
    · next htype =>
      cases hremove
      exact ⟨⟨idx, hidx⟩, rfl, emptied_steps htype rfl rfl ⟨rfl, rfl⟩⟩
  · cases hremove

theorem deinitSlot_steps (i : Fin capCount) :
    Steps (Removes fun q _ => q = p) ⟨k, out⟩ ⟨deinitSlot p k i, out⟩ := by
  rw [deinitSlot]
  split
  · exact refl _
  · next htype =>
    exact emptied_steps htype rfl rfl rfl

theorem deinitAll_steps (k : Kernel Process) (p : Process) (out : List ℕ) :
    Steps (Removes fun q _ => q = p) ⟨k, out⟩ ⟨k.deinitAll p, out⟩ := by
  rw [deinitAll]
  induction finRange capCount generalizing k with
  | nil => exact refl _
  | cons i rest ih => exact (deinitSlot_steps i).trans (ih (deinitSlot p k i))

theorem capMove_steps [Fintype Process] (h : World.Accounted ⟨k, out⟩) (p : Process) (idx : ℕ) :
    ∃ result k', k.capMove p idx = .ok (result, k') ∧
      Steps (fun e => e.Adds ∨ e.Removes fun q j => q = p ∧ j.val = idx) ⟨k, out⟩ ⟨k', out⟩ := by
  rw [capMove]
  cases hget : (k.tables p).getLocked idx with
  | none => exact ⟨_, _, rfl, refl _⟩
  | some live =>
    obtain ⟨result, k₁, hcopy, herror, hsteps⟩ := copyLocked_steps h p idx live.rights
    have hadds := hsteps.mono fun e he =>
      (Or.inl he : e.Adds ∨ e.Removes fun q j => q = p ∧ j.val = idx)
    have hsame : rightsSubset live.rights live.rights = true := by
      simp [rightsSubset]
    simp only [hcopy, ok_bind]
    cases result with
    | error e =>
      cases herror live hget hsame e rfl with
      | inl hnotFound =>
        rw [hnotFound]
        exact ⟨_, _, rfl, hadds⟩
      | inr hfull =>
        rw [hfull]
        exact ⟨_, _, rfl, hadds⟩
    | ok newIdx =>
      obtain ⟨hidx, hlive⟩ := getLocked_eq_some.mp hget
      obtain ⟨htype, -⟩ := Slot.live_eq_some.mp hlive
      -- The copy fills a free slot, so that the original is still in use.
      have hkeep : (k₁.tables p).slots ⟨idx, hidx⟩ = (k.tables p).slots ⟨idx, hidx⟩ :=
        hsteps.slotAt_eq (p := p) (i := ⟨idx, hidx⟩) id (by simp [slotAt, htype])
      simp only
      cases hremove : k₁.removeLocked p idx with
      | error e =>
        simp [removeLocked, hidx, hkeep, htype] at hremove
      | ok k' =>
        obtain ⟨i, rfl, hsteps'⟩ := removeLocked_steps out hremove
        refine ⟨_, k', rfl, hadds.trans (hsteps'.mono fun e he => .inr ?_)⟩
        cases e with
        | clear q j => exact ⟨he.1, congrArg Fin.val he.2⟩
        | _ => exact he

end Kernel

end Innigkeit.Capabilities

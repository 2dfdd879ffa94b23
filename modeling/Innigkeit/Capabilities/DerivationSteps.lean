import Innigkeit.Capabilities.Derivation

/-!
What a step of the derivation machine can do, said once: it leaves the slots,
the generations and the records as they are, or it makes an object, leaves a
validated reference with a thread, fills a slot from a reference, removes slots
or revokes an object. The accounts of references are kept by every step.
-/

namespace Innigkeit.Capabilities.Machine

open Zig Function Transition List Option Kernel System Micro

variable {Agent Process : Type} [DecidableEq Agent] [DecidableEq Process]
  {m m' : Machine Agent Process} {l : Step Agent Process}

def world (m : Machine Agent Process) : World Process :=
  ⟨m.kernel, m.references.map fun r => r.info.ptr⟩

/-- Slots, generations and records are the same. -/
structure Frame (m m' : Machine Agent Process) : Prop where
  slotAt : m'.kernel.slotAt = m.kernel.slotAt
  generation : ∀ x, m'.kernel.objectGeneration x = m.kernel.objectGeneration x
  revokes : m'.revokes = m.revokes
  origin : m'.origin = m.origin

inductive Stepped (m : Machine Agent Process) : Step Agent Process → Machine Agent Process → Prop
  | kept {l : Step Agent Process} {m' : Machine Agent Process} (hframe : Frame m m')
      (hrefs : ∀ r ∈ m'.references, r ∈ m.references ∨ r.origin = {}) : Stepped m l m'
  | created {a : Agent} {p : Process} {capType : ObjectType} {ptr : ℕ} {rights : Rights}
      {m' : Machine Agent Process} (hdestroyed : (m.kernel.objects ptr).destroyed = true)
      (hslots : m'.kernel.slotAt = m.kernel.slotAt)
      (hgen : ∀ x ≠ ptr, m'.kernel.objectGeneration x = m.kernel.objectGeneration x)
      (hrevokes : ∀ x ≠ ptr, m'.revokes x = m.revokes x) (horigin : m'.origin = m.origin)
      (hrefs : ∀ r ∈ m'.references, r ∈ m.references ∨ r.origin = {}) :
      Stepped m (.create a p capType ptr rights) m'
  | resolved {a : Agent} {path : Path Process} {p : Process} {i : Fin capCount} {live : LiveSlot}
      {rights : Rights} {m' : Machine Agent Process} (hframe : Frame m m')
      (hlive : (m.kernel.slotAt (p, i)).live = some live)
      (hpasses : live.generation = m.kernel.objectGeneration live.ptr)
      (hcheck : path.check live.info = some rights)
      (hrefs : ∀ r ∈ m'.references, r ∈ m.references ∨ r.origin = {} ∨
        r = m.derived a path p i live.info rights) :
      Stepped m (.validate a path p i) m'
  | filled {a : Agent} {r : Reference Agent Process} {p : Process} {i : Fin capCount}
      {m' : Machine Agent Process} (hr : r ∈ m.references) (htarget : r.target = some p)
      (hslots : m'.kernel.slotAt = update m.kernel.slotAt (p, i)
        (m.kernel.newSlot r.info.capType r.info.ptr r.info.rights))
      (hgen : ∀ x, m'.kernel.objectGeneration x = m.kernel.objectGeneration x)
      (hrevokes : m'.revokes = m.revokes) (horigin : m'.origin = update m.origin (p, i) r.origin)
      (hrefs : ∀ r' ∈ m'.references, r' ∈ m.references) : Stepped m (.insert a r) m'
  | removed {l : Step Agent Process} {m' : Machine Agent Process}
      (hslots : ∀ place, (m'.kernel.slotAt place).type ≠ none →
        m'.kernel.slotAt place = m.kernel.slotAt place)
      (hgen : ∀ x, m'.kernel.objectGeneration x = m.kernel.objectGeneration x)
      (hrevokes : m'.revokes = m.revokes) (horigin : m'.origin = m.origin)
      (hrefs : m'.references = m.references) : Stepped m l m'
  | revoked {a : Agent} {p : Process} {idx : ℕ} {live : LiveSlot} {m' : Machine Agent Process}
      (hlive : (m.kernel.tables p).getLocked idx = some live)
      (hkernel : m'.kernel = m.kernel.incrementObjectGeneration live.ptr)
      (hrevokes : ∀ x ≠ live.ptr, m'.revokes x = m.revokes x) (horigin : m'.origin = m.origin)
      (hrefs : m'.references = m.references) : Stepped m (.revoke a p idx) m'

section

variable {k : Kernel Process} {locks : Process → Option Agent}
  {references : List (Reference Agent Process)}

omit [DecidableEq Agent] [DecidableEq Process]

private theorem frame_of_alike (h : m.kernel.Alike k) :
    Frame m { m with kernel := k, locks, references } :=
  ⟨h.slotAt, h.generation, rfl, rfl⟩

private theorem erase_subset [DecidableEq Agent] [DecidableEq Process]
    (r : Reference Agent Process) : ∀ r' ∈ m.references.erase r, r' ∈ m.references :=
  fun _ h => mem_of_mem_erase h

end

variable {rights : Rights}

omit [DecidableEq Agent] in
/-- The reference that was left with the thread, besides snapshots. -/
private theorem resolve_stepped {a : Agent} {path : Path Process} {p : Process} {idx : ℕ}
    {info : SlotInfo} {k : Kernel Process} (hget : m.kernel.getAndRefLocked p idx = some (info, k))
    (hcheck : path.check info = some rights) :
    Stepped m (.validate a path p idx) (m.resolve k a path p idx info rights) := by
  obtain ⟨live, hlive, hpasses, hinfo, hk⟩ := getAndRefLocked_eq_some.mp hget
  obtain ⟨hidx, hslot⟩ := CapabilityTable.getLocked_eq_some.mp hlive
  have halike : m.kernel.Alike k := hk ▸ alike_refObject m.kernel info.ptr
  subst hinfo
  obtain ⟨i, rfl⟩ : ∃ i : Fin capCount, i.val = idx := ⟨⟨idx, hidx⟩, rfl⟩
  refine .resolved (i := i) ?_ hslot hpasses hcheck ?_
  · cases path with
    | clone => exact frame_of_alike (halike.trans (alike_refObject k live.info.ptr))
    | copy | transfer | grant => exact frame_of_alike halike
  · intro r hr
    cases path with
    | clone =>
      simp only [resolve, mem_cons] at hr
      cases hr with
      | inl hr => exact .inr (.inr hr)
      | inr hr =>
        cases hr with
        | inl hr => exact .inr (.inl (by rw [hr]))
        | inr hr => exact .inl hr
    | copy | transfer | grant =>
      simp only [resolve, mem_cons] at hr
      cases hr with
      | inl hr => exact .inr (.inr hr)
      | inr hr => exact .inl hr

section

variable [Fintype Process] {k : Kernel Process} {r : Reference Agent Process}

omit [Fintype Process] in
private theorem outstanding_erase (hr : r ∈ m.references) :
    (m.references.map fun r => r.info.ptr).Perm
      (r.info.ptr :: (m.references.erase r).map fun r => r.info.ptr) :=
  (perm_cons_erase hr).map _

omit [DecidableEq Process] [DecidableEq Agent] in
private theorem refcount_pos_of_mem (ha : m.world.Accounted) (hr : r ∈ m.references) :
    0 < (m.kernel.objects r.info.ptr).refcount := by
  have hcount : (m.kernel.objects r.info.ptr).refcount = m.kernel.naming r.info.ptr +
      (m.references.map fun r => r.info.ptr).count r.info.ptr := ha.refcount r.info.ptr
  have hmem : 0 < (m.references.map fun r => r.info.ptr).count r.info.ptr :=
    count_pos_iff.mpr (List.mem_map_of_mem hr)
  omega

variable {a : Agent} {path : Path Process} {p : Process} {idx : ℕ}

omit [DecidableEq Agent] in
private theorem resolve_accounted {info : SlotInfo} (rights : Rights) (ha : m.world.Accounted)
    (hget : m.kernel.getAndRefLocked p idx = some (info, k)) :
    (m.resolve k a path p idx info rights).world.Accounted := by
  have href := getAndRefLocked_micro ha hget
  have hheld := href.accounted ha
  cases path with
  | copy | transfer | grant => exact hheld
  | clone =>
    have hpos : 0 < (k.objects info.ptr).refcount := by
      have hcount := hheld.refcount info.ptr
      simp only [count_cons_self] at hcount
      omega
    exact (ref hpos).accounted hheld

structure Kept (m : Machine Agent Process) (l : Step Agent Process) (m' : Machine Agent Process) :
    Prop where
  stepped : Stepped m l m'
  accounted : m'.world.Accounted

section

variable (ha : m.world.Accounted)
include ha

omit [DecidableEq Agent] in
private theorem kept_same {locks : Process → Option Agent} : Kept m l { m with locks } :=
  ⟨.kept (frame_of_alike (alike_refl _)) fun _ => .inl, ha⟩

omit [DecidableEq Agent] in
private theorem kept_of_steps {places : Process → Fin capCount → Prop}
    (h : Steps (Effect.Removes places) m.world ⟨k, m.world.outstanding⟩) :
    Kept m l { m with kernel := k } where
  stepped := .removed (fun _ huse => h.slotAt_of_removes huse) (fun x => h.generation_eq x id id)
    rfl rfl rfl
  accounted := h.accounted ha

private theorem validate_kept
    (h : m.next (.validate a path p idx) = some m') : Kept m (.validate a path p idx) m' := by
  simp only [next] at h
  split at h
  · cases hget : m.kernel.getAndRefLocked p idx with
    | none =>
      rw [hget] at h
      cases h
      exact kept_same ha
    | some snapshot =>
      obtain ⟨info, k⟩ := snapshot
      rw [hget] at h
      simp only at h
      cases hcheck : path.check info with
      | none =>
        rw [hcheck] at h
        cases h
        obtain ⟨_, _, _, _, hk⟩ := getAndRefLocked_eq_some.mp hget
        have halike : m.kernel.Alike k := hk ▸ alike_refObject m.kernel info.ptr
        have href := getAndRefLocked_micro ha hget
        exact ⟨.kept (frame_of_alike (halike.trans (alike_unrefObject k info.ptr)))
          fun _ => .inl, (unref (List.Perm.refl _)).accounted (href.accounted ha)⟩
      | some rights =>
        rw [hcheck] at h
        cases h
        exact ⟨resolve_stepped hget hcheck, resolve_accounted rights ha hget⟩
  · cases h

private theorem insert_kept (h : m.next (.insert a r) = some m') : Kept m (.insert a r) m' := by
  simp only [next] at h
  split at h
  · cases h
  · next p htarget =>
    split at h
    · next hcond =>
      have hperm := outstanding_erase hcond.1
      obtain ⟨cells, hcells⟩ := ha.wellFormed p
      have hfree : (m.kernel.tables p).FreeSlots cells := hcells
      cases cells with
      | nil =>
        rw [insertLocked_of_nil hfree] at h
        cases h
        exact ⟨.kept (frame_of_alike (alike_unrefObject _ _))
          fun r' hr' => .inl (erase_subset r r' hr'), (unref hperm).accounted ha⟩
      | cons i cells =>
        rw [insertLocked_of_cons hfree] at h
        cases h
        let slot := m.kernel.newSlot r.info.capType r.info.ptr r.info.rights
        have hfill : Micro m.world (.fill p i)
            ⟨m.kernel.setSlot p i slot ((m.kernel.tables p).slots i).ptrOrNext,
              (m.references.erase r).map fun r => r.info.ptr⟩ :=
          .fill hfree (some_ne_none _) rfl hperm
        exact ⟨.filled hcond.1 htarget (setSlot_slotAt ..) (fun _ => rfl) rfl rfl
          (erase_subset r), hfill.accounted ha⟩
    · cases h

private theorem revoke_kept
    (h : m.next (.revoke a p idx) = some m') : Kept m (.revoke a p idx) m' := by
  simp only [next, revokeLocked] at h
  split at h
  · cases hlive : (m.kernel.tables p).getLocked idx with
    | none =>
      rw [hlive] at h
      cases h
      exact kept_same ha
    | some live =>
      rw [hlive] at h
      simp only at h
      split at h
      · next live' _ hpair hrevoke =>
        cases hpair
        split at hrevoke
        · cases hrevoke
          cases h
          exact ⟨.revoked hlive rfl (fun x hx => update_of_ne hx _ _) rfl rfl,
            revoke.accounted ha⟩
        · cases hrevoke
      · cases h
        exact kept_same ha
  · cases h

theorem next_kept (h : m.next l = some m') : Kept m l m' := by
  cases l with
  | validate a path p idx => exact validate_kept ha h
  | insert a r => exact insert_kept ha h
  | revoke a p idx => exact revoke_kept ha h
  | lock a p | unlock a p =>
    simp only [next] at h
    split at h
    · cases h
      exact kept_same ha
    · cases h
  | create a p capType ptr rights =>
    simp only [next] at h
    split at h
    · next hdestroyed =>
      cases h
      refine ⟨.created hdestroyed rfl (fun x hx => ?_) (fun x hx => update_of_ne hx _ _) rfl ?_,
        (create hdestroyed).accounted ha⟩
      · simp only [objectGeneration, modifyObject_objects, update_of_ne hx]
      · intro r hr
        cases mem_cons.mp hr with
        | inl hr => exact .inr (by rw [hr])
        | inr hr => exact .inl hr
    · cases h
  | share a r p rights =>
    simp only [next] at h
    split at h
    · next hcond =>
      cases h
      refine ⟨.kept (frame_of_alike (alike_refObject _ _)) fun r' hr' => ?_,
        (ref (refcount_pos_of_mem ha hcond.1)).accounted ha⟩
      cases mem_cons.mp hr' with
      | inl hr' => exact .inr (by rw [hr'])
      | inr hr' => exact .inl hr'
    · cases h
  | drop a r =>
    simp only [next] at h
    split at h
    · next hcond =>
      cases h
      exact ⟨.kept (frame_of_alike (alike_unrefObject _ _))
        fun r' hr' => .inl (erase_subset r r' hr'),
        (unref (outstanding_erase hcond.1)).accounted ha⟩
    · cases h
  | remove a p idx =>
    simp only [next] at h
    split at h
    · split at h
      · next k hremove =>
        cases h
        obtain ⟨i, -, hsteps⟩ := removeLocked_steps _ hremove
        exact kept_of_steps ha hsteps
      · cases h
        exact kept_same ha
    · cases h
  | deinitAll a p =>
    simp only [next] at h
    split at h
    · have hsteps : Steps (Effect.Removes fun q _ => q = p) m.world
          ⟨m.kernel.deinitAll p, m.world.outstanding⟩ := deinitAll_steps m.kernel p _
      rw [← Option.some.inj h]
      exact kept_of_steps ha hsteps
    · cases h

end

end

end Innigkeit.Capabilities.Machine

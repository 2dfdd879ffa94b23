import Innigkeit.Capabilities.DerivationSteps
import Innigkeit.Capabilities.Revocation

/-!
What holds of derived capabilities in every interleaving. The rights shrink
along every chain of derivations, and a link between two tables has the grant
right at its source. A derived slot passes the check only as long as its object
was not revoked since its source was validated, in the runs in which no
revocation falls between the two steps of a derivation of the same object.
-/

namespace Innigkeit.Capabilities

open Zig Function Transition List Option Kernel System Rights Ancestor System.Reachable
open World.Initial

variable {Agent Process : Type}

def Ancestor.Derives (child parent : Ancestor Process) : Prop :=
  rightsSubset child.rights parent.rights = true ∧
    (child.table ≠ parent.table → parent.rights.grant = true)

theorem Path.check_derives {path : Path Process} {info : SlotInfo} {rights : Rights}
    (h : path.check info = some rights) (p : Process) :
    Derives ⟨path.target p, rights⟩ ⟨p, info.rights⟩ := by
  cases path with
  | copy newRights =>
    simp only [check] at h
    split at h
    · next hsub =>
      cases h
      exact ⟨hsub, fun hne => absurd rfl hne⟩
    · cases h
  | clone =>
    simp only [check] at h
    split at h
    · cases h
      exact ⟨rightsSubset_refl _, fun hne => absurd rfl hne⟩
    · cases h
  | transfer receiver =>
    simp only [check] at h
    split at h
    · next hgrant =>
      cases h
      exact ⟨rightsSubset_refl _, fun _ => hgrant⟩
    · cases h
  | grant child requestedRights =>
    simp only [check] at h
    split at h
    · next hcond =>
      cases h
      exact ⟨rightsSubset_iff_and_not.mpr hcond.2, fun _ => hcond.1⟩
    · cases h

/-- Along a chain of derivations the first slot has no right that a later one lacks. -/
theorem rightsSubset_of_chain {child : Ancestor Process} {lineage : List (Ancestor Process)}
    (h : IsChain Derives (child :: lineage)) :
    ∀ a ∈ lineage, rightsSubset child.rights a.rights = true := by
  induction lineage generalizing child with
  | nil => exact fun a ha => absurd ha not_mem_nil
  | cons parent lineage ih =>
    rw [isChain_cons_cons] at h
    intro a ha
    cases mem_cons.mp ha with
    | inl heq =>
      rw [heq]
      exact h.1.1
    | inr ha => exact rightsSubset_trans h.1.1 (ih h.2 a ha)

namespace Machine

variable [DecidableEq Agent] [DecidableEq Process] {m m' : Machine Agent Process}
  {l : Step Agent Process} {p : Process} {i : Fin capCount}

/-- Every slot in use, and every reference that is to become a slot, ends a chain of derivations. -/
structure Chained (m : Machine Agent Process) : Prop where
  slot : ∀ p i, (m.kernel.slotAt (p, i)).type ≠ none →
    IsChain Derives
      (⟨p, (m.kernel.slotAt (p, i)).rights⟩ :: (m.origin (p, i)).lineage)
  reference : ∀ r ∈ m.references, ∀ p, r.target = some p →
    IsChain Derives (⟨p, r.info.rights⟩ :: r.origin.lineage)

omit [DecidableEq Agent] [DecidableEq Process] in
private theorem chained_root {r : Reference Agent Process} (h : r.origin = {}) (p : Process) :
    IsChain Derives (⟨p, r.info.rights⟩ :: r.origin.lineage) := by
  rw [h]
  exact isChain_singleton _

omit [DecidableEq Agent] in
theorem Stepped.chained (hstep : Stepped m l m') (h : m.Chained) : m'.Chained := by
  cases hstep with
  | kept hframe hrefs =>
    refine ⟨fun p i huse => ?_, fun r hr p hp => ?_⟩
    · rw [hframe.slotAt] at huse ⊢
      rw [hframe.origin]
      exact h.slot p i huse
    · cases hrefs r hr with
      | inl hr => exact h.reference r hr p hp
      | inr hroot => exact chained_root hroot p
  | created _ hslots _ _ horigin hrefs =>
    refine ⟨fun p i huse => ?_, fun r hr p hp => ?_⟩
    · rw [hslots] at huse ⊢
      rw [horigin]
      exact h.slot p i huse
    · cases hrefs r hr with
      | inl hr => exact h.reference r hr p hp
      | inr hroot => exact chained_root hroot p
  | resolved hframe hlive hpasses hcheck hrefs =>
    rename_i a path q j live rights
    refine ⟨fun p i huse => ?_, fun r hr p hp => ?_⟩
    · rw [hframe.slotAt] at huse ⊢
      rw [hframe.origin]
      exact h.slot p i huse
    · cases hrefs r hr with
      | inl hr => exact h.reference r hr p hp
      | inr hr =>
        cases hr with
        | inl hroot => exact chained_root hroot p
        | inr hderived =>
          -- The new reference puts one link in front of the chain of its source.
          obtain ⟨htype, -, hrights, -⟩ := Slot.live_eq_some.mp hlive
          have hsource := h.slot q j (by simp [htype])
          rw [hrights] at hsource
          rw [hderived] at hp ⊢
          cases some.inj hp
          simp only [derived, Fin.ofNat_val_eq_self]
          exact isChain_cons_cons.mpr ⟨Path.check_derives hcheck q, hsource⟩
  | filled hr htarget hslots hgen hrevokes horigin hrefs =>
    rename_i a r q j
    refine ⟨fun p i huse => ?_, fun r' hr' p hp => h.reference r' (hrefs r' hr') p hp⟩
    rw [hslots] at huse ⊢
    rw [horigin]
    by_cases hplace : (p, i) = (q, j)
    · cases hplace
      rw [update_self, update_self]
      exact h.reference r hr q htarget
    · rw [update_of_ne hplace] at huse ⊢
      rw [update_of_ne hplace]
      exact h.slot p i huse
  | removed hslots _ _ horigin hrefs =>
    refine ⟨fun p i huse => ?_, fun r hr p hp => h.reference r (hrefs ▸ hr) p hp⟩
    have hsame := hslots (p, i) huse
    rw [hsame] at huse ⊢
    rw [horigin]
    exact h.slot p i huse
  | revoked _ hkernel _ horigin hrefs =>
    refine ⟨fun p i huse => ?_, fun r hr p hp => h.reference r (hrefs ▸ hr) p hp⟩
    rw [hkernel] at huse ⊢
    rw [horigin]
    exact h.slot p i huse

omit [DecidableEq Agent] [DecidableEq Process] in
theorem Initial.chained (h : m.Initial) : m.Chained := by
  obtain ⟨⟨htables, -, hout⟩, -⟩ := h
  have hnone : m.references = [] := map_eq_nil_iff.mp hout
  refine ⟨fun p i huse => ?_, fun r hr => ?_⟩
  · obtain ⟨generation, hp⟩ := htables p
    rw [slotAt, hp] at huse
    exact absurd rfl huse
  · rw [hnone] at hr
    exact absurd hr not_mem_nil

section

variable [Fintype Process]

/-- Whatever the threads do, the count of every object is the number of slots that name it and of
the references that are held. -/
theorem references_accounted {allowed : Machine Agent Process → Step Agent Process → Prop}
    (h : system.Reachable allowed m) : m.world.Accounted :=
  @invariant _ _ system allowed (fun s => s.world.Accounted)
    (fun _ hs => accounted hs.1)
    (fun _ _ _ hs _ hstep => (next_kept hs hstep).accounted) m h

/-- Rights shrink along every chain of derivations and cross tables only by a grant. -/
theorem rights_monotone (h : system.Reachable anyStep m) (p : Process) (i : Fin capCount)
    (huse : (m.kernel.slotAt (p, i)).type ≠ none) :
    (∀ a ∈ (m.origin (p, i)).lineage,
      rightsSubset (m.kernel.slotAt (p, i)).rights a.rights = true) ∧
    IsChain Derives
      (⟨p, (m.kernel.slotAt (p, i)).rights⟩ :: (m.origin (p, i)).lineage) := by
  have hinv := @invariant _ _ system anyStep
    (fun s : Machine Agent Process => s.world.Accounted ∧ s.Chained)
    (fun s hs => ⟨accounted hs.1, Initial.chained hs⟩)
    (fun s l s' hs _ hstep =>
      ⟨(next_kept hs.1 hstep).accounted, (next_kept hs.1 hstep).stepped.chained hs.2⟩)
    m h
  have hchain := hinv.2.slot p i huse
  exact ⟨rightsSubset_of_chain hchain, hchain⟩

/-- An object is revoked only while no derivation of it is under way, and not to a stamp that one
of its slots has. -/
def revokesAlone (m : Machine Agent Process) : Step Agent Process → Prop
  | .revoke _ p idx => ∀ live, (m.kernel.tables p).getLocked idx = some live →
      (∀ r ∈ m.references, r.origin.validated ≠ none → r.info.ptr ≠ live.ptr) ∧
      m.kernel.StampsPassed live.ptr
  | _ => True

private def Passes (m : Machine Agent Process) (place : Process × Fin capCount) : Prop :=
  (m.kernel.slotAt place).type ≠ none ∧
    (m.kernel.slotAt place).generation =
      m.kernel.objectGeneration (m.kernel.slotAt place).ptrOrNext

/-- What passes the check, or is about to be inserted, was validated after the last revocation. -/
structure Fresh (m : Machine Agent Process) : Prop where
  slot : ∀ place n, Passes m place → (m.origin place).validated = some n →
    m.revokes (m.kernel.slotAt place).ptrOrNext = n
  reference : ∀ r ∈ m.references, ∀ n, r.origin.validated = some n → m.revokes r.info.ptr = n

variable {r : Reference Agent Process} {ptr : ℕ}

omit [DecidableEq Agent] [DecidableEq Process] in
private theorem reference_ptr_ne
    (ha : m.world.Accounted) (hdestroyed : (m.kernel.objects ptr).destroyed = true)
    (hr : r ∈ m.references) : r.info.ptr ≠ ptr := by
  intro heq
  have hcount : (m.kernel.objects ptr).refcount = m.kernel.naming ptr +
      (m.references.map fun r => r.info.ptr).count ptr := ha.refcount ptr
  have hzero : (m.kernel.objects ptr).refcount = 0 := (ha.destroyed ptr).mp hdestroyed
  have hmem : 0 < (m.references.map fun r => r.info.ptr).count ptr :=
    count_pos_iff.mpr (heq ▸ mem_map_of_mem hr)
  omega

omit [DecidableEq Agent] [DecidableEq Process] in
private theorem slot_ptr_ne {place : Process × Fin capCount}
    (ha : m.world.Accounted) (hdestroyed : (m.kernel.objects ptr).destroyed = true)
    (huse : (m.kernel.slotAt place).type ≠ none) : (m.kernel.slotAt place).ptrOrNext ≠ ptr := by
  intro heq
  have hpos := ha.refcount_pos (p := place.1) (i := place.2) huse
  have hzero : (m.kernel.objects ptr).refcount = 0 := (ha.destroyed ptr).mp hdestroyed
  rw [← heq] at hzero
  exact absurd hzero (ne_of_gt hpos)

omit [DecidableEq Agent] [DecidableEq Process] [Fintype Process] in
private theorem validated_ne_root {n : ℕ} (hroot : r.origin = {})
    (hn : r.origin.validated = some n) : False := by
  rw [hroot] at hn
  cases hn

omit [DecidableEq Agent] in
theorem Stepped.fresh (ha : m.world.Accounted) (hstep : Stepped m l m')
    (halone : revokesAlone m l) (h : m.Fresh) : m'.Fresh := by
  cases hstep with
  | kept hframe hrefs =>
    refine ⟨fun place n hpasses hn => ?_, fun r hr n hn => ?_⟩
    · rw [Passes, hframe.slotAt, hframe.generation] at hpasses
      rw [hframe.origin] at hn
      rw [hframe.slotAt, hframe.revokes]
      exact h.slot place n hpasses hn
    · rw [hframe.revokes]
      cases hrefs r hr with
      | inl hr => exact h.reference r hr n hn
      | inr hroot => exact (validated_ne_root hroot hn).elim
  | created hdestroyed hslots hgen hrevokes horigin hrefs =>
    refine ⟨fun place n hpasses hn => ?_, fun r hr n hn => ?_⟩
    · rw [Passes, hslots] at hpasses
      have hne := slot_ptr_ne ha hdestroyed hpasses.1
      rw [hgen _ hne] at hpasses
      rw [horigin] at hn
      rw [hslots, hrevokes _ hne]
      exact h.slot place n hpasses hn
    · cases hrefs r hr with
      | inl hr =>
        rw [hrevokes _ (reference_ptr_ne ha hdestroyed hr)]
        exact h.reference r hr n hn
      | inr hroot => exact (validated_ne_root hroot hn).elim
  | resolved hframe hlive hlivegen hcheck hrefs =>
    refine ⟨fun place n hpasses hn => ?_, fun r hr n hn => ?_⟩
    · rw [Passes, hframe.slotAt, hframe.generation] at hpasses
      rw [hframe.origin] at hn
      rw [hframe.slotAt, hframe.revokes]
      exact h.slot place n hpasses hn
    · rw [hframe.revokes]
      cases hrefs r hr with
      | inl hr => exact h.reference r hr n hn
      | inr hr =>
        cases hr with
        | inl hroot => exact (validated_ne_root hroot hn).elim
        | inr hderived =>
          rw [hderived] at hn ⊢
          exact some.inj hn
  | filled hr htarget hslots hgen hrevokes horigin hrefs =>
    rename_i a r q j
    refine ⟨fun place n hpasses hn => ?_, fun r' hr' n hn => ?_⟩
    · rw [Passes, hslots, hgen] at hpasses
      rw [horigin] at hn
      rw [hslots, hrevokes]
      by_cases hplace : place = (q, j)
      · rw [hplace, update_self] at hn ⊢
        exact h.reference r hr n hn
      · rw [update_of_ne hplace] at hpasses hn ⊢
        exact h.slot place n hpasses hn
    · rw [hrevokes]
      exact h.reference r' (hrefs r' hr') n hn
  | removed hslots hgen hrevokes horigin hrefs =>
    refine ⟨fun place n hpasses hn => ?_, fun r hr n hn => ?_⟩
    · have hsame := hslots place hpasses.1
      rw [Passes, hsame, hgen] at hpasses
      rw [horigin] at hn
      rw [hsame, hrevokes]
      exact h.slot place n hpasses hn
    · rw [hrevokes]
      exact h.reference r (hrefs ▸ hr) n hn
  | revoked hlive hkernel hrevokes horigin hrefs =>
    rename_i a p idx live
    obtain ⟨hnone, hstamps⟩ := halone live hlive
    have hslots : m'.kernel.slotAt = m.kernel.slotAt := by rw [hkernel]; rfl
    have hgen (x : ℕ) : m'.kernel.objectGeneration x = if x = live.ptr then
        m.kernel.objectGeneration live.ptr + 1 else m.kernel.objectGeneration x := by
      rw [hkernel]
      simp only [objectGeneration, incrementObjectGeneration, modifyObject_objects, update_apply]
      split <;> rfl
    refine ⟨fun place n hpasses hn => ?_, fun r hr n hn => ?_⟩
    · rw [Passes, hslots, hgen] at hpasses
      rw [horigin] at hn
      by_cases hptr : (m.kernel.slotAt place).ptrOrNext = live.ptr
      · -- Every slot of the object is stale now.
        rw [if_pos hptr] at hpasses
        exact absurd hpasses.2 (hstamps place hpasses.1 hptr)
      · rw [if_neg hptr] at hpasses
        rw [hslots, hrevokes _ hptr]
        exact h.slot place n hpasses hn
    · rw [hrefs] at hr
      have hne : r.info.ptr ≠ live.ptr := hnone r hr (by rw [hn]; exact some_ne_none _)
      rw [hrevokes _ hne]
      exact h.reference r hr n hn

omit [DecidableEq Agent] [DecidableEq Process] [Fintype Process] in
theorem Initial.fresh (h : m.Initial) : m.Fresh := by
  obtain ⟨⟨htables, -, hout⟩, -⟩ := h
  have hnone : m.references = [] := map_eq_nil_iff.mp hout
  refine ⟨fun place n hpasses _ => ?_, fun r hr => ?_⟩
  · obtain ⟨generation, hp⟩ := htables place.1
    have huse := hpasses.1
    rw [slotAt, hp] at huse
    exact absurd rfl huse
  · rw [hnone] at hr
    exact absurd hr not_mem_nil

/-- A derived slot that passes the check was validated after the last revocation of its object. -/
theorem revocation_not_bypassed (h : system.Reachable revokesAlone m) {info : SlotInfo}
    {k : Kernel Process} (hget : m.kernel.getAndRefLocked p i = some (info, k)) {n : ℕ}
    (hn : (m.origin (p, i)).validated = some n) : m.revokes info.ptr = n := by
  have hinv := @invariant _ _ system revokesAlone
    (fun s : Machine Agent Process => s.world.Accounted ∧ s.Fresh)
    (fun s hs => ⟨accounted hs.1, Initial.fresh hs⟩)
    (fun s l s' hs halone hstep =>
      ⟨(next_kept hs.1 hstep).accounted, (next_kept hs.1 hstep).stepped.fresh hs.1 halone hs.2⟩) m h
  obtain ⟨live, hlive, hgen, hinfo, -⟩ := getAndRefLocked_eq_some.mp hget
  rw [getLocked_fin] at hlive
  obtain ⟨htype, hptr, -, hstamp⟩ := Slot.live_eq_some.mp hlive
  have hpasses : Passes m (p, i) := by
    refine ⟨by simp [htype], ?_⟩
    rw [hstamp, hptr, hgen]
  have hlast := hinv.2.slot (p, i) n hpasses hn
  rw [hptr] at hlast
  rw [hinfo]
  exact hlast

end

section

/-- Two processes and two threads; nothing has happened. -/
private def blank : Machine Bool Bool where
  kernel := (World.blank Bool).kernel
  locks := fun _ => none
  references := []
  revokes := fun _ => 0
  origin := fun _ => {}

private theorem blank_initial : blank.Initial := ⟨World.blank_initial, fun _ => rfl⟩

private def frame (rights : Rights) : SlotInfo := ⟨.frame, 4096, rights⟩

private def rootOf (p : Bool) : Reference Bool Bool := ⟨false, frame all, some p, {}⟩

/-- The first thread makes a frame for the first process, which sends it to the second one. -/
private def sendFrame : List (Step Bool Bool) :=
  [.create false false .frame 4096 all, .lock false false, .insert false (rootOf false),
    .lock false true, .validate false (.transfer true) false 0,
    .insert false ⟨false, frame all, some true, ⟨[⟨false, all⟩], some 0⟩⟩,
    .unlock false true]

/-- The first process copies its slot; the second one revokes the frame in between. -/
private def revokeBetween : List (Step Bool Bool) :=
  [.validate false (.copy all) false 0, .lock true true, .revoke true true 0,
    .unlock true true,
    .insert false ⟨false, frame all, some false, ⟨[⟨false, all⟩], some 0⟩⟩,
    .unlock false false]

/-- The copy passes the check although its source was validated before the revocation. -/
theorem revocation_bypassed : ∃ m : Machine Bool Bool, system.Reachable anyStep m ∧
    (m.kernel.getAndRefLocked false (1 : Fin capCount)).isSome = true ∧
    (m.origin (false, 1)).validated = some 0 ∧ m.revokes 4096 = 1 := by
  have hrun : (runNext next blank (sendFrame ++ revokeBetween)).isSome = true := by decide
  obtain ⟨m, hm⟩ := isSome_iff_exists.mp hrun
  have hstate : (runNext next blank (sendFrame ++ revokeBetween)).map
      (fun m => ((m.kernel.getAndRefLocked false (1 : Fin capCount)).isSome,
        (m.origin (false, 1)).validated, m.revokes 4096)) = some (true, some 0, 1) := by decide
  rw [hm] at hstate
  obtain ⟨hpasses, hrest⟩ := Prod.mk.inj (some.inj hstate)
  obtain ⟨hvalidated, hrevokes⟩ := Prod.mk.inj hrest
  exact ⟨m, runNext_reachable _ (.init blank_initial) hm, hpasses, hvalidated, hrevokes⟩

/-- The slot of the second process is one link away from the root. -/
theorem rights_monotone_sent : ∃ m : Machine Bool Bool,
    System.runNext next blank sendFrame = some m ∧
    (m.origin (true, 0)).lineage = [⟨false, all⟩] ∧
    ∀ a ∈ (m.origin (true, 0)).lineage,
      rightsSubset (m.kernel.slotAt (true, 0)).rights a.rights = true := by
  have hrun : (runNext next blank sendFrame).isSome = true := by decide
  obtain ⟨m, hm⟩ := isSome_iff_exists.mp hrun
  have hstate : (runNext next blank sendFrame).map
      (fun m => ((m.origin (true, 0)).lineage, (m.kernel.slotAt (true, 0)).type)) =
      some ([⟨false, all⟩], some .frame) := by decide
  rw [hm] at hstate
  obtain ⟨hlineage, htype⟩ := Prod.mk.inj (some.inj hstate)
  refine ⟨m, hm, hlineage, (rights_monotone (runNext_reachable _ (.init blank_initial) hm)
    true 0 ?_).1⟩
  rw [htype]
  exact some_ne_none _

/-- A frame with two root slots to come, of which the first one is filled. -/
private def rootOnce : List (Step Bool Bool) :=
  [.create false false .frame 4096 all, .share false (rootOf false) true all,
    .lock false false, .insert false (rootOf false)]

/-- After a revocation, the second root slot is filled and copied. -/
private def copySecond : List (Step Bool Bool) :=
  [.lock false true, .insert false (rootOf true), .validate false (.copy all) true 0,
    .insert false ⟨false, frame all, some true, ⟨[⟨true, all⟩], some 1⟩⟩]

private theorem rootOnce_alone {m : Machine Bool Bool} (hm : runNext next blank rootOnce = some m) :
    revokesAlone m (.revoke false false 0) := by
  have hrefs : (runNext next blank rootOnce).all
      (fun m => decide (∀ r ∈ m.references, r.origin.validated = none)) = true := by decide
  have hstamps : (runNext next blank rootOnce).all
      (fun m => decide (∀ place, (m.kernel.slotAt place).generation ≠
        m.kernel.objectGeneration 4096 + 1)) = true := by decide +kernel
  have hlive : (runNext next blank rootOnce).map
      (fun m => (m.kernel.tables false).getLocked 0) =
      some (some ⟨.frame, 4096, all, 0⟩) := by decide
  rw [hm] at hrefs hstamps hlive
  intro live hlive'
  cases hlive'.symm.trans (some.inj hlive)
  refine ⟨fun r hr hvalidated => ?_, fun place _ _ => of_decide_eq_true hstamps place⟩
  exact absurd (of_decide_eq_true hrefs r hr) hvalidated

theorem revocation_not_bypassed_copy : ∃ m : Machine Bool Bool, ∃ info k,
    m.kernel.getAndRefLocked true (1 : Fin capCount) = some (info, k) ∧
    (m.origin (true, 1)).validated = some 1 ∧ m.revokes info.ptr = 1 := by
  have hrun : (((runNext next blank rootOnce).bind fun m =>
      m.next (.revoke false false 0)).bind fun m => runNext next m copySecond).map
      (fun m => ((m.kernel.getAndRefLocked true (1 : Fin capCount)).isSome,
        (m.origin (true, 1)).validated)) = some (true, some 1) := by decide
  obtain ⟨m, hm, hstate⟩ := map_eq_some_iff.mp hrun
  obtain ⟨m₂, hm₂, hsecond⟩ := bind_eq_some_iff.mp hm
  obtain ⟨m₁, hfirst, hrevoke⟩ := bind_eq_some_iff.mp hm₂
  obtain ⟨hpasses, hvalidated⟩ := Prod.mk.inj hstate
  obtain ⟨⟨info, k⟩, hget⟩ := isSome_iff_exists.mp hpasses
  have hreach₁ : system.Reachable revokesAlone m₁ := by
    refine runNext_reachable_of rootOnce (fun l hl t => ?_) (.init blank_initial) hfirst
    simp only [rootOnce, mem_cons, not_mem_nil, or_false] at hl
    obtain rfl | rfl | rfl | rfl := hl <;> trivial
  have hreach : system.Reachable revokesAlone m := by
    refine runNext_reachable_of copySecond (fun l hl t => ?_)
      (.step hreach₁ (rootOnce_alone hfirst) hrevoke) hsecond
    simp only [copySecond, mem_cons, not_mem_nil, or_false] at hl
    obtain rfl | rfl | rfl | rfl := hl <;> trivial
  exact ⟨m, info, k, hget, hvalidated, revocation_not_bypassed hreach hget hvalidated⟩

/-- A frame that was sent, copied and revoked has three slots and no reference that is held. -/
theorem references_accounted_revoked : ∃ m : Machine Bool Bool,
    System.runNext next blank (sendFrame ++ revokeBetween) = some m ∧ m.revokes 4096 = 1 ∧
      m.references = [] ∧ (m.kernel.objects 4096).refcount = 3 ∧ m.kernel.naming 4096 = 3 := by
  have hrun : (runNext next blank (sendFrame ++ revokeBetween)).map
      (fun m => (m.revokes 4096, m.references, (m.kernel.objects 4096).refcount)) =
      some (1, [], 3) := by decide
  obtain ⟨m, hm, hstate⟩ := Option.map_eq_some_iff.mp hrun
  obtain ⟨hrevokes, hrest⟩ := Prod.mk.inj hstate
  obtain ⟨hrefs, hcount⟩ := Prod.mk.inj hrest
  have hreach : system.Reachable anyStep m := runNext_reachable _ (.init blank_initial) hm
  have haccounted : (m.kernel.objects 4096).refcount =
      m.kernel.naming 4096 + (m.references.map fun r => r.info.ptr).count 4096 :=
    (references_accounted hreach).refcount 4096
  simp only [hrefs, hcount, map_nil, count_nil, Nat.add_zero] at haccounted
  exact ⟨m, hm, hrevokes, hrefs, hcount, haccounted.symm⟩

end

end Machine

end Innigkeit.Capabilities

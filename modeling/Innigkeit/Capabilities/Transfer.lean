import Innigkeit.Capabilities.TableRuns

/-!
What a transfer of capabilities delivers. A message names a capability by its
index in the sender's table and uses 0 for no capability, but 0 is also an
index that a table hands out. An entry that is processed either leaves the
tables as they are and ends up as 0, or fills the next free slot of the
receiver and ends up as its index.
-/

namespace Innigkeit.Capabilities

open Zig Function List Option CapabilityTable Rights World

variable {Process : Type} [DecidableEq Process]

namespace Kernel

variable {k k₁ k₂ k' : Kernel Process} {src dst p : Process} {i : Fin capCount} {idx : ℕ}
  {cells cells₂ : List (Fin capCount)} {handle handle' : BitVec 32} {info : SlotInfo}

/-- The capability that an index names, if it is live and may be granted. -/
def sendable (k : Kernel Process) (p : Process) (idx : ℕ) : Option SlotInfo :=
  match k.getAndRefLocked p idx with
  | some (info, _) => if info.rights.grant then some info else none
  | none => none

def HasRoom (k : Kernel Process) (p : Process) : Prop :=
  ∃ i, ((k.tables p).slots i).type = none

/-- The entry names the same capability in the receiver's table. -/
def Holds (k : Kernel Process) (p : Process) (handle : BitVec 32) (info : SlotInfo) : Prop :=
  ∃ live, (k.tables p).getLocked handle.toNat = some live ∧ live.info = info

/-- One entry was handled as promised: `k` is the state before the transfer, `k₁` and `k₂` those
around the entry and `k'` the one after the transfer. -/
structure EntryDelivered (src dst : Process) (k k₁ k₂ k' : Kernel Process)
    (handle handle' : BitVec 32) : Prop where
  delivered : ∀ info, k.sendable src handle.toNat = some info → k₁.HasRoom dst →
    handle' ≠ 0 ∧ k'.Holds dst handle' info
  zero : handle' = 0 → k₂.tables = k₁.tables

/-- Every entry of the transfer was handled as promised. -/
def Delivers (k : Kernel Process) (msg : Message) (src dst : Process) : Prop :=
  ∀ before handle after, msg.caps.val = before ++ handle :: after →
    ∃ before' k₁ handle' k₂ after' k' msg',
      k.transferEntries src dst before = .ok (before', k₁) ∧
      k₁.transferEntry src dst handle = .ok (handle', k₂) ∧
      k₂.transferEntries src dst after = .ok (after', k') ∧
      k.transferCaps msg (.user src) (.user dst) = .ok (msg', k') ∧
      msg'.caps.val = before' ++ handle' :: after' ∧
      EntryDelivered src dst k k₁ k₂ k' handle handle'

/-- The free slots that the entries of a message take. An entry counts if it is not 0 and names a
capability that can be sent; within one table it may name a slot that an earlier entry took. -/
def takenSlots (same : Bool) (canSend : ℕ → Bool) :
    List (Fin capCount) → List (BitVec 32) → List (Fin capCount)
  | _, [] => []
  | [], _ => []
  | i :: cells, handle :: handles =>
    if handle ≠ 0 ∧ canSend handle.toNat = true then
      i :: takenSlots same (fun idx => canSend idx || (same && idx == i.val)) cells handles
    else takenSlots same canSend (i :: cells) handles

section

omit [DecidableEq Process]

theorem sendable_eq (k : Kernel Process) (p : Process) (idx : ℕ) :
    k.sendable p idx = ((k.tables p).getLocked idx).bind fun live =>
      if live.generation = k.objectGeneration live.ptr ∧ live.rights.grant = true then
        some live.info
      else none := by
  rw [sendable, getAndRefLocked]
  cases (k.tables p).getLocked idx with
  | none => rfl
  | some live =>
    by_cases hgen : live.generation = k.objectGeneration live.ptr
    · simp [hgen, LiveSlot.info]
    · simp [hgen]

theorem sendable_eq_some :
    k.sendable p idx = some info ↔ ∃ live, (k.tables p).getLocked idx = some live ∧
      live.generation = k.objectGeneration live.ptr ∧ live.rights.grant = true ∧
      live.info = info := by
  rw [sendable_eq, bind_eq_some_iff]
  constructor
  · intro h
    obtain ⟨live, hlive, hif⟩ := h
    split at hif
    · next hcond => exact ⟨live, hlive, hcond.1, hcond.2, Option.some.inj hif⟩
    · cases hif
  · intro h
    obtain ⟨live, hlive, hgen, hgrant, hinfo⟩ := h
    exact ⟨live, hlive, by rw [if_pos ⟨hgen, hgrant⟩, hinfo]⟩

theorem Alike.sendable (h : k.Alike k') : k'.sendable p idx = k.sendable p idx := by
  simp only [sendable_eq, h.tables, h.generation]

end

/-- What one entry does to the tables, the free slots of the receiver and the message. -/
inductive EntryStep (src dst : Process) (k : Kernel Process) (handle : BitVec 32) :
    List (Fin capCount) → BitVec 32 → Kernel Process → List (Fin capCount) → Prop where
  | skipped {cells : List (Fin capCount)} {k₂ : Kernel Process} (halike : k.Alike k₂)
      (hskip : handle = 0 ∨ k.sendable src handle.toNat = none ∨ cells = []) :
      EntryStep src dst k handle cells 0 k₂ cells
  | filled {i : Fin capCount} {cells : List (Fin capCount)} {k₂ : Kernel Process}
      {info : SlotInfo} (hhandle : handle ≠ 0)
      (hsend : k.sendable src handle.toNat = some info)
      (hslots : k₂.slotAt =
        update k.slotAt (dst, i) (k.newSlot info.capType info.ptr info.rights))
      (hgen : ∀ x, k₂.objectGeneration x = k.objectGeneration x) :
      EntryStep src dst k handle (i :: cells) (BitVec.ofNat 32 i) k₂ cells

theorem transferEntry_step (hfree : (k.tables dst).FreeSlots cells) (src : Process)
    (handle : BitVec 32) :
    ∃ handle' k₂ cells₂, k.transferEntry src dst handle = .ok (handle', k₂) ∧
      EntryStep src dst k handle cells handle' k₂ cells₂ ∧
      (k₂.tables dst).FreeSlots cells₂ := by
  rw [transferEntry]
  by_cases hzero : handle = 0
  · rw [if_pos hzero]
    refine ⟨_, k, cells, by rw [hzero], .skipped (alike_refl k) (.inl hzero), hfree⟩
  rw [if_neg hzero]
  cases hget : k.getAndRefLocked src handle.toNat with
  | none =>
    have hsend : k.sendable src handle.toNat = none := by rw [sendable, hget]
    exact ⟨0, k, cells, rfl, .skipped (alike_refl k) (.inr (.inl hsend)), hfree⟩
  | some snapshot =>
    obtain ⟨info, k₁⟩ := snapshot
    obtain ⟨_, _, _, _, hk₁⟩ := getAndRefLocked_eq_some.mp hget
    have halike : k.Alike k₁ := hk₁ ▸ alike_refObject k info.ptr
    simp only
    by_cases hgrant : info.rights.grant = true
    · have hsend : k.sendable src handle.toNat = some info := by
        simp only [sendable, hget, hgrant, if_true]
      have hfree₁ : (k₁.tables dst).FreeSlots cells := by
        rw [halike.tables]
        exact hfree
      rw [if_pos hgrant, insertOrUnref]
      cases cells with
      | nil =>
        rw [insertLocked_of_nil hfree₁]
        refine ⟨0, k₁.unrefObject info.ptr, [], rfl, .skipped ?_ (.inr (.inr rfl)), hfree₁⟩
        exact halike.trans (alike_unrefObject k₁ info.ptr)
      | cons i cells =>
        rw [insertLocked_of_cons hfree₁]
        refine ⟨_, _, cells, rfl, .filled hzero hsend ?_ halike.generation, ?_⟩
        · rw [setSlot_slotAt, halike.slotAt, newSlot, halike.generation]
          rfl
        · rw [setSlot_tables_self]
          exact hfree₁.fill (some_ne_none _)
    · have hsend : k.sendable src handle.toNat = none := by
        simp only [sendable, hget, hgrant]
        rfl
      rw [if_neg hgrant]
      refine ⟨0, _, cells, rfl, .skipped ?_ (.inr (.inl hsend)), ?_⟩
      · exact halike.trans (alike_unrefObject k₁ info.ptr)
      · show (k₁.tables dst).FreeSlots cells
        rw [halike.tables]
        exact hfree

omit [DecidableEq Process] in
theorem getLocked_of_lt (h : idx < capCount) :
    (k.tables p).getLocked idx = (k.slotAt (p, ⟨idx, h⟩)).live := by
  rw [getLocked, dif_pos h]
  rfl

omit [DecidableEq Process] in
theorem getLocked_of_not_lt (h : ¬ idx < capCount) : (k.tables p).getLocked idx = none := by
  rw [getLocked, dif_neg h]

section

variable (hslots : k₂.slotAt = update k.slotAt (dst, i) (k.newSlot info.capType info.ptr
  info.rights))

include hslots

theorem getLocked_filled (p : Process) (idx : ℕ) :
    (k₂.tables p).getLocked idx = if p = dst ∧ idx = i.val then
      some ⟨info.capType, info.ptr, info.rights, k.objectGeneration info.ptr⟩
    else (k.tables p).getLocked idx := by
  by_cases hidx : idx < capCount
  · rw [getLocked_of_lt hidx, getLocked_of_lt hidx, hslots]
    split
    · next h =>
      have hplace : (p, (⟨idx, hidx⟩ : Fin capCount)) = (dst, i) := Prod.ext h.1 (Fin.ext h.2)
      rw [hplace, update_self]
      rfl
    · next h =>
      rw [update_of_ne]
      intro heq
      cases heq
      exact h ⟨rfl, rfl⟩
  · rw [getLocked_of_not_lt hidx, getLocked_of_not_lt hidx, if_neg]
    intro h
    exact hidx (h.2 ▸ i.isLt)

/-- The slot that was filled can be sent on; the other ones as before. -/
theorem sendable_filled (hgen : ∀ x, k₂.objectGeneration x = k.objectGeneration x)
    (hgrant : info.rights.grant = true) (p : Process) (idx : ℕ) :
    k₂.sendable p idx = if p = dst ∧ idx = i.val then some info else k.sendable p idx := by
  rw [sendable_eq, getLocked_filled hslots]
  split
  · simp [hgen, hgrant, LiveSlot.info]
  · simp only [hgen, sendable_eq]

end

omit [DecidableEq Process] in
theorem getLocked_of_free (hfree : (k.slotAt (p, i)).type = none) :
    (k.tables p).getLocked i = none := by
  rw [getLocked_of_lt i.isLt, Slot.live, hfree]
  rfl

omit [DecidableEq Process] in
theorem grant_of_sendable (hsend : k.sendable p idx = some info) : info.rights.grant = true := by
  obtain ⟨live, _, _, hgrant, hinfo⟩ := sendable_eq_some.mp hsend
  rw [← hinfo]
  exact hgrant

omit [DecidableEq Process] in
theorem hasRoom_iff (hfree : (k.tables p).FreeSlots cells) : k.HasRoom p ↔ cells ≠ [] := by
  cases cells with
  | nil =>
    refine iff_of_false (fun h => ?_) (fun h => h rfl)
    obtain ⟨i, hi⟩ := h
    exact not_mem_nil ((hfree.mem_iff i).mpr hi)
  | cons i cells =>
    exact iff_of_true ⟨i, (hfree.mem_iff i).mp mem_cons_self⟩ (cons_ne_nil _ _)

namespace EntryStep

variable (h : EntryStep src dst k handle cells handle' k₂ cells₂)
  (hfree : (k.tables dst).FreeSlots cells)

include h hfree

theorem getLocked_mono {live : LiveSlot} (hlive : (k.tables p).getLocked idx = some live) :
    (k₂.tables p).getLocked idx = some live := by
  cases h with
  | skipped halike => rw [halike.tables, hlive]
  | filled hne hsend hslots hgen =>
    rename_i i info
    rw [getLocked_filled hslots, if_neg, hlive]
    intro hplace
    have hnone : (k.tables dst).getLocked i = none :=
      getLocked_of_free ((hfree.mem_iff i).mp mem_cons_self)
    rw [hplace.1, hplace.2, hnone] at hlive
    cases hlive

theorem generation_eq (x : ℕ) : k₂.objectGeneration x = k.objectGeneration x := by
  cases h with
  | skipped halike => exact halike.generation x
  | filled _ _ _ hgen => exact hgen x

theorem sendable_mono (hsend : k.sendable p idx = some info) : k₂.sendable p idx = some info := by
  obtain ⟨live, hlive, hgen, hgrant, hinfo⟩ := sendable_eq_some.mp hsend
  refine sendable_eq_some.mpr ⟨live, h.getLocked_mono hfree hlive, ?_, hgrant, hinfo⟩
  rw [h.generation_eq hfree, hgen]

theorem holds {handle₀ : BitVec 32} (hholds : k.Holds p handle₀ info) :
    k₂.Holds p handle₀ info := by
  obtain ⟨live, hlive, hinfo⟩ := hholds
  exact ⟨live, h.getLocked_mono hfree hlive, hinfo⟩

end EntryStep

theorem transferEntries_run (hfree : (k.tables dst).FreeSlots cells) (src : Process)
    (handles : List (BitVec 32)) :
    ∃ handles' k', k.transferEntries src dst handles = .ok (handles', k') ∧
      ∀ handle info, k.Holds dst handle info → k'.Holds dst handle info := by
  induction handles generalizing k cells with
  | nil => exact ⟨[], k, rfl, fun _ _ => id⟩
  | cons handle handles ih =>
    obtain ⟨handle', k₂, cells₂, hrun, hstep, hfree₂⟩ := transferEntry_step hfree src handle
    obtain ⟨handles', k', hrest, hholds⟩ := ih hfree₂
    refine ⟨handle' :: handles', k', ?_, fun handle₀ info h => ?_⟩
    · simp only [transferEntries, hrun, hrest, ok_bind]
    · exact hholds handle₀ info (hstep.holds hfree h)

/-- What goes wrong at an entry: it is 0 but stands for a capability, or the next free slot of the
receiver is slot 0. -/
theorem EntryStep.delivered_iff (h : EntryStep src dst k₁ handle cells handle' k₂ cells₂)
    (hfree : (k₁.tables dst).FreeSlots cells)
    (hmono : ∀ idx info, k.sendable src idx = some info → k₁.sendable src idx = some info)
    (hholds : ∀ handle info, k₂.Holds dst handle info → k'.Holds dst handle info) :
    EntryDelivered src dst k k₁ k₂ k' handle handle' ↔
      ¬ (handle = 0 ∧ (k.sendable src 0).isSome = true ∧ cells ≠ []) ∧
      ¬ (handle ≠ 0 ∧ (k₁.sendable src handle.toNat).isSome = true ∧ cells.head? = some 0) := by
  have hroom := hasRoom_iff hfree
  cases h with
  | skipped halike hskip =>
    constructor
    · intro hdelivered
      constructor
      · intro hbad
        obtain ⟨hzero, hsend, hcells⟩ := hbad
        obtain ⟨info, hinfo⟩ := isSome_iff_exists.mp hsend
        refine (hdelivered.delivered info ?_ (hroom.mpr hcells)).1 rfl
        rw [hzero]
        exact hinfo
      · intro hbad
        obtain ⟨hne, hsend, hcells⟩ := hbad
        cases hskip with
        | inl hzero => exact hne hzero
        | inr hskip =>
          cases hskip with
          | inl hnone => simp [hnone] at hsend
          | inr hnil => simp [hnil] at hcells
    · intro hgood
      refine ⟨fun info hsend hasRoom => ?_, fun _ => halike.tables⟩
      exfalso
      cases hskip with
      | inl hzero =>
        rw [hzero] at hsend
        refine hgood.1 ⟨hzero, ?_, hroom.mp hasRoom⟩
        rw [show k.sendable src 0 = some info from hsend]
        rfl
      | inr hskip =>
        cases hskip with
        | inl hnone =>
          rw [hmono _ _ hsend] at hnone
          cases hnone
        | inr hnil => exact hroom.mp hasRoom hnil
  | filled hne hsend hslots hgen =>
    rename_i i info
    have hi : (BitVec.ofNat 32 i.val).toNat = i.val := by
      have hlt : i.val < 256 := i.isLt
      simp only [BitVec.toNat_ofNat]
      omega
    have hzero : BitVec.ofNat 32 i.val = 0 ↔ i = 0 := by
      rw [← BitVec.toNat_inj, hi, Fin.ext_iff]
      rfl
    constructor
    · intro hdelivered
      refine ⟨fun hbad => hne hbad.1, fun hbad => ?_⟩
      -- The slot is filled although the entry says that nothing was inserted.
      have hhead : i = 0 := by simpa using hbad.2.2
      have htables := hdelivered.zero (hzero.mpr hhead)
      have hfilled := getLocked_filled hslots dst i
      rw [if_pos ⟨rfl, rfl⟩, htables,
        getLocked_of_free ((hfree.mem_iff i).mp mem_cons_self)] at hfilled
      cases hfilled
    · intro hgood
      have hne0 : i ≠ 0 := by
        intro hi0
        refine hgood.2 ⟨hne, ?_, ?_⟩
        · rw [hsend]
          rfl
        · rw [hi0]
          rfl
      refine ⟨fun info' hsend' _ => ⟨fun h0 => hne0 (hzero.mp h0), hholds _ _ ?_⟩,
        fun h0 => absurd (hzero.mp h0) hne0⟩
      rw [hmono _ _ hsend'] at hsend
      cases hsend
      refine ⟨⟨info.capType, info.ptr, info.rights, k₁.objectGeneration info.ptr⟩, ?_, rfl⟩
      rw [hi, getLocked_filled hslots, if_pos ⟨rfl, rfl⟩]

private def EntriesDelivered (src dst : Process) (k k₁ : Kernel Process)
    (handles : List (BitVec 32)) : Prop :=
  ∀ before handle after, handles = before ++ handle :: after →
    ∃ before' k₂ handle' k₃ after' k',
      k₁.transferEntries src dst before = .ok (before', k₂) ∧
      k₂.transferEntry src dst handle = .ok (handle', k₃) ∧
      k₃.transferEntries src dst after = .ok (after', k') ∧
      EntryDelivered src dst k k₂ k₃ k' handle handle'

private theorem forall_split_cons {α : Type} {a : α} {l : List α} {P : List α → α → List α → Prop} :
    (∀ before x after, a :: l = before ++ x :: after → P before x after) ↔
      P [] a l ∧ ∀ before x after, l = before ++ x :: after → P (a :: before) x after := by
  constructor
  · intro h
    refine ⟨h [] a l rfl, fun before x after heq => h (a :: before) x after ?_⟩
    rw [heq]
    rfl
  · intro h before x after heq
    cases before with
    | nil =>
      cases heq
      exact h.1
    | cons b before =>
      cases heq
      exact h.2 before x after rfl

private theorem entriesDelivered_cons {handles after' : List (BitVec 32)}
    (hrun : k₁.transferEntry src dst handle = .ok (handle', k₂))
    (hrest : k₂.transferEntries src dst handles = .ok (after', k')) :
    EntriesDelivered src dst k k₁ (handle :: handles) ↔
      EntryDelivered src dst k k₁ k₂ k' handle handle' ∧
        EntriesDelivered src dst k k₂ handles := by
  rw [EntriesDelivered, forall_split_cons]
  refine and_congr ?_ ?_
  · constructor
    · intro h
      obtain ⟨_, _, _, _, _, _, hbefore, hentry, hafter, hdelivered⟩ := h
      cases hbefore
      rw [hrun] at hentry
      cases hentry
      rw [hrest] at hafter
      cases hafter
      exact hdelivered
    · intro h
      exact ⟨_, _, _, _, _, _, rfl, hrun, hrest, h⟩
  · constructor
    · intro h before x after heq
      obtain ⟨_, _, _, _, _, _, hbefore, hentry, hafter, hdelivered⟩ := h before x after heq
      simp only [transferEntries, hrun, ok_bind, bind_eq_ok] at hbefore
      obtain ⟨before', hbefore', heq'⟩ := hbefore
      cases heq'
      exact ⟨_, _, _, _, _, _, hbefore', hentry, hafter, hdelivered⟩
    · intro h before x after heq
      obtain ⟨before', _, _, _, _, _, hbefore, hentry, hafter, hdelivered⟩ := h before x after heq
      refine ⟨handle' :: before', _, _, _, _, _, ?_, hentry, hafter, hdelivered⟩
      simp only [transferEntries, hrun, hbefore, ok_bind]

/-- Slot 0 is not among those that the entries take, and an entry 0 does not stand for a
capability (`zero`) while there is a free slot left for it. -/
private def Avoids (zero same : Bool) (canSend : ℕ → Bool) (cells : List (Fin capCount))
    (handles : List (BitVec 32)) : Prop :=
  0 ∉ takenSlots same canSend cells handles ∧
    (zero = true → ∀ before handle after, handles = before ++ handle :: after → handle = 0 →
      cells.length ≤ (takenSlots same canSend cells before).length)

section

variable {zero same : Bool} {canSend : ℕ → Bool} {handles : List (BitVec 32)}

private theorem takenSlots_done : takenSlots same canSend cells [] = [] := by
  cases cells <;> rfl

private theorem takenSlots_nil : takenSlots same canSend [] handles = [] := by
  cases handles <;> rfl

private theorem takenSlots_skip (hskip : handle = 0 ∨ canSend handle.toNat = false ∨ cells = []) :
    takenSlots same canSend cells (handle :: handles) =
      takenSlots same canSend cells handles := by
  cases cells with
  | nil => rw [takenSlots_nil, takenSlots_nil]
  | cons i cells =>
    rw [takenSlots, if_neg]
    intro h
    cases hskip with
    | inl hzero => exact h.1 hzero
    | inr hskip =>
      cases hskip with
      | inl hsend => simp [hsend] at h
      | inr hnil => cases hnil

private theorem takenSlots_fill (hne : handle ≠ 0) (hsend : canSend handle.toNat = true) :
    takenSlots same canSend (i :: cells) (handle :: handles) =
      i :: takenSlots same (fun idx => canSend idx || (same && idx == i.val)) cells handles := by
  rw [takenSlots, if_pos ⟨hne, hsend⟩]

private theorem avoids_skip (hskip : handle = 0 ∨ canSend handle.toNat = false ∨ cells = []) :
    Avoids zero same canSend cells (handle :: handles) ↔
      ¬ (handle = 0 ∧ zero = true ∧ cells ≠ []) ∧ Avoids zero same canSend cells handles := by
  simp only [Avoids, forall_split_cons, takenSlots_skip hskip]
  have hfirst : (handle = 0 → cells.length ≤ (takenSlots same canSend cells []).length) ↔
      ¬ (handle = 0 ∧ cells ≠ []) := by
    cases cells with
    | nil => simp [takenSlots]
    | cons i cells => simp [takenSlots]
  rw [hfirst]
  constructor
  · intro h
    exact ⟨fun hbad => (h.2 hbad.2.1).1 ⟨hbad.1, hbad.2.2⟩, h.1, fun hzero => (h.2 hzero).2⟩
  · intro h
    exact ⟨h.2.1, fun hzero => ⟨fun hbad => h.1 ⟨hbad.1, hzero, hbad.2⟩, h.2.2 hzero⟩⟩

private theorem avoids_fill (hne : handle ≠ 0) (hsend : canSend handle.toNat = true) :
    Avoids zero same canSend (i :: cells) (handle :: handles) ↔
      i ≠ 0 ∧ Avoids zero same (fun idx => canSend idx || (same && idx == i.val)) cells handles := by
  simp only [Avoids, forall_split_cons, takenSlots_fill hne hsend, mem_cons, not_or,
    length_cons, Nat.add_le_add_iff_right, and_assoc, ne_comm (a := i)]
  refine and_congr_right fun _ => and_congr_right fun _ => forall_congr' fun _ => ?_
  exact ⟨fun h => h.2, fun h => ⟨fun hzero => absurd hzero hne, h⟩⟩

end

private theorem entriesDelivered_iff {handles : List (BitVec 32)}
    (hfree : (k₁.tables dst).FreeSlots cells)
    (hmono : ∀ idx info, k.sendable src idx = some info → k₁.sendable src idx = some info) :
    EntriesDelivered src dst k k₁ handles ↔
      Avoids (k.sendable src 0).isSome (decide (src = dst))
        (fun idx => (k₁.sendable src idx).isSome) cells handles := by
  induction handles generalizing k₁ cells with
  | nil =>
    refine iff_of_true ?_ ⟨?_, ?_⟩
    · intro before handle after heq
      simp at heq
    · rw [takenSlots_done]
      exact not_mem_nil
    · intro _ before handle after heq
      simp at heq
  | cons handle handles ih =>
    obtain ⟨handle', k₂, cells₂, hrun, hstep, hfree₂⟩ := transferEntry_step hfree src handle
    obtain ⟨handles', k', hrest, hholds⟩ := transferEntries_run hfree₂ src handles
    have hmono₂ : ∀ idx info, k.sendable src idx = some info → k₂.sendable src idx = some info :=
      fun idx info hsend => hstep.sendable_mono hfree (hmono idx info hsend)
    rw [entriesDelivered_cons hrun hrest, hstep.delivered_iff hfree hmono hholds, ih hfree₂ hmono₂]
    cases hstep with
    | skipped halike hskip =>
      have hcan : (fun idx => (k₂.sendable src idx).isSome) =
          fun idx => (k₁.sendable src idx).isSome := by
        funext idx
        rw [halike.sendable]
      have hskip' : handle = 0 ∨ (k₁.sendable src handle.toNat).isSome = false ∨ cells = [] :=
        hskip.imp_right fun h => h.imp_left fun hnone => by rw [hnone]; rfl
      rw [hcan, avoids_skip hskip', and_assoc]
      refine and_congr_right fun _ => and_iff_right ?_
      intro hbad
      cases hskip' with
      | inl hzero => exact hbad.1 hzero
      | inr hskip' =>
        cases hskip' with
        | inl hsend => simp [hsend] at hbad
        | inr hnil => simp [hnil] at hbad
    | filled hne hsend hslots hgen =>
      rename_i i info
      have hsome : (k₁.sendable src handle.toNat).isSome = true := by
        rw [hsend]
        rfl
      have hcan : (fun idx => (k₂.sendable src idx).isSome) =
          fun idx => (k₁.sendable src idx).isSome ||
            (decide (src = dst) && idx == i.val) := by
        funext idx
        rw [sendable_filled hslots hgen (grant_of_sendable hsend)]
        split
        · next hplace => simp [hplace.1, hplace.2]
        · next hplace =>
          by_cases hsrc : src = dst
          · have hidx : idx ≠ i.val := fun heq => hplace ⟨hsrc, heq⟩
            simp [hidx]
          · simp [hsrc]
      rw [hcan, avoids_fill hne hsome]
      refine and_congr ⟨fun h hi => ?_, fun hi => ⟨fun h => hne h.1, fun h => ?_⟩⟩ Iff.rfl
      · exact h.2 ⟨hne, hsome, by rw [hi]; rfl⟩
      · exact hi (Option.some.inj h.2.2)

private theorem transferEntries_append {before before' after after' : List (BitVec 32)}
    {k₃ : Kernel Process} (hbefore : k.transferEntries src dst before = .ok (before', k₁))
    (hentry : k₁.transferEntry src dst handle = .ok (handle', k₂))
    (hafter : k₂.transferEntries src dst after = .ok (after', k₃)) :
    k.transferEntries src dst (before ++ handle :: after) =
      .ok (before' ++ handle' :: after', k₃) := by
  induction before generalizing k before' with
  | nil =>
    cases hbefore
    simp only [nil_append, transferEntries, hentry, hafter, ok_bind]
  | cons h before ih =>
    simp only [transferEntries, bind_eq_ok] at hbefore
    obtain ⟨⟨h', k₀⟩, hh, ⟨rest', k₀'⟩, hrest, heq⟩ := hbefore
    cases heq
    simp only [cons_append, transferEntries, hh, ih hrest, ok_bind]

private theorem transferCaps_of_entries {msg : Message} {handles' : List (BitVec 32)}
    (h : k.transferEntries src dst msg.caps.val = .ok (handles', k')) :
    ∃ msg', k.transferCaps msg (.user src) (.user dst) = .ok (msg', k') ∧
      msg'.caps.val = handles' := by
  simp only [transferCaps]
  split
  · next hok =>
    rw [h] at hok
    cases hok
    exact ⟨_, rfl, rfl⟩
  · next herror =>
    rw [h] at herror
    cases herror

private theorem delivers_iff_entries {msg : Message} :
    k.Delivers msg src dst ↔ EntriesDelivered src dst k k msg.caps.val := by
  constructor
  · intro h before handle after heq
    obtain ⟨_, _, _, _, _, _, _, hbefore, hentry, hafter, _, _, hdelivered⟩ :=
      h before handle after heq
    exact ⟨_, _, _, _, _, _, hbefore, hentry, hafter, hdelivered⟩
  · intro h before handle after heq
    obtain ⟨_, _, _, _, _, _, hbefore, hentry, hafter, hdelivered⟩ := h before handle after heq
    have hall := transferEntries_append hbefore hentry hafter
    rw [← heq] at hall
    obtain ⟨msg', hcaps, hval⟩ := transferCaps_of_entries hall
    exact ⟨_, _, _, _, _, _, msg', hbefore, hentry, hafter, hcaps, hval, hdelivered⟩

/-- A transfer delivers what was sent exactly when slot 0 of the receiver is not taken by an entry
and no entry 0 stands for a capability in slot 0 of the sender that there was room for. -/
theorem transfer_delivers_iff (hfree : (k.tables dst).FreeSlots cells) (src : Process)
    (msg : Message) :
    k.Delivers msg src dst ↔
      0 ∉ takenSlots (decide (src = dst)) (fun idx => (k.sendable src idx).isSome) cells
        msg.caps.val ∧
      ((k.sendable src 0).isSome = true → ∀ before handle after,
        msg.caps.val = before ++ handle :: after → handle = 0 →
        cells.length ≤ (takenSlots (decide (src = dst)) (fun idx => (k.sendable src idx).isSome)
          cells before).length) := by
  rw [delivers_iff_entries, entriesDelivered_iff hfree fun _ _ => id]
  rfl

section

open World Transition

private theorem freeSlots_cons {table : CapabilityTable} (hfree : table.FreeSlots cells)
    (hhead : table.freeHead = i.val) : ∃ rest, cells = i :: rest := by
  have hlinked := hfree.linked
  rw [hhead] at hlinked
  cases cells with
  | nil =>
    have hlt : i.val < 256 := i.isLt
    have hstop : i.val = 2 ^ 32 - 1 := hlinked
    omega
  | cons j rest => exact ⟨rest, by rw [Fin.ext hlinked.1]⟩

/-- A frame in slots 0 and 1 of the first process, and an empty second table. -/
private def twoSlots : List (Operation Bool) :=
  [.create 4096, .insert false .frame 4096 all, .copy false 0 all]

/-- The capability arrives in slot 0 of the receiver and the message says that none came. -/
theorem transfer_lost : ∃ w : World Bool, system.Reachable anyStep w ∧
    ¬ w.kernel.Delivers { caps := ⟨[1, 0, 0, 0], rfl⟩ } false true := by
  have hrun : (System.runNext next (blank Bool) twoSlots).isSome = true := by decide
  obtain ⟨w, hw⟩ := isSome_iff_exists.mp hrun
  have hstate : (System.runNext next (blank Bool) twoSlots).map
      (fun w => ((w.kernel.tables true).freeHead, (w.kernel.sendable false 1).isSome)) =
      some (0, true) := by decide
  rw [hw] at hstate
  obtain ⟨hhead, hsend⟩ := Prod.mk.inj (Option.some.inj hstate)
  have hreach : system.Reachable anyStep w := reachable_of_run hw
  obtain ⟨cells, hfree⟩ := (reachable_accounted hreach).wellFormed true
  obtain ⟨rest, rfl⟩ := freeSlots_cons (i := 0) hfree hhead
  refine ⟨w, hreach, ?_⟩
  rw [delivers_iff_entries, entriesDelivered_iff hfree fun _ _ => id]
  intro h
  refine h.1 ?_
  rw [takenSlots_fill (by decide) hsend]
  exact mem_cons_self

/-- The second process has a frame in slot 1 only, the first one has one in slot 0. -/
private def slotOne : List (Operation Bool) :=
  [.create 4096, .ref 4096, .insert false .frame 4096 all,
    .insert true .frame 4096 all, .copy true 0 all, .remove true 0]

theorem transfer_delivers_slot_one : ∃ w : World Bool,
    System.runNext next (blank Bool) slotOne = some w ∧
    w.kernel.Delivers { caps := ⟨[1, 0, 0, 0], rfl⟩ } true false := by
  have hrun : (System.runNext next (blank Bool) slotOne).isSome = true := by decide
  obtain ⟨w, hw⟩ := isSome_iff_exists.mp hrun
  have hstate : (System.runNext next (blank Bool) slotOne).map
      (fun w => ((w.kernel.tables false).freeHead, (w.kernel.sendable true 1).isSome,
        (w.kernel.sendable true 0).isSome)) = some (1, true, false) := by decide
  rw [hw] at hstate
  obtain ⟨hhead, hsends⟩ := Prod.mk.inj (Option.some.inj hstate)
  obtain ⟨hsend, hzero⟩ := Prod.mk.inj hsends
  obtain ⟨cells, hfree⟩ := (reachable_accounted (reachable_of_run hw)).wellFormed false
  obtain ⟨rest, rfl⟩ := freeSlots_cons (i := 1) hfree hhead
  refine ⟨w, hw, (transfer_delivers_iff hfree true _).mpr ⟨?_, fun h => ?_⟩⟩
  · rw [takenSlots_fill (by decide) hsend, takenSlots_skip (.inl rfl), takenSlots_skip (.inl rfl),
      takenSlots_skip (.inl rfl), takenSlots_done]
    decide
  · rw [hzero] at h
    cases h

end

end Kernel

end Innigkeit.Capabilities

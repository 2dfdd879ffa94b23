import Innigkeit.Capabilities.CapabilityTable
import Innigkeit.Library.Counting
import Innigkeit.Library.FreeList
import Mathlib.Data.Fintype.Prod

/-!
What the tables and the reference counts agree on. Outstanding references are
those that no slot owns: a snapshot, or an object that was made and is not yet
in a table. Every table operation is a sequence of effects, each of which moves
one reference or fills or empties one slot; the accounts are kept by each
effect, so an operation keeps them as soon as it is cut into effects.
-/

namespace Innigkeit.Capabilities

open Zig Function List FreeList.Exact

/-- How often a slot counts as a reference to the object at `ptr`. -/
def Slot.names (ptr : ℕ) (slot : Slot) : ℕ :=
  if slot.type ≠ none ∧ slot.ptrOrNext = ptr then 1 else 0

theorem Slot.names_of_null {ptr : ℕ} {slot : Slot} (h : slot.type = none) : slot.names ptr = 0 := by
  simp [names, h]

theorem Slot.names_of_type {ptr : ℕ} {slot : Slot} (h : slot.type ≠ none) :
    slot.names ptr = if slot.ptrOrNext = ptr then 1 else 0 := by
  simp [names, h]

theorem Slot.live_eq_some {slot : Slot} {live : LiveSlot} :
    slot.live = some live ↔ slot.type = some live.type ∧ slot.ptrOrNext = live.ptr ∧
      slot.rights = live.rights ∧ slot.generation = live.generation := by
  simp only [Slot.live, Option.map_eq_some_iff]
  constructor
  · intro h
    obtain ⟨type, htype, heq⟩ := h
    cases heq
    exact ⟨htype, rfl, rfl, rfl⟩
  · intro h
    refine ⟨live.type, h.1, ?_⟩
    rw [h.2.1, h.2.2.1, h.2.2.2]

namespace CapabilityTable

/-- The free slots in the order in which they are handed out. -/
def FreeSlots (table : CapabilityTable) (cells : List (Fin capCount)) : Prop :=
  FreeList.Exact (fun i => (table.slots i).ptrOrNext) nullIdx table.freeHead
    (fun i => (table.slots i).type = none) cells

def WellFormed (table : CapabilityTable) : Prop := ∃ cells, table.FreeSlots cells

variable {table : CapabilityTable} {cells : List (Fin capCount)} {i : Fin capCount} {slot : Slot}

theorem init_freeSlots (generation : Fin capCount → BitVec 32) :
    (init generation).FreeSlots (List.finRange capCount) :=
  finRange (fun _ => rfl) fun _ => rfl

theorem FreeSlots.fill (h : table.FreeSlots (i :: cells)) (hslot : slot.type ≠ none) :
    FreeSlots ⟨update table.slots i slot, (table.slots i).ptrOrNext⟩ cells := by
  refine pop h ?_ ?_ ?_
  · intro j hj
    simp only [update_of_ne hj]
  · intro j hj
    simp only [update_of_ne hj]
  · simpa only [update_self] using hslot

theorem FreeSlots.clear (h : table.FreeSlots cells) (hi : (table.slots i).type ≠ none)
    (hslot : slot.type = none) (hnext : slot.ptrOrNext = table.freeHead) :
    FreeSlots ⟨update table.slots i slot, i⟩ (i :: cells) := by
  refine push h hi ?_ ?_ ?_ ?_
  · intro j hj
    simp only [update_of_ne hj]
  · simpa only [update_self] using hnext
  · intro j hj
    simp only [update_of_ne hj]
  · simpa only [update_self] using hslot

theorem FreeSlots.next_lt (h : table.FreeSlots (i :: cells)) :
    (table.slots i).ptrOrNext < 2 ^ 32 := by
  cases h.linked.2.head_cases with
  | inl hlt => exact lt_trans hlt (by decide)
  | inr heq =>
    have hstop : (table.slots i).ptrOrNext = nullIdx := heq
    rw [hstop]
    decide

theorem getLocked_eq_some {idx : ℕ} {live : LiveSlot} :
    table.getLocked idx = some live ↔
      ∃ h : idx < capCount, (table.slots ⟨idx, h⟩).live = some live := by
  rw [getLocked]
  split
  · next h => exact ⟨fun hlive => ⟨h, hlive⟩, fun hlive => hlive.2⟩
  · next h => exact ⟨fun hnone => (by cases hnone), fun hlive => absurd hlive.1 h⟩

end CapabilityTable

namespace Kernel

variable {Process : Type}

def slotAt (k : Kernel Process) (place : Process × Fin capCount) : Slot :=
  (k.tables place.1).slots place.2

/-- How many slots of all tables name the object. -/
def naming [Fintype Process] (k : Kernel Process) (ptr : ℕ) : ℕ :=
  Counting.total (Slot.names ptr) k.slotAt

section

variable (k : Kernel Process) (p : Process) (i : Fin capCount) (slot : Slot) (freeHead ptr : ℕ)
  (f : Object → Object)

@[simp] theorem modifyObject_slotAt : (k.modifyObject ptr f).slotAt = k.slotAt := rfl

@[simp] theorem modifyObject_objects :
    (k.modifyObject ptr f).objects = update k.objects ptr (f (k.objects ptr)) := rfl

@[simp] theorem modifyObject_naming [Fintype Process] (x : ℕ) :
    (k.modifyObject ptr f).naming x = k.naming x := rfl

variable [DecidableEq Process]

@[simp] theorem setSlot_objects : (k.setSlot p i slot freeHead).objects = k.objects := rfl

@[simp] theorem setSlot_slotAt :
    (k.setSlot p i slot freeHead).slotAt = update k.slotAt (p, i) slot := by
  funext q
  by_cases hp : q.1 = p
  · by_cases hi : q.2 = i
    · have hq : q = (p, i) := Prod.ext hp hi
      simp [slotAt, setSlot, hq]
    · have hq : q ≠ (p, i) := fun h => hi (by rw [h])
      simp [slotAt, setSlot, hp, hq, hi]
  · have hq : q ≠ (p, i) := fun h => hp (by rw [h])
    simp [slotAt, setSlot, hp, hq]

theorem setSlot_tables_self :
    (k.setSlot p i slot freeHead).tables p = ⟨update (k.tables p).slots i slot, freeHead⟩ := by
  simp [setSlot]

theorem setSlot_tables_of_ne {q : Process} (h : q ≠ p) :
    (k.setSlot p i slot freeHead).tables q = k.tables q := by
  simp [setSlot, h]

end

section

variable [DecidableEq Process] {k : Kernel Process} {p : Process} {i : Fin capCount}
  {cells : List (Fin capCount)}

def newSlot (k : Kernel Process) (capType : ObjectType) (ptr : ℕ) (rights : Rights) : Slot :=
  { ptrOrNext := ptr
    type := some capType
    rights := rights
    generation := k.objectGeneration ptr }

theorem insertLocked_of_nil (h : (k.tables p).FreeSlots []) (capType : ObjectType) (ptr : ℕ)
    (rights : Rights) : k.insertLocked p capType ptr rights = .ok (.error .full, k) := by
  have hhead : (k.tables p).freeHead = nullIdx := h.linked
  rw [insertLocked, dif_neg]
  rw [hhead]
  decide

theorem insertLocked_of_cons (h : (k.tables p).FreeSlots (i :: cells)) (capType : ObjectType)
    (ptr : ℕ) (rights : Rights) :
    k.insertLocked p capType ptr rights =
      .ok (.ok i, k.setSlot p i (k.newSlot capType ptr rights)
        ((k.tables p).slots i).ptrOrNext) := by
  have hhead : (k.tables p).freeHead = i := h.linked.1
  have hidx : (⟨(k.tables p).freeHead, hhead ▸ i.isLt⟩ : Fin capCount) = i := Fin.ext hhead
  rw [insertLocked, dif_pos (hhead ▸ i.isLt)]
  simp only [hidx, intCast_of_lt h.next_lt, ok_bind]
  rfl

end

end Kernel

/-- The kernel and the references that no slot owns. -/
structure World (Process : Type) where
  kernel : Kernel Process
  outstanding : List ℕ

namespace World

variable {Process : Type} [Fintype Process]

/-- Each count is the number of references, and an object is destroyed when there are none. -/
structure Accounted (w : World Process) : Prop where
  wellFormed : ∀ p, (w.kernel.tables p).WellFormed
  refcount : ∀ x, (w.kernel.objects x).refcount = w.kernel.naming x + w.outstanding.count x
  destroyed : ∀ x, (w.kernel.objects x).destroyed = true ↔ (w.kernel.objects x).refcount = 0

theorem Accounted.refcount_pos {w : World Process} (h : w.Accounted) {p : Process}
    {i : Fin capCount} (hi : ((w.kernel.tables p).slots i).type ≠ none) :
    0 < (w.kernel.objects ((w.kernel.tables p).slots i).ptrOrNext).refcount := by
  have hle := Counting.le_total (Slot.names ((w.kernel.tables p).slots i).ptrOrNext)
    w.kernel.slotAt (p, i)
  have hone : (w.kernel.slotAt (p, i)).names ((w.kernel.tables p).slots i).ptrOrNext = 1 := by
    simp only [Kernel.slotAt, Slot.names_of_type hi, if_true]
  rw [h.refcount, Kernel.naming]
  omega

end World

/-- What an operation does to references and slots, one at a time. -/
inductive Effect (Process : Type) where
  | ref (ptr : ℕ)
  | unref (ptr : ℕ)
  | fill (p : Process) (i : Fin capCount)
  | clear (p : Process) (i : Fin capCount)
  | revoke (ptr : ℕ)
  | create (ptr : ℕ)
  deriving DecidableEq

inductive Micro {Process : Type} [DecidableEq Process] :
    World Process → Effect Process → World Process → Prop where
  | ref {k : Kernel Process} {out : List ℕ} {x : ℕ} (hpos : 0 < (k.objects x).refcount) :
      Micro ⟨k, out⟩ (.ref x) ⟨k.refObject x, x :: out⟩
  | unref {k : Kernel Process} {out out' : List ℕ} {x : ℕ} (hout : out.Perm (x :: out')) :
      Micro ⟨k, out⟩ (.unref x) ⟨k.unrefObject x, out'⟩
  | fill {k : Kernel Process} {out out' : List ℕ} {p : Process} {i : Fin capCount}
      {cells : List (Fin capCount)} {slot : Slot} (hfree : (k.tables p).FreeSlots (i :: cells))
      (hslot : slot.type ≠ none) (hgen : slot.generation = k.objectGeneration slot.ptrOrNext)
      (hout : out.Perm (slot.ptrOrNext :: out')) :
      Micro ⟨k, out⟩ (.fill p i) ⟨k.setSlot p i slot ((k.tables p).slots i).ptrOrNext, out'⟩
  | clear {k : Kernel Process} {out : List ℕ} {p : Process} {i : Fin capCount} {slot : Slot}
      (hi : ((k.tables p).slots i).type ≠ none) (hslot : slot.type = none)
      (hnext : slot.ptrOrNext = (k.tables p).freeHead) :
      Micro ⟨k, out⟩ (.clear p i)
        ⟨k.setSlot p i slot i, ((k.tables p).slots i).ptrOrNext :: out⟩
  | revoke {k : Kernel Process} {out : List ℕ} {x : ℕ} :
      Micro ⟨k, out⟩ (.revoke x) ⟨k.incrementObjectGeneration x, out⟩
  | create {k : Kernel Process} {out : List ℕ} {x : ℕ}
      (hdestroyed : (k.objects x).destroyed = true) :
      Micro ⟨k, out⟩ (.create x) ⟨k.modifyObject x fun _ => {}, x :: out⟩

open Kernel Slot

section

variable {Process : Type} [DecidableEq Process] [Fintype Process] {w w' : World Process}
  {e : Effect Process}

omit [Fintype Process] in
private theorem wellFormed_setSlot {k : Kernel Process} {p : Process} {i : Fin capCount}
    {slot : Slot} {freeHead : ℕ} (h : ∀ q, (k.tables q).WellFormed)
    (hp : CapabilityTable.WellFormed ⟨update (k.tables p).slots i slot, freeHead⟩) (q : Process) :
    ((k.setSlot p i slot freeHead).tables q).WellFormed := by
  by_cases hq : q = p
  · rw [hq, setSlot_tables_self]
    exact hp
  · rw [setSlot_tables_of_ne _ _ _ _ _ hq]
    exact h q

private theorem naming_setSlot (k : Kernel Process) (p : Process) (i : Fin capCount) (slot : Slot)
    (freeHead x : ℕ) :
    (k.setSlot p i slot freeHead).naming x + (k.slotAt (p, i)).names x =
      k.naming x + slot.names x := by
  rw [naming, setSlot_slotAt]
  exact Counting.total_update (names x) k.slotAt (p, i) slot

omit [DecidableEq Process] in
/-- Changing one object keeps the accounts if its count follows the outstanding references. -/
private theorem accounted_modify {k : Kernel Process} {out out' : List ℕ} {x : ℕ}
    {f : Object → Object} (h : World.Accounted ⟨k, out⟩)
    (hother : ∀ y ≠ x, out'.count y = out.count y)
    (hcount : (f (k.objects x)).refcount = k.naming x + out'.count x)
    (hdestroyed : (f (k.objects x)).destroyed = true ↔ (f (k.objects x)).refcount = 0) :
    World.Accounted ⟨k.modifyObject x f, out'⟩ := by
  refine ⟨h.wellFormed, fun y => ?_, fun y => ?_⟩
  · by_cases hy : y = x
    · simpa only [hy, modifyObject_objects, modifyObject_naming, update_self] using hcount
    · simp only [modifyObject_objects, update_of_ne hy, hother y hy]
      exact h.refcount y
  · by_cases hy : y = x
    · simpa only [hy, modifyObject_objects, update_self] using hdestroyed
    · simp only [modifyObject_objects, update_of_ne hy]
      exact h.destroyed y

theorem Micro.accounted (hstep : Micro w e w') (h : w.Accounted) : w'.Accounted := by
  cases hstep with
  | ref hpos =>
    rename_i k out x
    have hcount : (k.objects x).refcount = k.naming x + out.count x := h.refcount x
    refine accounted_modify h (fun y hy => count_cons_of_ne hy.symm) ?_ ?_
    · simp only [count_cons_self, Object.ref]
      omega
    · refine iff_of_false (fun hd => ?_) (Nat.succ_ne_zero _)
      have hzero : (k.objects x).refcount = 0 := (h.destroyed x).mp hd
      omega
  | unref hout =>
    rename_i k out out' x
    have hcount := h.refcount x
    have hdestroyed := h.destroyed x
    simp only [hout.count_eq, count_cons_self] at hcount
    refine accounted_modify h (fun y hy => ?_) ?_ ?_
    · rw [hout.count_eq, count_cons_of_ne hy.symm]
    · simp only [Object.unref]
      omega
    · simp only [Object.unref, Bool.or_eq_true, beq_iff_eq, hdestroyed]
      omega
  | fill hfree hslot hgen hout =>
    rename_i k out out' p i cells slot
    refine ⟨wellFormed_setSlot h.wellFormed ⟨cells, hfree.fill hslot⟩, fun x => ?_,
      h.destroyed⟩
    have hcount := h.refcount x
    have hnaming := naming_setSlot k p i slot ((k.tables p).slots i).ptrOrNext x
    have hnull : (k.slotAt (p, i)).names x = 0 :=
      names_of_null ((hfree.mem_iff i).mp mem_cons_self)
    rw [hnull, names_of_type hslot] at hnaming
    simp only [hout.count_eq, count_cons, beq_iff_eq] at hcount
    simp only [setSlot_objects]
    omega
  | clear hi hslot hnext =>
    rename_i k out p i slot
    obtain ⟨cells, hfree⟩ := h.wellFormed p
    refine ⟨wellFormed_setSlot h.wellFormed ⟨i :: cells, hfree.clear hi hslot hnext⟩,
      fun x => ?_, h.destroyed⟩
    have hcount : (k.objects x).refcount = k.naming x + out.count x := h.refcount x
    have hnaming := naming_setSlot k p i slot i x
    have hone : (k.slotAt (p, i)).names x =
        if ((k.tables p).slots i).ptrOrNext = x then 1 else 0 := names_of_type hi
    rw [hone, names_of_null hslot] at hnaming
    simp only [count_cons, beq_iff_eq, setSlot_objects]
    omega
  | revoke =>
    rename_i k out x
    exact accounted_modify h (fun _ _ => rfl) (h.refcount x) (h.destroyed x)
  | create hdestroyed =>
    rename_i k out x
    have hcount := h.refcount x
    rw [(h.destroyed x).mp hdestroyed] at hcount
    refine accounted_modify h (fun y hy => count_cons_of_ne hy.symm) ?_ (by decide)
    simp only [count_cons_self] at hcount ⊢
    omega

def Steps (allows : Effect Process → Prop) : World Process → World Process → Prop :=
  Relation.ReflTransGen fun w w' => ∃ e, allows e ∧ Micro w e w'

theorem Steps.accounted {allows : Effect Process → Prop} (hsteps : Steps allows w w')
    (h : w.Accounted) : w'.Accounted := by
  induction hsteps with
  | refl => exact h
  | tail _ hstep ih =>
    obtain ⟨e, _, hmicro⟩ := hstep
    exact hmicro.accounted ih

end

end Innigkeit.Capabilities

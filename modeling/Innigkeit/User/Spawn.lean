import Innigkeit.Capabilities.Dropped

/-!
The references that a spawn moves. The handler takes a reference for every grant that it
resolves and hands them to `spawnFromInitfs`, which inserts them into the table of the
child; the exit Notify has one reference for the caller and one for the child. When
a spawn fails after the child was made, the child is torn down and every reference
is given back. When it fails before that, the references of the grants are
forgotten, and between the two the child's reference to the Notify is.
-/

namespace Innigkeit.User

open Zig Function Transition List Option
open Innigkeit.Capabilities

inductive SpawnError where
  | outOfMemory
  | notFound
  | permissionDenied
  deriving DecidableEq, Repr

def SpawnError.toSyscallError : SpawnError → SyscallError
  | .outOfMemory => .outOfMemory
  | .notFound => .notFound
  | .permissionDenied => .permissionDenied

structure CapGrant where
  srcSlot : BitVec 32
  rightsRaw : Rights
  deriving DecidableEq, Repr

/-- What does not depend on the capabilities: the lookup and the signature of the program, and
which allocations succeed. -/
structure SpawnPlan where
  resolveElfAndEntitlements : Except SpawnError Unit := .ok ()
  notify : Option ℕ
  process : Bool := true
  thread : Bool := true

def maxCapGrants : ℕ := 64

variable {Process : Type} [DecidableEq Process]

def createExitNotify (k : Kernel Process) (notify : ℕ) : Kernel Process :=
  (k.modifyObject notify fun _ => {}).refObject notify

def initTable (k : Kernel Process) (p : Process) : Kernel Process :=
  let table := CapabilityTable.init fun i => ((k.tables p).slots i).generation
  { k with tables := update k.tables p table }

def unrefGrants (k : Kernel Process) (grants : List SlotInfo) : Kernel Process :=
  grants.foldl (fun k grant => k.unrefObject grant.ptr) k

def insertGrants (child : Process) (k : Kernel Process) :
    List SlotInfo → Checked (Bool × Kernel Process)
  | [] => .ok (true, k)
  | grant :: grants => do
    match ← k.insertLocked child grant.capType grant.ptr grant.rights with
    | (.ok _, k) => insertGrants child k grants
    | (.error _, k) => .ok (false, unrefGrants k (grant :: grants))

def cleanupProcess (k : Kernel Process) (p : Process) (exitNotify : ℕ) : Kernel Process :=
  (k.unrefObject exitNotify).deinitAll p

def spawnFromInitfs (k : Kernel Process) (child : Process) (grants : List SlotInfo)
    (plan : SpawnPlan) : Checked (Except SpawnError ℕ × Kernel Process) :=
  match plan.resolveElfAndEntitlements with
  | .error e => .ok (.error e, k)
  | .ok () =>
    match plan.notify with
    | none => .ok (.error .outOfMemory, k)
    | some notify =>
      let k := createExitNotify k notify
      if plan.process then do
        let (inserted, k) ← insertGrants child (initTable k child) grants
        if inserted && plan.thread then .ok (.ok notify, k)
        -- The last reference to the child goes, and then the caller's reference to the Notify.
        else .ok (.error .outOfMemory, (cleanupProcess k child notify).unrefObject notify)
      else .ok (.error .outOfMemory, k.unrefObject notify)

/-- One round of the loop of the handler. -/
def resolveGrant (k : Kernel Process) (parent : Process) (grant : CapGrant) :
    Option SlotInfo × Kernel Process :=
  match k.getAndRefLocked parent grant.srcSlot.toNat with
  | none => (none, k)
  | some (info, k) =>
    if !info.rights.grant then (none, k.unrefObject info.ptr)
    else if grant.rightsRaw &&& ~~~info.rights ≠ 0 then (none, k.unrefObject info.ptr)
    else (some { info with rights := grant.rightsRaw }, k)

def resolveGrants (k : Kernel Process) (parent : Process) :
    List CapGrant → List SlotInfo × Kernel Process
  | [] => ([], k)
  | grant :: grants =>
    let (info, k) := resolveGrant k parent grant
    let (infos, k) := resolveGrants k parent grants
    (info.toList ++ infos, k)

/-- The syscall `spawn` from the grants on. The last component is the exit Notify of a child that
runs. -/
def spawn (k : Kernel Process) (parent child : Process) (grants : List CapGrant)
    (plan : SpawnPlan) :
    Checked (Except SyscallError (Fin capCount) × Kernel Process × Option ℕ) :=
  if maxCapGrants < grants.length then .ok (.error .invalidArgument, k, none)
  else do
    let (resolved, k) := resolveGrants k parent grants
    match ← spawnFromInitfs k child resolved plan with
    | (.error e, k) => .ok (.error e.toSyscallError, k, none)
    | (.ok notify, k) =>
      match ← k.insertLocked parent .notify notify Rights.readOnly with
      | (.ok handle, k) => .ok (.ok handle, k, some notify)
      | (.error _, k) => .ok (.error .outOfMemory, k.unrefObject notify, some notify)

/-- The end of the child, if one is left. -/
def teardown (k : Kernel Process) (child : Process) : Option ℕ → Kernel Process
  | none => k
  | some notify => cleanupProcess k child notify

def refGrants (k : Kernel Process) (grants : List SlotInfo) : Kernel Process :=
  grants.foldl (fun k grant => k.refObject grant.ptr) k

/-- All counts are as before. -/
def Conserved (k k' : Kernel Process) : Prop :=
  ∀ x, (k'.objects x).refcount = (k.objects x).refcount

/-- Where a failure gives back the references: nowhere when the process cannot be made, and before
that only when there are no grants. -/
def SpawnPlan.GivesBack (plan : SpawnPlan) (none_granted : Prop) : Prop :=
  match plan.resolveElfAndEntitlements, plan.notify with
  | .ok (), some _ => plan.process = true
  | _, _ => none_granted

/-- The handler resolves a grant: the slot passes the check and may be granted with the rights. -/
def Resolves (k : Kernel Process) (parent : Process) (grant : CapGrant) : Prop :=
  ∃ live, (k.tables parent).getLocked grant.srcSlot.toNat = some live ∧
    live.generation = k.objectGeneration live.ptr ∧ live.rights.grant = true ∧
    rightsSubset grant.rightsRaw live.rights = true

open Kernel CapabilityTable

section

variable {k k' : Kernel Process} {parent child : Process} {grants : List SlotInfo}

omit [DecidableEq Process] in
private theorem refcount_refGrants (k : Kernel Process) (grants : List SlotInfo) (x : ℕ) :
    ((refGrants k grants).objects x).refcount =
      (k.objects x).refcount + (grants.map SlotInfo.ptr).count x := by
  induction grants generalizing k with
  | nil => rfl
  | cons grant grants ih =>
    rw [refGrants, foldl_cons]
    have hrest := ih (k.refObject grant.ptr)
    rw [refGrants, refcount_refObject] at hrest
    rw [hrest, map_cons, count_cons]
    simp only [beq_iff_eq, eq_comm (a := x)]
    omega

omit [DecidableEq Process] in
private theorem refcount_unrefGrants (k : Kernel Process) (grants : List SlotInfo) (x : ℕ) :
    ((unrefGrants k grants).objects x).refcount =
      (k.objects x).refcount - (grants.map SlotInfo.ptr).count x := by
  induction grants generalizing k with
  | nil => rfl
  | cons grant grants ih =>
    rw [unrefGrants, foldl_cons]
    have hrest := ih (k.unrefObject grant.ptr)
    rw [unrefGrants, refcount_unrefObject] at hrest
    rw [hrest, map_cons, count_cons]
    simp only [beq_iff_eq, eq_comm (a := x)]
    omega

omit [DecidableEq Process] in
private theorem unrefGrants_tables (k : Kernel Process) (grants : List SlotInfo) :
    (unrefGrants k grants).tables = k.tables := by
  induction grants generalizing k with
  | nil => rfl
  | cons grant grants ih =>
    rw [unrefGrants, foldl_cons]
    exact ih _

/-- The teardown after the loop gives back the references of all grants, inserted or not. -/
private theorem insertGrants_spec (grants : List SlotInfo) (hwf : (k.tables child).WellFormed) :
    ∃ inserted k', insertGrants child k grants = .ok (inserted, k') ∧
      (∀ q, q ≠ child → k'.tables q = k.tables q) ∧
      ∀ x, (k'.objects x).refcount - (k'.tables child).naming x =
        (k.objects x).refcount - (k.tables child).naming x -
          (grants.map SlotInfo.ptr).count x := by
  induction grants generalizing k with
  | nil => exact ⟨true, k, rfl, fun _ _ => rfl, fun _ => (Nat.sub_zero _).symm⟩
  | cons grant grants ih =>
    obtain ⟨cells, hcells⟩ := hwf
    cases cells with
    | nil =>
      refine ⟨false, unrefGrants k (grant :: grants), ?_, ?_, ?_⟩
      · rw [insertGrants, insertLocked_of_nil hcells]
        rfl
      · intro q _
        rw [unrefGrants_tables]
      · intro x
        rw [refcount_unrefGrants, unrefGrants_tables]
        omega
    | cons i cells =>
      let slot := k.newSlot grant.capType grant.ptr grant.rights
      let k₁ := k.setSlot child i slot ((k.tables child).slots i).ptrOrNext
      have htable : k₁.tables child =
          ⟨update (k.tables child).slots i slot, ((k.tables child).slots i).ptrOrNext⟩ :=
        setSlot_tables_self ..
      have hwf₁ : (k₁.tables child).WellFormed := by
        rw [htable]
        exact ⟨cells, hcells.fill (by simp [slot, Kernel.newSlot])⟩
      obtain ⟨inserted, k', hrun, hothers, hcount⟩ := ih hwf₁
      refine ⟨inserted, k', ?_, ?_, ?_⟩
      · rw [insertGrants, insertLocked_of_cons hcells]
        exact hrun
      · intro q hq
        rw [hothers q hq]
        exact setSlot_tables_of_ne _ _ _ _ _ hq
      · intro x
        have hnull : ((k.tables child).slots i).type = none :=
          (hcells.mem_iff i).mp mem_cons_self
        have hnaming : (k₁.tables child).naming x =
            (k.tables child).naming x + if grant.ptr = x then 1 else 0 := by
          have hmove := Counting.total_update (Slot.names x) (k.tables child).slots i slot
          rw [Slot.names_of_null hnull] at hmove
          simp only [CapabilityTable.naming, htable]
          rw [add_zero] at hmove
          rw [hmove, Slot.names_of_type (by simp [slot, Kernel.newSlot])]
          rfl
        rw [hcount x, hnaming, map_cons, count_cons]
        simp only [beq_iff_eq]
        show (k.objects x).refcount - _ - _ = _
        omega

omit [DecidableEq Process] in
private theorem refcount_createExitNotify (notify : ℕ) (x : ℕ) :
    ((createExitNotify k notify).objects x).refcount =
      if x = notify then 2 else (k.objects x).refcount := by
  rw [createExitNotify, refcount_refObject, refcount_modifyObject]
  split <;> rfl

private theorem refcount_cleanupProcess (notify : ℕ) (x : ℕ) :
    ((cleanupProcess k child notify).objects x).refcount =
      (k.objects x).refcount - (if x = notify then 1 else 0) - (k.tables child).naming x := by
  rw [cleanupProcess, refcount_deinitAll, refcount_unrefObject]
  rfl

private theorem spawnFromInitfs_spec {r : ℕ → ℕ} (child : Process) (plan : SpawnPlan)
    (hcount : ∀ x, (k.objects x).refcount = r x + (grants.map SlotInfo.ptr).count x)
    (hfresh : ∀ n, plan.notify = some n → r n = 0 ∧ n ∉ grants.map SlotInfo.ptr) :
    ∃ result k', spawnFromInitfs k child grants plan = .ok (result, k') ∧
      (∀ e, result = .error e →
        ((∀ x, (k'.objects x).refcount = r x) ↔ plan.GivesBack (grants = []))) ∧
      ∀ n, result = .ok n → plan.notify = some n ∧ plan.GivesBack (grants = []) ∧
        (∀ q, q ≠ child → k'.tables q = k.tables q) ∧ ∀ x,
        (k'.objects x).refcount - (k'.tables child).naming x - (if x = n then 2 else 0) = r x := by
  have hleak : (∀ x, (k.objects x).refcount = r x) ↔ grants = [] := by
    constructor
    · intro h
      cases grants with
      | nil => rfl
      | cons grant grants =>
        have hone := hcount grant.ptr
        rw [h, map_cons, count_cons_self] at hone
        omega
    · intro h x
      rw [hcount x, h]
      rfl
  rw [spawnFromInitfs, SpawnPlan.GivesBack]
  cases hresolve : plan.resolveElfAndEntitlements with
  | error e =>
    refine ⟨_, k, rfl, fun _ _ => hleak, ?_⟩
    intro n hn
    cases hn
  | ok _ =>
    cases hnotify : plan.notify with
    | none =>
      refine ⟨_, k, rfl, fun _ _ => hleak, ?_⟩
      intro n hn
      cases hn
    | some n =>
      obtain ⟨hzero, hnot⟩ := hfresh n hnotify
      have hnone : (grants.map SlotInfo.ptr).count n = 0 := count_eq_zero.mpr hnot
      cases hprocess : plan.process with
      | false =>
        refine ⟨_, (createExitNotify k n).unrefObject n, rfl, ?_, ?_⟩
        · intro e _
          refine iff_of_false (fun h => ?_) (by simp)
          have hone := h n
          rw [refcount_unrefObject, refcount_createExitNotify, if_pos rfl, if_pos rfl,
            hzero] at hone
          cases hone
        · intro m hm
          cases hm
      | true =>
        let k₁ := initTable (createExitNotify k n) child
        have htable : k₁.tables child =
            init fun i => ((k.tables child).slots i).generation :=
          update_self ..
        have hwf : (k₁.tables child).WellFormed := by
          rw [htable]
          exact ⟨_, init_freeSlots _⟩
        have hempty (x : ℕ) : (k₁.tables child).naming x = 0 := by
          rw [htable, CapabilityTable.naming, Counting.total_eq_zero]
          intro i
          exact Slot.names_of_null rfl
        obtain ⟨inserted, k₂, hrun, hothers, hafter⟩ :=
          insertGrants_spec grants hwf
        have hvalue (x : ℕ) : (k₂.objects x).refcount - (k₂.tables child).naming x -
            (if x = n then 2 else 0) = r x := by
          have hx := hafter x
          have hstart : (k₁.objects x).refcount =
              if x = n then 2 else (k.objects x).refcount := refcount_createExitNotify n x
          rw [hempty, hstart] at hx
          rw [hx]
          split
          · next heq => rw [heq, hnone, hzero]
          · rw [hcount x]
            omega
        have htables (q : Process) (hq : q ≠ child) : k₂.tables q = k.tables q := by
          rw [hothers q hq]
          exact update_of_ne hq ..
        have hrun' : insertGrants child (initTable (createExitNotify k n) child) grants =
          .ok (inserted, k₂) := hrun
        simp only [if_true, hrun', ok_bind]
        cases hdone : (inserted && plan.thread) with
        | true =>
          refine ⟨_, k₂, rfl, ?_, ?_⟩
          · intro e he
            cases he
          · intro m hm
            cases hm
            exact ⟨rfl, trivial, htables, hvalue⟩
        | false =>
          refine ⟨_, (cleanupProcess k₂ child n).unrefObject n, rfl, ?_, ?_⟩
          · intro e _
            refine iff_of_true (fun x => ?_) trivial
            rw [refcount_unrefObject, refcount_cleanupProcess, ← hvalue x]
            split <;> omega
          · intro m hm
            cases hm

omit [DecidableEq Process] in
/-- One round takes a reference if it resolves the grant, and leaves the tables alone. -/
private theorem resolveGrant_spec (k : Kernel Process) (parent : Process) (grant : CapGrant) :
    k.Alike (resolveGrant k parent grant).2 ∧
      (∀ x, ((resolveGrant k parent grant).2.objects x).refcount = (k.objects x).refcount +
        ((resolveGrant k parent grant).1.toList.map SlotInfo.ptr).count x) ∧
      ((resolveGrant k parent grant).1 = none ↔ ¬ Resolves k parent grant) ∧
      ∀ info, (resolveGrant k parent grant).1 = some info →
        ∃ idx live, (k.tables parent).getLocked idx = some live ∧ live.ptr = info.ptr := by
  rw [resolveGrant]
  split
  · next hnone =>
    refine ⟨k.alike_refl, fun _ => rfl, ?_, fun info h => by cases h⟩
    refine iff_of_true rfl fun hresolves => ?_
    obtain ⟨live, hlive, hgen, -, -⟩ := hresolves
    have hsome := getAndRefLocked_eq_some.mpr ⟨live, hlive, hgen, rfl, rfl⟩
    rw [hnone] at hsome
    cases hsome
  · next info k₁ hget =>
    obtain ⟨live, hlive, hgen, hinfo, hk₁⟩ := getAndRefLocked_eq_some.mp hget
    have hback (x : ℕ) :
        ((k₁.unrefObject info.ptr).objects x).refcount = (k.objects x).refcount := by
      rw [refcount_unrefObject, hk₁, refcount_refObject]
      omega
    have halike : k.Alike (k₁.unrefObject info.ptr) := by
      rw [hk₁]
      exact (k.alike_refObject _).trans (alike_unrefObject _ _)
    have hsame (live' : LiveSlot)
        (hlive' : (k.tables parent).getLocked grant.srcSlot.toNat = some live') :
        live'.rights = info.rights := by
      rw [hlive] at hlive'
      cases hlive'
      rw [hinfo]
      rfl
    split
    · next hgrant =>
      refine ⟨halike, hback, iff_of_true rfl fun hresolves => ?_, fun info h => by cases h⟩
      obtain ⟨live', hlive', -, hright, -⟩ := hresolves
      rw [hsame live' hlive'] at hright
      rw [hright] at hgrant
      cases hgrant
    split
    · next hrights =>
      refine ⟨halike, hback, iff_of_true rfl fun hresolves => ?_, fun info h => by cases h⟩
      obtain ⟨live', hlive', -, -, hsub⟩ := hresolves
      rw [hsame live' hlive', rightsSubset_iff_and_not] at hsub
      exact hrights hsub
    · next hgrant hrights =>
      refine ⟨?_, ?_, iff_of_false (by simp) (not_not.mpr ?_), ?_⟩
      · rw [hk₁]
        exact k.alike_refObject _
      · intro x
        rw [hk₁, refcount_refObject]
        simp only [toList_some, map_cons, map_nil, count_cons, count_nil,
          beq_iff_eq, eq_comm (a := x), Nat.zero_add]
      · rw [hinfo] at hgrant hrights
        refine ⟨live, hlive, hgen, ?_, ?_⟩
        · rw [Bool.not_eq_true', Bool.not_eq_false] at hgrant
          exact hgrant
        · rw [rightsSubset_iff_and_not]
          exact not_not.mp hrights
      · intro info' h
        cases h
        exact ⟨_, live, hlive, by rw [hinfo]; rfl⟩

omit [DecidableEq Process] in
private theorem Resolves.alike (h : k.Alike k') (grant : CapGrant) :
    Resolves k' parent grant ↔ Resolves k parent grant := by
  simp only [Resolves, h.tables, h.generation]

omit [DecidableEq Process] in
private theorem resolveGrants_spec (k : Kernel Process) (parent : Process)
    (grants : List CapGrant) :
    k.Alike (resolveGrants k parent grants).2 ∧
      (∀ x, ((resolveGrants k parent grants).2.objects x).refcount = (k.objects x).refcount +
        ((resolveGrants k parent grants).1.map SlotInfo.ptr).count x) ∧
      ((resolveGrants k parent grants).1 = [] ↔ ∀ grant ∈ grants, ¬ Resolves k parent grant) ∧
      ∀ info ∈ (resolveGrants k parent grants).1,
        ∃ idx live, (k.tables parent).getLocked idx = some live ∧ live.ptr = info.ptr := by
  induction grants generalizing k with
  | nil =>
    refine ⟨k.alike_refl, fun _ => rfl, ?_, ?_⟩
    · exact iff_of_true rfl fun _ h => by cases h
    · intro info h
      cases h
  | cons grant grants ih =>
    obtain ⟨halike, hcount, hnone, hlive⟩ := resolveGrant_spec k parent grant
    obtain ⟨halike', hcount', hnil, hlive'⟩ := ih (resolveGrant k parent grant).2
    rw [resolveGrants]
    refine ⟨halike.trans halike', ?_, ?_, ?_⟩
    · intro x
      rw [hcount' x, hcount x, map_append, count_append, Nat.add_assoc]
    · rw [append_eq_nil_iff, toList_eq_nil_iff, hnone, hnil, forall_mem_cons]
      simp only [Resolves.alike halike]
    · intro info hinfo
      cases mem_append.mp hinfo with
      | inl hfirst => exact hlive info (mem_toList.mp hfirst)
      | inr hrest =>
        have hrest' := hlive' info hrest
        rw [halike.tables] at hrest'
        exact hrest'

end

open World

/-- A spawn that fails gives back its references if and only if it fails where they are given back:
`spawnFromInitfs` with any grants whose references it takes over, and the syscall in every state of
the tables. -/
theorem spawn_conserves_iff [Fintype Process] :
    (∀ (k : Kernel Process) (child : Process) (grants : List SlotInfo) (plan : SpawnPlan),
      (∀ grant ∈ grants, 0 < (k.objects grant.ptr).refcount) →
      (∀ n, plan.notify = some n → (k.objects n).refcount = 0) →
      ∃ result k', spawnFromInitfs (refGrants k grants) child grants plan = .ok (result, k') ∧
        ∀ e, result = .error e → (Conserved k k' ↔ plan.GivesBack (grants = []))) ∧
    ∀ (w : World Process) (parent child : Process) (grants : List CapGrant) (plan : SpawnPlan),
      World.system.Reachable anyStep w → parent ≠ child → grants.length ≤ maxCapGrants →
      (∀ n, plan.notify = some n → (w.kernel.objects n).destroyed = true) →
      ∃ result k' running, spawn w.kernel parent child grants plan = .ok (result, k', running) ∧
        ∀ e, result = .error e → (Conserved w.kernel (teardown k' child running) ↔
          plan.GivesBack (∀ grant ∈ grants, ¬ Resolves w.kernel parent grant)) := by
  constructor
  · intro k child grants plan hlive hfresh
    have hnotify : ∀ n, plan.notify = some n →
        (k.objects n).refcount = 0 ∧ n ∉ grants.map SlotInfo.ptr := by
      intro n hn
      refine ⟨hfresh n hn, fun hmem => ?_⟩
      obtain ⟨grant, hgrant, heq⟩ := List.mem_map.mp hmem
      have hpos := hlive grant hgrant
      rw [heq, hfresh n hn] at hpos
      exact Nat.lt_irrefl 0 hpos
    obtain ⟨result, k', hrun, herror, -⟩ := spawnFromInitfs_spec child plan
      (refcount_refGrants k grants) hnotify
    exact ⟨result, k', hrun, herror⟩
  · intro w parent child grants plan hreach hne hlength hfresh
    have haccounted := reachable_accounted hreach
    obtain ⟨halike, hcount, hnil, hlive⟩ := resolveGrants_spec w.kernel parent grants
    have hnotify : ∀ n, plan.notify = some n → (w.kernel.objects n).refcount = 0 ∧
        n ∉ (resolveGrants w.kernel parent grants).1.map SlotInfo.ptr := by
      intro n hn
      have hzero := (haccounted.destroyed n).mp (hfresh n hn)
      refine ⟨hzero, fun hmem => ?_⟩
      obtain ⟨info, hinfo, heq⟩ := List.mem_map.mp hmem
      obtain ⟨idx, live, hslot, hptr⟩ := hlive info hinfo
      obtain ⟨hidx, hslot'⟩ := getLocked_eq_some.mp hslot
      obtain ⟨htype, hptr', -, -⟩ := Slot.live_eq_some.mp hslot'
      have hpos := haccounted.refcount_pos (p := parent) (i := ⟨idx, hidx⟩) (by simp [htype])
      rw [hptr', hptr, heq, hzero] at hpos
      exact Nat.lt_irrefl 0 hpos
    obtain ⟨result, k', hrun, herror, hok⟩ := spawnFromInitfs_spec child plan
      hcount hnotify
    rw [hnil] at herror hok
    rw [spawn, if_neg (not_lt.mpr hlength)]
    simp only [hrun, ok_bind]
    cases result with
    | error e => exact ⟨_, _, _, rfl, fun _ _ => herror e rfl⟩
    | ok n =>
      obtain ⟨-, hback, htables, hvalue⟩ := hok n rfl
      obtain ⟨cells, hcells⟩ := haccounted.wellFormed parent
      have hparent : (k'.tables parent).FreeSlots cells := by
        rw [htables parent hne, halike.tables]
        exact hcells
      simp only
      cases cells with
      | cons i cells =>
        rw [insertLocked_of_cons hparent]
        exact ⟨_, _, _, rfl, fun _ h => by cases h⟩
      | nil =>
        rw [insertLocked_of_nil hparent]
        refine ⟨_, _, _, rfl, fun _ _ => iff_of_true (fun x => ?_) hback⟩
        rw [teardown, refcount_cleanupProcess, refcount_unrefObject, ← hvalue x]
        show _ - _ - _ - (k'.tables child).naming x = _
        split <;> omega

/-- The process `false` holds a frame in its slot 0. -/
private def holdFrame : List (Operation Bool) :=
  [.create 4096, .insert false .frame 4096 Rights.all]

open System

private theorem holdFrame_reachable : ∃ w : World Bool,
    runNext next (blank Bool) holdFrame = some w ∧
    system.Reachable anyStep w := by
  have hrun : (runNext next (blank Bool) holdFrame).isSome = true := by decide
  obtain ⟨w, hw⟩ := isSome_iff_exists.mp hrun
  exact ⟨w, hw, reachable_of_run hw⟩

/-- The frame is granted, and the thread of the child cannot be made. -/
theorem spawn_conserves_no_thread : ∃ (w : World Bool) (k' : Kernel Bool),
    World.system.Reachable anyStep w ∧
    spawn w.kernel false true [⟨0, Rights.readOnly⟩] { notify := some 8192, thread := false } =
      .ok (.error .outOfMemory, k', none) ∧
    Conserved w.kernel k' := by
  obtain ⟨w, hw, hreach⟩ := holdFrame_reachable
  have hfails : (runNext next (blank Bool) holdFrame).map (fun w =>
      ((w.kernel.objects 8192).destroyed, (spawn w.kernel false true [⟨0, Rights.readOnly⟩]
        { notify := some 8192, thread := false }).toOption.map fun r => (r.1, r.2.2))) =
      some (true, some (.error .outOfMemory, none)) := by decide
  rw [hw] at hfails
  obtain ⟨hfree, hresult⟩ := Prod.mk.inj (Option.some.inj hfails)
  obtain ⟨result, k', running, hrun, hiff⟩ := spawn_conserves_iff.2 w false true
    [⟨0, Rights.readOnly⟩] { notify := some 8192, thread := false } hreach (by decide) (by decide)
    (by
      intro n hn
      cases hn
      exact hfree)
  rw [hrun] at hresult
  cases hresult
  exact ⟨w, k', hreach, hrun, (hiff _ rfl).mpr rfl⟩

/-- The frame is granted, and the program is not found or the process cannot be made: a reference to
the frame is left, and in the second case one to the Notify as well. -/
theorem spawn_leaks : ∃ w : World Bool, World.system.Reachable anyStep w ∧
    (w.kernel.objects 4096).refcount = 1 ∧ (w.kernel.objects 8192).refcount = 0 ∧
    (∃ k', spawn w.kernel false true [⟨0, Rights.readOnly⟩]
        { resolveElfAndEntitlements := .error .notFound, notify := some 8192 } =
          .ok (.error .notFound, k', none) ∧ (k'.objects 4096).refcount = 2) ∧
    ∃ k', spawn w.kernel false true [⟨0, Rights.readOnly⟩]
        { notify := some 8192, process := false } = .ok (.error .outOfMemory, k', none) ∧
      (k'.objects 4096).refcount = 2 ∧ (k'.objects 8192).refcount = 1 := by
  obtain ⟨w, hw, hreach⟩ := holdFrame_reachable
  let counts (r : Except SyscallError (Fin capCount) × Kernel Bool × Option ℕ) :=
    (r.1, r.2.2, (r.2.1.objects 4096).refcount, (r.2.1.objects 8192).refcount)
  have hstart : (runNext next (blank Bool) holdFrame).map (fun w =>
      ((w.kernel.objects 4096).refcount, (w.kernel.objects 8192).refcount)) = some (1, 0) := by
    decide
  have hnotFound : (runNext next (blank Bool) holdFrame).bind (fun w =>
      (spawn w.kernel false true [⟨0, Rights.readOnly⟩]
        { resolveElfAndEntitlements := .error .notFound, notify := some 8192 }).toOption.map
          counts) = some (.error .notFound, none, 2, 0) := by decide
  have hprocess : (runNext next (blank Bool) holdFrame).bind (fun w =>
      (spawn w.kernel false true [⟨0, Rights.readOnly⟩]
        { notify := some 8192, process := false }).toOption.map counts) =
          some (.error .outOfMemory, none, 2, 1) := by decide
  rw [hw] at hstart
  rw [hw, bind_some] at hnotFound hprocess
  obtain ⟨hframe, hnotify⟩ := Prod.mk.inj (Option.some.inj hstart)
  refine ⟨w, hreach, hframe, hnotify, ?_, ?_⟩
  · obtain ⟨⟨result, k', running⟩, hrun, hcounts⟩ := map_eq_some_iff.mp hnotFound
    simp only [counts, Prod.mk.injEq] at hcounts
    obtain ⟨rfl, rfl, hcount, -⟩ := hcounts
    exact ⟨k', toOption_eq_some.mp hrun, hcount⟩
  · obtain ⟨⟨result, k', running⟩, hrun, hcounts⟩ := map_eq_some_iff.mp hprocess
    simp only [counts, Prod.mk.injEq] at hcounts
    obtain ⟨rfl, rfl, hcount, hleft⟩ := hcounts
    exact ⟨k', toOption_eq_some.mp hrun, hcount, hleft⟩

end Innigkeit.User

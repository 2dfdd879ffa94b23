import Innigkeit.Library.Transition
import Innigkeit.Memory.AddressSpace.ChangeProtectionSpec
import Innigkeit.Memory.AddressSpace.FaultSpec
import Innigkeit.Memory.AddressSpace.MapSpec

/-!
The runs of an address space: it starts without entries, over an empty heap, and
every step is one operation under the entries lock. A page fault is made of two
kinds of step, as other operations can run between them. Every state of such a
run is valid.
-/

namespace Innigkeit.Memory.AddressSpace

open Zig Transition Except VirtualAddress

inductive Operation where
  | map (allocation : Allocation) (options : MapOptions)
  | unmap (allocation : Allocation) (range : VirtualRange)
  | changeProtection (allocation : Allocation) (range : VirtualRange) (change : ChangeProtection)
  | anonymousMapCopy (allocation : Allocation) (address : ℕ)
  | serviceFault (allocation : Allocation) (address : ℕ) (accessType : AccessType)

/-- A fault up to its restart or its end: the check, and the service if the fault is ready. -/
def faultSection (allocation : Allocation) (self : AddressSpace) (address : ℕ)
    (accessType : AccessType) : Checked AddressSpace := do
  match ← self.faultCheck
      { faultingAddress := VirtualAddress.pageAlignBackward address, accessType } with
  | .ready info entry page => return (← serviceFault allocation self info entry page).2
  | _ => return self

def Operation.run (space : AddressSpace) : Operation → Checked AddressSpace
  | .map allocation options => (·.2) <$> AddressSpace.map allocation space options
  | .unmap allocation range => (·.2) <$> AddressSpace.unmap allocation space range
  | .changeProtection allocation range change =>
    (·.2) <$> AddressSpace.changeProtection allocation space range change
  | .anonymousMapCopy allocation address => (·.2) <$>
      AddressSpace.anonymousMapCopy allocation space (VirtualAddress.pageAlignBackward address)
  | .serviceFault allocation address accessType =>
    faultSection allocation space address accessType

/-- The range of an address space is page aligned and ends at a machine address. Its heap holds no
object, and no operation makes one: as in the source, where an `Object` is never created, all
mappings of a run are zero-fill mappings. -/
def Initial (space : AddressSpace) : Prop :=
  ∃ range context, space = { range, context } ∧ PageAligned range.address ∧ range.Fits

def system : System AddressSpace Operation :=
  System.ofNext Initial fun space operation => (operation.run space).toOption

theorem Initial.valid {space : AddressSpace} (h : Initial space) : space.Valid := by
  obtain ⟨range, context, rfl, ha, hf⟩ := h
  refine ⟨ha, hf, by simp, by simp, by simp, ?_⟩
  constructor <;> simp

theorem faultSection_valid {allocation : Allocation} {space space' : AddressSpace} {address : ℕ}
    {accessType : AccessType} (hv : space.Valid)
    (h : faultSection allocation space address accessType = .ok space') : space'.Valid := by
  have ha : PageAligned (pageAlignBackward address) := by
    rw [pageAligned_iff]
    simp [pageAlignBackward, alignBackward, standardPageSize]
  obtain ⟨check, hcheck, hout⟩ := @faultCheck_spec space
    { faultingAddress := pageAlignBackward address, accessType } hv ha rfl
  rw [faultSection, hcheck, ok_bind] at h
  cases hout with
  | notMapped =>
    cases h
    exact hv
  | protection =>
    cases h
    exact hv
  | needsCopy =>
    cases h
    exact hv
  | ready hready =>
    obtain ⟨outcome, hservice, hserved⟩ := serviceFault_spec allocation hv hready
    simp only [hservice, ok_bind, pure_eq_ok, ok.injEq] at h
    exact h ▸ hserved.valid

theorem exists_of_snd_map {α : Type} {x : Checked (α × AddressSpace)} {space : AddressSpace}
    (h : (·.2) <$> x = .ok space) : ∃ outcome, x = .ok outcome ∧ outcome.2 = space := by
  cases x with
  | error => cases h
  | ok outcome =>
    cases h
    exact ⟨outcome, rfl, rfl⟩

theorem Operation.run_valid {space space' : AddressSpace} {operation : Operation}
    (hv : space.Valid) (h : operation.run space = .ok space') : space'.Valid := by
  cases operation with
  | map allocation options =>
    obtain ⟨⟨result, s⟩, hrun, rfl⟩ := exists_of_snd_map h
    exact (map_valid hv hrun).1
  | unmap allocation range =>
    obtain ⟨outcome, hrun, rfl⟩ := exists_of_snd_map h
    obtain ⟨outcome', hrun', hout, -⟩ := unmap_outcome hv allocation
      ((unmap_returns_iff hv allocation).mp ⟨outcome, hrun⟩)
    rw [hrun, ok.injEq] at hrun'
    subst hrun'
    cases hout with
    | misaligned => exact hv
    | outOfMemory => exact hv
    | done _ _ hvalid => exact hvalid
  | changeProtection allocation range change =>
    obtain ⟨outcome, hrun, rfl⟩ := exists_of_snd_map h
    exact changeProtection_valid hv hrun
  | anonymousMapCopy allocation address =>
    obtain ⟨outcome, hrun, rfl⟩ := exists_of_snd_map h
    rcases anonymousMapCopy_spec allocation hv
      (pageAlignBackward address) with ⟨outcome', hrun', hserved, -⟩ | ⟨hno, -⟩
    · rw [hrun, ok.injEq] at hrun'
      exact hrun' ▸ hserved.valid
    · exact absurd ⟨outcome, hrun⟩ hno
  | serviceFault allocation address accessType => exact faultSection_valid hv h

theorem reachable_valid {space : AddressSpace} {allowed : AddressSpace → Operation → Prop}
    (h : system.Reachable allowed space) : space.Valid := by
  refine h.invariant (fun s (hi : Initial s) => hi.valid) fun s operation s' hv _ hstep => ?_
  exact Operation.run_valid hv (toOption_eq_some.mp hstep)

def userSpace : AddressSpace := { range := ⟨0x1000, 0x7FFFFFFFE000⟩, context := .user }

theorem userSpace_reachable : system.Reachable anyStep userSpace :=
  .init ⟨_, _, rfl, by decide, by decide⟩

theorem reachable_of_run {space : AddressSpace} (operations : List Operation)
    (h : System.runNext (fun space operation => (Operation.run space operation).toOption) userSpace
      operations = some space) : system.Reachable anyStep space :=
  System.runNext_reachable operations userSpace_reachable h

/-- A request for zeroed memory that can be read and written. -/
def readWriteAt (base size : ℕ) : MapOptions :=
  { base := some base, size, protection := { read := true, write := true }, type := .zeroFill }

theorem lookup_eq_some {heap : Heap} {e : Entry} {address : ℕ} {page : AnonPageId}
    (h : e.anonymousMapReference.lookup heap e address = .ok (some page)) :
    ∃ id map, e.anonymousMap = some id ∧ heap.anonymousMaps id = some map ∧ PageAligned address ∧
      ((address - e.range.address) / standardPageSize + e.windowStart / standardPageSize, page) ∈
        map.anonymousPageChunks := by
  simp only [AnonMap.Reference.lookup, AnonMap.Reference.slotOf, AnonMap.Reference.targetIndex,
    bind_eq_ok, assert_eq_ok, unwrap_eq_ok, difference_eq_ok, intCast_eq_ok,
    Heap.anonymousMap_eq_ok, pure_eq_ok, ok.injEq] at h
  obtain ⟨_, -, _, ⟨id, hid, _, -, _, ha, _, ⟨_, -, _, -, _, ⟨-, rfl⟩, -, rfl⟩, map, hmap, _, -,
    rfl⟩, hget⟩ := h
  obtain ⟨before, after, hchunks, -⟩ := List.lookup_eq_some_iff.mp hget
  exact ⟨id, map, hid, hmap, ha, hchunks ▸ List.mem_append_right _ List.mem_cons_self⟩

/-- A page of anonymous memory is seen at one address only, and a map lives for as long as there
are entries that name it. -/
theorem anonymous_private {space : AddressSpace} (h : system.Reachable anyStep space) :
    (∀ id map, space.heap.anonymousMaps id = some map →
      map.referenceCount = space.entries.countP (Entry.refersTo id)) ∧
    ∀ e ∈ space.entries, ∀ e' ∈ space.entries, ∀ address address' page,
      e.range.Contains address → e'.range.Contains address' →
      e.anonymousMapReference.lookup space.heap e address = .ok (some page) →
      e'.anonymousMapReference.lookup space.heap e' address' = .ok (some page) →
      address = address' := by
  have hc := (reachable_valid h).consistent
  refine ⟨hc.references, fun e he e' he' address address' page hin hin' hpage hpage' => ?_⟩
  obtain ⟨id, map, hid, hmap, ha, hslot⟩ := lookup_eq_some hpage
  obtain ⟨id', map', hid', hmap', ha', hslot'⟩ := lookup_eq_some hpage'
  by_cases hne : id = id'
  · subst hne
    obtain rfl : map = map' := Option.some.inj (hmap.symm.trans hmap')
    have hslots := List.inj_on_of_nodup_map (hc.heap.maps id map hmap).pages hslot hslot' rfl
    have hord := List.pairwise_iff_getElem.mp hc.ordered
    obtain ⟨i, hi, rfl⟩ := List.getElem_of_mem he
    obtain ⟨j, hj, rfl⟩ := List.getElem_of_mem he'
    have hg := hc.entry _ he
    have hg' := hc.entry _ he'
    have hstart := hg.alignedAddress
    have hstart' := hg'.alignedAddress
    have hwindow := (hg.window id hid).1
    have hwindow' := (hg'.window id hid').1
    rw [VirtualRange.contains_iff, VirtualRange.stop_eq] at hin hin'
    simp only [pageAligned_iff, standardPageSize, Prod.mk.injEq, and_true] at *
    rcases Nat.lt_trichotomy i j with hlt | rfl | hlt
    · have hafter := (hord i j hi hj hlt).windows id hid hid'
      rw [Entry.windowStop] at hafter
      omega
    · omega
    · have hafter := (hord j i hj hi hlt).windows id hid' hid
      rw [Entry.windowStop] at hafter
      omega
  · exact (hc.heap.disjoint id id' map map' hne hmap hmap' _ hslot _ hslot' rfl).elim

/-- A page is mapped and written. -/
theorem anonymous_private_written : ∃ (space : AddressSpace) (map : AnonMap),
    space.heap.anonymousMaps 0 = some map ∧ map.anonymousPageChunks = [(0, 0)] ∧
      map.referenceCount = space.entries.countP (Entry.refersTo 0) := by
  let next := fun space operation => (Operation.run space operation).toOption
  have hmaps : (System.runNext next userSpace [.map {} (readWriteAt 0x2000 0x1000),
      .anonymousMapCopy {} 0x2000, .serviceFault {} 0x2000 .write]).map (·.heap.anonymousMaps 0) =
      some (some ⟨1, 1, 1, [(0, 0)]⟩) := by decide
  obtain ⟨space, hrun, hmap⟩ := Option.map_eq_some_iff.mp hmaps
  exact ⟨space, _, hmap, rfl, (anonymous_private (reachable_of_run _ hrun)).1 0 _ hmap⟩

end Innigkeit.Memory.AddressSpace

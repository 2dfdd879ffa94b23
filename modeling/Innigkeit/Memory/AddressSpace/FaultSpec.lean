import Innigkeit.Memory.AddressSpace.FaultHeap
import Innigkeit.Memory.AddressSpace.UnmapSpec

/-!
Page faults in a valid address space. Looking an address up, checking the access
and filling a slot never trap; giving an entry its own anonymous map traps
exactly if the entry has more pages than a 32-bit count can hold. A fault that
nothing disturbs is settled after at most two rounds.
-/

namespace Innigkeit.Memory

open Zig List VirtualRange Entry VirtualAddress Heap AnonMap AnonMap.Reference

theorem Protection.none_allows (accessType : AccessType) :
    Protection.none.allows accessType = false := by
  cases accessType <;> rfl

namespace AddressSpace

variable {self : AddressSpace} {info : FaultInfo} {allocation : Allocation} {address : ℕ}

theorem entryIndexByAddress_spec (hv : self.Valid) (address : ℕ) :
    (∃ pre e post, self.entries = pre ++ e :: post ∧ e.range.Contains address ∧
      self.entryIndexByAddress address = .ok (some pre.length)) ∨
    self.entryIndexByAddress address = .ok none ∧ ¬ Mapped self.entries address := by
  obtain ⟨pre, post, heq, hpre, hpost⟩ := hv.consistent.cut address
  have hc := hv.consistent
  rw [heq] at hc
  have hbefore : ∀ x ∈ pre, entryAddressCompare address x = .ok .gt := fun x hx =>
    entryAddressCompare_of_stop_le (hc.entry x (by simp [hx])) hv.fits (hpre x hx)
  have hcompare : ∀ y ∈ post, entryAddressCompare address y =
      .ok (if address < y.range.address then .lt else .eq) := fun y hy =>
    entryAddressCompare_of_lt_stop (hc.entry y (by simp [hy])) hv.fits (hpost y hy)
  have hord := hc.ordered
  rw [pairwise_append] at hord
  cases post with
  | nil =>
    right
    rw [entryIndexByAddress, heq]
    refine ⟨binarySearch_none hbefore (by simp), ?_⟩
    rintro ⟨e, he, hin⟩
    have := hpre e (by simpa using he)
    rw [contains_iff] at hin
    omega
  | cons y post =>
    have hlater : ∀ z ∈ post, address < z.range.address := by
      intro z hz
      have h1 := hord.2.1
      rw [pairwise_cons] at h1
      have h2 := (h1.1 z hz).ranges
      have h3 := hpost y (by simp)
      omega
    have hafter : ∀ z ∈ post, entryAddressCompare address z = .ok .lt := fun z hz => by
      rw [hcompare z (by simp [hz]), if_pos (hlater z hz)]
    by_cases hlt : address < y.range.address
    · right
      rw [entryIndexByAddress, heq]
      refine ⟨binarySearch_none hbefore ?_, ?_⟩
      · simp only [forall_mem_cons]
        exact ⟨by rw [hcompare y (by simp), if_pos hlt], hafter⟩
      · rintro ⟨e, he, hin⟩
        rw [contains_iff] at hin
        simp only [mem_append, mem_cons] at he
        rcases he with he | rfl | he
        · have := hpre e he
          omega
        · omega
        · have := hlater e he
          omega
    · left
      refine ⟨pre, y, post, heq, ⟨Nat.le_of_not_lt hlt, hpost y (by simp)⟩, ?_⟩
      rw [entryIndexByAddress, heq]
      exact binarySearch_some hbefore (by rw [hcompare y (by simp), if_neg hlt]) hafter

section

variable {limit : ℕ} {heap : Heap} {entry : Entry} {id : AnonMapId}

theorem slotOf_eq (hg : entry.Good limit heap) (hh : heap.Good) (hl : limit < 2 ^ 64)
    (hid : entry.anonymousMap = some id) (hin : entry.range.Contains address)
    (ha : PageAligned address) : ∃ map slot, heap.anonymousMaps id = some map ∧
      slot < map.numberOfPages ∧
      entry.anonymousMapReference.slotOf heap entry address = .ok (id, map, slot) := by
  obtain ⟨hstart, map, hmap, hstop⟩ := hg.window id hid
  have hcount := (hh.maps id map hmap).pageCount
  rw [contains_iff] at hin
  have hes := entry.range.stop_eq
  obtain ⟨slot, hslot⟩ : ∃ slot, slot = (address - entry.range.address) / standardPageSize +
    entry.anonymousMapReference.startOffset / standardPageSize := ⟨_, rfl⟩
  have hlt : slot < map.numberOfPages := by
    rw [pageAligned_iff] at hstart
    simp only [windowStop, windowStart, standardPageSize] at hstart hstop hslot
    omega
  have hcontains : entry.range.containsAddress address = .ok true := by
    simp only [VirtualRange.containsAddress, hin.1, if_true, after_of_fits (hg.fits hl), ok_bind,
      hin.2, decide_true, pure_eq_ok]
  have htarget : targetIndex entry entry.anonymousMapReference address =
      .ok slot := by
    simp only [targetIndex, hcontains, ok_bind, assert_true,
      difference_of_le hin.1, ← hslot, intCast_of_lt (lt_trans hlt hcount)]
  refine ⟨map, slot, hmap, hlt, ?_⟩
  rw [slotOf, show entry.anonymousMapReference.anonymousMap = some id from hid]
  simp only [unwrap, ok_bind, assert_true, assert_of ha, htarget,
    anonymousMap_eq_ok.mpr hmap, assert_of hlt, pure_eq_ok]

end

/-- A fault that can be served: the entry has a map, and the page is what its slot holds. -/
structure FaultReady (space : AddressSpace) (info : FaultInfo) (entry : Entry)
    (page : Option AnonPageId) : Prop where
  mem : entry ∈ space.entries
  contains : entry.range.Contains info.faultingAddress
  aligned : PageAligned info.faultingAddress
  protection : info.enterProtection ≠ .none
  unwired : info.wired = false
  slot : ∃ id map slot, entry.anonymousMap = some id ∧ space.heap.anonymousMaps id = some map ∧
    slot < map.numberOfPages ∧ entry.anonymousMapReference.slotOf space.heap entry
      info.faultingAddress = .ok (id, map, slot) ∧ page = map.get slot

inductive CheckOutcome (space : AddressSpace) (info : FaultInfo) : FaultCheck → Prop
  | notMapped (h : ¬ Mapped space.entries info.faultingAddress) :
      CheckOutcome space info (.failed .notMapped)
  | protection {entry : Entry} (hmem : entry ∈ space.entries)
      (hin : entry.range.Contains info.faultingAddress)
      (h : entry.protection.allows info.accessType = false) :
      CheckOutcome space info (.failed .protection)
  | needsCopy {entry : Entry} (hmem : entry ∈ space.entries)
      (hin : entry.range.Contains info.faultingAddress) (h : entry.anonymousMap = none)
      (hallows : entry.protection.allows info.accessType = true) :
      CheckOutcome space info (.needsCopy { info with enterProtection := entry.protection })
  | ready {entry : Entry} {page : Option AnonPageId}
      (h : FaultReady space { info with enterProtection := entry.protection } entry page) :
      CheckOutcome space info
        (.ready { info with enterProtection := entry.protection } entry page)

theorem faultCheck_spec (hv : self.Valid) (ha : PageAligned info.faultingAddress)
    (hwired : info.wired = false) :
    ∃ check, self.faultCheck info = .ok check ∧ CheckOutcome self info check := by
  rcases entryIndexByAddress_spec hv info.faultingAddress with
    ⟨pre, e, post, heq, hin, hindex⟩ | ⟨hindex, hnot⟩
  case inr =>
    exact ⟨.failed .notMapped, by simp [faultCheck, hindex], .notMapped hnot⟩
  have hmem : e ∈ self.entries := by rw [heq]; simp
  have hg := hv.consistent.entry e hmem
  have hget : self.entries[pre.length]? = some e := by rw [heq]; simp
  have henter : enterInfo info e = { info with enterProtection := e.protection } := by
    simp [enterInfo, hg.unwired]
  simp only [faultCheck, hindex, ok_bind, index_of hget, pure_eq_ok]
  by_cases hallows : e.protection.allows info.accessType = false
  · exact ⟨_, by rw [if_pos hallows], .protection hmem hin hallows⟩
  have hallows' : e.protection.allows info.accessType = true := by simpa using hallows
  rw [if_neg hallows, henter]
  cases hid : e.anonymousMap with
  | none =>
    have hneeds := hg.needsCopy.mpr hid
    exact ⟨_, by rw [if_pos ⟨hneeds, .inr hg.noObject⟩], .needsCopy hmem hin hid hallows'⟩
  | some id =>
    have hneeds : e.needsCopy = false := by
      simpa [hid] using mt hg.needsCopy.mp
    obtain ⟨map, slot, hmap, hslot, hslotOf⟩ :=
      slotOf_eq hg hv.consistent.heap hv.fits hid hin ha
    have hsome : e.anonymousMapReference.anonymousMap ≠ none := by
      simpa [Entry.anonymousMap] using Option.ne_none_iff_exists'.mpr ⟨id, hid⟩
    refine ⟨.ready { info with enterProtection := e.protection } e (map.get slot), ?_,
      .ready ⟨hmem, hin, ha, ?_, hwired, id, map, slot, hid, hmap, hslot, hslotOf, rfl⟩⟩
    · simp only [hneeds, Bool.false_eq_true, false_and, if_false, hsome, ne_eq, not_false_eq_true,
        true_or, assert_true, if_true, AnonMap.Reference.lookup,
        assert_of (hg.window id hid).1, hslotOf, ok_bind, pure_eq_ok]
    · intro hnone
      rw [show e.protection = .none from hnone, Protection.none_allows] at hallows'
      cases hallows'

theorem eq_of_contains {limit : ℕ} {heap : Heap} {pre post : List Entry} {e e' : Entry}
    (h : Consistent limit heap (pre ++ e :: post)) (hin : e.range.Contains address)
    (hmem : e' ∈ pre ++ e :: post) (hin' : e'.range.Contains address) : e' = e := by
  have hord := h.ordered
  rw [pairwise_append, pairwise_cons] at hord
  rw [contains_iff] at hin hin'
  simp only [mem_append, mem_cons] at hmem
  rcases hmem with hmem | rfl | hmem
  · have := (hord.2.2 e' hmem e (by simp)).ranges
    omega
  · rfl
  · have := (hord.2.1.1 e' hmem).ranges
    omega

/-- The entry that a fault gives a map has at most a 32-bit number of pages. -/
def CopyFits (allocation : Allocation) (self : AddressSpace) (address : ℕ) : Prop :=
  ∀ e ∈ self.entries, e.range.Contains address → e.anonymousMap = none →
    allocation.succeeds .anonymousMap = true → e.range.size / standardPageSize < 2 ^ 32

structure FaultServed (old new : AddressSpace) : Prop where
  bounds : new.range = old.range
  context : new.context = old.context
  ranges : new.entries.map Entry.range = old.entries.map Entry.range
  valid : new.Valid

theorem FaultServed.refl (hv : self.Valid) : FaultServed self self := ⟨rfl, rfl, rfl, hv⟩

variable (allocation) in
theorem anonymousMapCopy_spec (hv : self.Valid) (address : ℕ) :
    (∃ outcome, anonymousMapCopy allocation self address = .ok outcome ∧
      FaultServed self outcome.2 ∧
      (outcome.1 = .ok () → ∀ e ∈ outcome.2.entries, e.range.Contains address →
        e.anonymousMap ≠ none) ∧
      CopyFits allocation self address) ∨
    ¬ Checked.Returns (anonymousMapCopy allocation self address) ∧
      ¬ CopyFits allocation self address := by
  rcases entryIndexByAddress_spec hv address with
    ⟨pre, e, post, heq, hin, hindex⟩ | ⟨hindex, hnot⟩
  case inr =>
    refine .inl ⟨(.error .notMapped, self), by simp [anonymousMapCopy, hindex], .refl hv,
      by simp, ?_⟩
    exact fun e he hin => absurd ⟨e, he, hin⟩ hnot
  have hc := hv.consistent
  have hget : self.entries[pre.length]? = some e := by rw [heq]; simp
  rw [heq] at hc
  have hg := hc.entry e (by simp)
  have hunique {e' : Entry} (he' : e' ∈ self.entries) (hin' : e'.range.Contains address) : e' = e :=
    eq_of_contains hc hin (heq ▸ he') hin'
  simp only [anonymousMapCopy, hindex, ok_bind, index_of hget, pure_eq_ok]
  by_cases hneeds : e.needsCopy = false
  · have hsome : e.anonymousMap ≠ none := fun hnone => by simp [hg.needsCopy.mpr hnone] at hneeds
    refine .inl ⟨(.ok (), self), by rw [if_pos hneeds], .refl hv, fun _ e' he' hin' => ?_,
      fun e' he' hin' hnone => ?_⟩
    · rw [hunique he' hin']
      exact hsome
    · rw [hunique he' hin'] at hnone
      exact absurd hnone hsome
  have hnone : e.anonymousMap = none := hg.needsCopy.mp (by simpa using hneeds)
  rw [if_neg hneeds]
  by_cases halloc : allocation.succeeds .anonymousMap = true
  case neg =>
    have hcopy : copy allocation self.heap e = .ok (none, self.heap) := by
      rw [copy, show e.anonymousMapReference.anonymousMap = none from hnone]
      simp only [create, assert_of hg.alignedSize, ok_bind, halloc,
        Bool.false_eq_true, if_false, pure_eq_ok]
    refine .inl ⟨(.error .outOfMemory, self), by rw [hcopy]; rfl, .refl hv, by simp, ?_⟩
    exact fun _ _ _ _ hyes => absurd hyes halloc
  have hfits : CopyFits allocation self address ↔ e.range.size / standardPageSize < 2 ^ 32 := by
    constructor
    · exact fun h => h e (by rw [heq]; simp) hin hnone halloc
    · intro hlt e' he' hin' _ _
      rw [hunique he' hin']
      exact hlt
  rw [hfits]
  by_cases hlt : e.range.size / standardPageSize < 2 ^ 32
  · have hcopy : copy allocation self.heap e = .ok
        (some (e.withMap self.heap.nextAnonymousMap),
          self.heap.addMap (e.range.size / standardPageSize)) := by
      rw [copy, show e.anonymousMapReference.anonymousMap = none from hnone]
      simp only [create, assert_of hg.alignedSize, ok_bind, halloc, if_true,
        PageCount.fromSize, intCast_of_lt hlt, pure_eq_ok]
      rfl
    have hcons := hc.addMap hnone hlt
    refine .inl ⟨(.ok (), { self with
      entries := pre ++ e.withMap self.heap.nextAnonymousMap :: post
      heap := self.heap.addMap (e.range.size / standardPageSize) }), ?_, ?_, ?_, hlt⟩
    · rw [hcopy]
      simp [setEntry, heq]
    · refine ⟨rfl, rfl, ?_, hv.aligned, hv.fits, hcons⟩
      simp [heq, withMap]
    · intro _ e' he' hin'
      rw [eq_of_contains hcons (by exact hin) he' hin']
      simp
  · refine .inr ⟨?_, hlt⟩
    have hcopy : copy allocation self.heap e = .error .cast := by
      rw [copy, show e.anonymousMapReference.anonymousMap = none from hnone]
      simp only [create, assert_of hg.alignedSize, ok_bind, halloc, if_true,
        PageCount.fromSize, intCast, hlt, if_false]
      rfl
    rw [hcopy]
    exact not_returns_error _

section

variable {entry : Entry} {page : Option AnonPageId}

private theorem FaultServed.of_heap {heap : Heap} (hv : self.Valid)
    (h : Consistent self.range.stop heap self.entries) : FaultServed self { self with heap } :=
  ⟨rfl, rfl, rfl, hv.aligned, hv.fits, h⟩

variable (self allocation) in
private theorem enterPage_returns (hp : info.enterProtection ≠ .none)
    (ha : PageAligned info.faultingAddress) (physicalPage : PhysicalPage) :
    ∃ result, enterPage allocation self info physicalPage = .ok (result, self) := by
  rw [enterPage]
  simp only [mapSinglePage, assert_of hp, assert_of ha, ok_bind, pure_eq_ok]
  split <;> exact ⟨_, rfl⟩

variable (allocation) in
/-- The page of the slot is referred to by this slot alone, so it is entered as it is. -/
private theorem faultUpper_spec {anonymousPage : AnonPageId} (hv : self.Valid)
    (h : FaultReady self info entry (some anonymousPage)) :
    ∃ result, faultUpper allocation self info entry anonymousPage = .ok (result, self) := by
  obtain ⟨id, map, slot, -, hmap, -, -, hget⟩ := h.slot
  have hlookup : (slot, anonymousPage) ∈ map.anonymousPageChunks := by
    obtain ⟨l₁, l₂, heq, -⟩ := lookup_eq_some_iff.mp hget.symm
    rw [heq]
    simp
  obtain ⟨content, hcontent, hone⟩ := (hv.consistent.heap.maps id map hmap).live _ hlookup
  have hpage : self.heap.anonymousPage anonymousPage = .ok content := unwrap_eq_ok.mpr hcontent
  obtain ⟨result, hresult⟩ := enterPage_returns self allocation
    h.protection h.aligned content.physicalPage
  refine ⟨result, ?_⟩
  simp only [faultUpper, hpage, ok_bind, hone, lt_irrefl, and_false, if_false, hresult]

private theorem faultObjectOrZeroFill_spec (hv : self.Valid) (h : FaultReady self info entry none) :
    ∃ outcome, faultObjectOrZeroFill allocation self info entry = .ok outcome ∧
      FaultServed self outcome.2 := by
  obtain ⟨id, map, slot, hid, hmap, hslot, hslotOf, hget⟩ := h.slot
  have hg := hv.consistent.entry entry h.mem
  have hc := hv.consistent
  rw [faultObjectOrZeroFill, if_neg (not_not.mpr hg.noObject)]
  simp only [show entry.anonymousMapReference.anonymousMap = some id from hid, unwrap,
    ok_bind, pure_eq_ok]
  by_cases hphysical : allocation.succeeds .physicalPage = false
  · exact ⟨(.error .outOfMemory, self), by rw [if_pos hphysical], .refl hv⟩
  rw [if_neg hphysical, AnonPage.create_eq]
  by_cases hanon : allocation.succeeds .anonymousPage = true
  case neg =>
    rw [if_neg hanon]
    exact ⟨_, rfl, .of_heap hv (hc.deallocate _)⟩
  rw [if_pos hanon]
  have hc' := hc.addPage allocation.page
  have hslotOf' : entry.anonymousMapReference.slotOf (self.heap.addPage allocation.page) entry
      info.faultingAddress = .ok (id, map, slot) := hslotOf
  have hgood := hc.heap.maps id map hmap
  have hinc : PageCount.increment map.pagesInUse = .ok (map.pagesInUse + 1) := by
    have h1 := hgood.pagesInUse_lt hslot hget.symm
    have h2 := hgood.pageCount
    exact add_of_lt (by omega)
  have hadd : entry.anonymousMapReference.add allocation (self.heap.addPage allocation.page) entry
      info.faultingAddress self.heap.nextAnonymousPage .add =
      .ok (if map.ensureChunk allocation slot = false then none
        else some ((self.heap.addPage allocation.page).fillSlot id map slot
          self.heap.nextAnonymousPage)) := by
    simp only [AnonMap.Reference.add, hslotOf', ok_bind, assert_of hget.symm, hinc, pure_eq_ok]
    split <;> rfl
  simp only [hadd, ok_bind]
  by_cases hchunk : map.ensureChunk allocation slot = false
  · rw [if_pos hchunk]
    exact ⟨_, rfl, .of_heap hv hc'⟩
  rw [if_neg hchunk]
  have hpage : (self.heap.addPage allocation.page).anonymousPages self.heap.nextAnonymousPage =
      some { physicalPage := allocation.page } := by
    simp [addPage, setAnonymousPage]
  have hfilled := hc'.fillSlot hmap hslot hget.symm hpage rfl
    (fun _ _ hm _ hs => hc.heap.slot_ne_fresh hm hs)
  obtain ⟨heap', hheap'⟩ : ∃ heap', heap' = (self.heap.addPage allocation.page).fillSlot id map slot
    self.heap.nextAnonymousPage := ⟨_, rfl⟩
  rw [← hheap'] at hfilled ⊢
  obtain ⟨result, hresult⟩ := enterPage_returns
    { self with heap := heap' } allocation h.protection h.aligned allocation.page
  refine ⟨(result, { self with heap := heap' }), ?_, .of_heap hv hfilled⟩
  simp only [hresult, ok_bind, h.unwired, Bool.false_eq_true, false_and, if_false]

variable (allocation) in
theorem serviceFault_spec (hv : self.Valid) (h : FaultReady self info entry page) :
    ∃ outcome, serviceFault allocation self info entry page = .ok outcome ∧
      FaultServed self outcome.2 := by
  cases page with
  | none => exact faultObjectOrZeroFill_spec hv h
  | some anonymousPage =>
    obtain ⟨result, hresult⟩ := faultUpper_spec allocation hv h
    exact ⟨(result, self), hresult, .refl hv⟩

end

/-- The condition under which a page fault returns: the map it has to create is not too long. -/
def FaultFits (allocation : Allocation) (self : AddressSpace) (address : ℕ)
    (accessType : AccessType) : Prop :=
  (∃ e ∈ self.entries, e.range.Contains address ∧ e.protection.allows accessType = true) →
    CopyFits allocation self address

theorem FaultServed.trans {first second third : AddressSpace} (h1 : FaultServed first second)
    (h2 : FaultServed second third) : FaultServed first third :=
  ⟨h2.bounds.trans h1.bounds, h2.context.trans h1.context, h2.ranges.trans h1.ranges, h2.valid⟩

variable (info allocation) in
private theorem loop_of_copied (hv : self.Valid) (ha : PageAligned info.faultingAddress)
    (hwired : info.wired = false)
    (hcopied : ∀ e ∈ self.entries, e.range.Contains info.faultingAddress → e.anonymousMap ≠ none)
    (rounds : List Allocation) :
    ∃ result space, handlePageFault.loop (allocation :: rounds) self info =
      .ok (some result, space) ∧ FaultServed self space := by
  obtain ⟨check, hcheck, hout⟩ := faultCheck_spec hv ha hwired
  rw [handlePageFault.loop, hcheck, ok_bind]
  cases hout with
  | notMapped => exact ⟨_, self, rfl, .refl hv⟩
  | protection => exact ⟨_, self, rfl, .refl hv⟩
  | needsCopy hmem hin hnone => exact absurd hnone (hcopied _ hmem hin)
  | ready hready =>
    obtain ⟨⟨result, space⟩, hservice, hserved⟩ := serviceFault_spec allocation hv hready
    exact ⟨result, space, by simp only [hservice, ok_bind, pure_eq_ok], hserved⟩

/-- A page fault is settled after two rounds, or it traps in the first. -/
theorem handlePageFault_spec (hv : self.Valid) (address : ℕ) (accessType : AccessType)
    (first second : Allocation) (rounds : List Allocation) :
    (∃ result space, handlePageFault (first :: second :: rounds) self address accessType =
        .ok (some result, space) ∧ FaultServed self space ∧
        FaultFits first self (pageAlignBackward address) accessType) ∨
    ¬ Checked.Returns (handlePageFault (first :: second :: rounds) self address accessType) ∧
      ¬ FaultFits first self (pageAlignBackward address) accessType := by
  obtain ⟨info, hinfo⟩ : ∃ info : FaultInfo, info =
    { faultingAddress := pageAlignBackward address, accessType } := ⟨_, rfl⟩
  have haddress : pageAlignBackward address = info.faultingAddress := by rw [hinfo]
  have haccess : accessType = info.accessType := by rw [hinfo]
  have hwired : info.wired = false := by rw [hinfo]
  have ha : PageAligned info.faultingAddress := by
    rw [← haddress, pageAligned_iff]
    simp [pageAlignBackward, alignBackward, standardPageSize]
  rw [handlePageFault, ← hinfo, haddress, haccess]
  obtain ⟨check, hcheck, hout⟩ := faultCheck_spec hv ha hwired
  rw [handlePageFault.loop, hcheck, ok_bind]
  cases hout with
  | notMapped hnot =>
    refine .inl ⟨_, self, rfl, .refl hv, ?_⟩
    rintro ⟨e, he, hin, -⟩
    exact absurd ⟨e, he, hin⟩ hnot
  | protection hmem hin hforbidden =>
    refine .inl ⟨_, self, rfl, .refl hv, ?_⟩
    rintro ⟨e, he, hin', hallows⟩
    obtain ⟨pre, post, heq⟩ := append_of_mem hmem
    have hc := hv.consistent
    rw [heq] at hc he
    rw [eq_of_contains hc hin he hin', hforbidden] at hallows
    cases hallows
  | ready hready =>
    obtain ⟨⟨result, space⟩, hservice, hserved⟩ := serviceFault_spec first hv hready
    refine .inl ⟨result, space, by simp only [hservice, ok_bind, pure_eq_ok],
      hserved, fun _ e he hin hnone => ?_⟩
    obtain ⟨id, -, -, hid, -⟩ := hready.slot
    obtain ⟨pre, post, heq⟩ := append_of_mem hready.mem
    have hc := hv.consistent
    rw [heq] at hc he
    rw [eq_of_contains hc hready.contains he hin, hid] at hnone
    cases hnone
  | needsCopy hmem hin hnone hallows =>
    have hiff : FaultFits first self info.faultingAddress info.accessType ↔
        CopyFits first self info.faultingAddress :=
      ⟨fun h => h ⟨_, hmem, hin, hallows⟩, fun h _ => h⟩
    rw [hiff]
    rcases anonymousMapCopy_spec first hv info.faultingAddress with
      ⟨⟨outcome, space⟩, hcopy, hserved, hcopied, hfits⟩ | ⟨hno, hfits⟩
    · simp only [hcopy, ok_bind]
      cases outcome with
      | error error => exact .inl ⟨.error error, space, rfl, hserved, hfits⟩
      | ok =>
        obtain ⟨result, space', hloop, hserved'⟩ := loop_of_copied
          { info with enterProtection := _ } second hserved.valid ha hwired (hcopied rfl) rounds
        exact .inl ⟨result, space', hloop, hserved.trans hserved', hfits⟩
    · refine .inr ⟨?_, hfits⟩
      rw [returns_bind]
      rintro ⟨outcome, houtcome, -⟩
      exact hno ⟨outcome, houtcome⟩

end AddressSpace

end Innigkeit.Memory

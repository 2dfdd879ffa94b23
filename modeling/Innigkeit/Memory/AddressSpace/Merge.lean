import Innigkeit.Memory.AddressSpace.EntrySteps

/-!
`canMerge` and `merge` in a consistent address space. `canMerge` never traps; `merge`
traps only where the extension of an anonymous map over the following entry
leaves the 32-bit page count of the map.
-/

namespace Innigkeit.Memory

open Zig List Option Except VirtualRange Heap Entry

namespace Entry

/-- The condition that `canMerge` puts on the anonymous maps. -/
def MapsMergeable (heap : Heap) (first second : Entry) : Prop :=
  match first.anonymousMap, second.anonymousMap with
  | none, other => other = none
  | some id, none => ∃ map, heap.anonymousMaps id = some map ∧
      map.numberOfPages * standardPageSize = first.windowStop
  | some id, some id' => id = id' ∧ first.windowStop = second.windowStart

/-- What `canMerge` tests on entries without objects. -/
structure Mergeable (heap : Heap) (first second : Entry) : Prop where
  protection : first.protection = second.protection
  maxProtection : first.maxProtection = second.maxProtection
  copyOnWrite : first.copyOnWrite = second.copyOnWrite
  wiredCount : first.wiredCount = second.wiredCount
  adjacent : first.range.stop = second.range.address
  maps : MapsMergeable heap first second

variable {limit : ℕ} {heap : Heap} {first second : Entry}

variable (second) in
private theorem canMergeAnonymousMaps_eq (hf : first.Good limit heap) (hh : heap.Good) :
    ∃ b, canMergeAnonymousMaps heap first second = .ok b ∧
      (b = true ↔ MapsMergeable heap first second) := by
  unfold canMergeAnonymousMaps MapsMergeable anonymousMap
  cases hid : first.anonymousMapReference.anonymousMap with
  | none => exact ⟨_, rfl, by simp⟩
  | some id =>
    obtain ⟨haligned, map, hmap, hstop⟩ := hf.window id hid
    have hlt := hf.windowStop_lt hh hid
    have hadd := add_of_lt (w := 64) (a := first.anonymousMapReference.startOffset)
      (b := first.range.size) hlt
    cases hid' : second.anonymousMapReference.anonymousMap with
    | none =>
      simp only [anonymousMap_eq_ok.mpr hmap, hadd, ok_bind, pure_eq_ok,
        ok.injEq, exists_eq_left', beq_iff_eq, hmap, some.injEq]
      have hsize := pageAligned_iff.mp hf.alignedSize
      rw [pageAligned_iff] at haligned
      simp only [windowStop, windowStart, standardPageSize] at *
      omega
    | some id' =>
      simp only [hadd, ok_bind, pure_eq_ok]
      by_cases heq : id = id'
      · simp only [heq, ne_eq, not_true_eq_false, if_false, ok.injEq, exists_eq_left',
          beq_iff_eq, true_and]
        rfl
      · simp only [heq, ne_eq, not_false_eq_true, if_true, ok.injEq, exists_eq_left',
          Bool.false_eq_true, false_and]

theorem canMerge_eq (hf : first.Good limit heap) (hs : second.Good limit heap) (hh : heap.Good)
    (hl : limit < 2 ^ 64) :
    ∃ b, first.canMerge heap second = .ok b ∧ (b = true ↔ Mergeable heap first second) := by
  obtain ⟨b, hb, hiff⟩ := canMergeAnonymousMaps_eq second hf hh
  have hobj : canMergeObjects first second = .ok true := by
    simp only [canMergeObjects, hf.noObject, hs.noObject, isNone_none]
  simp only [canMerge, after_of_fits (hf.fits hl), hobj, hb, ok_bind,
    pure_eq_ok, Bool.not_true, Bool.false_eq_true, if_false]
  by_cases h1 : first.protection = second.protection
  case neg => exact ⟨false, if_pos h1, by simpa using fun h => h1 h.protection⟩
  rw [if_neg (not_not.mpr h1)]
  by_cases h2 : first.maxProtection = second.maxProtection
  case neg => exact ⟨false, if_pos h2, by simpa using fun h => h2 h.maxProtection⟩
  rw [if_neg (not_not.mpr h2)]
  by_cases h3 : first.copyOnWrite = second.copyOnWrite
  case neg => exact ⟨false, if_pos h3, by simpa using fun h => h3 h.copyOnWrite⟩
  rw [if_neg (not_not.mpr h3)]
  by_cases h4 : first.wiredCount = second.wiredCount
  case neg => exact ⟨false, if_pos h4, by simpa using fun h => h4 h.wiredCount⟩
  rw [if_neg (not_not.mpr h4)]
  by_cases h5 : first.range.stop = second.range.address
  case neg => exact ⟨false, if_pos h5, by simpa using fun h => h5 h.adjacent⟩
  rw [if_neg (not_not.mpr h5)]
  exact ⟨b, rfl, hiff.trans ⟨fun h => ⟨h1, h2, h3, h4, h5, h⟩, fun h => h.maps⟩⟩

end Entry

/-- What `merge` does to the map of the first entry: the second reference goes, or the map is
extended over the second entry. -/
def Heap.mergeReferences (heap : Heap) (first second : Entry) : Heap :=
  match first.anonymousMap with
  | none => heap
  | some id =>
    match heap.anonymousMaps id, second.anonymousMap with
    | none, _ => heap
    | some map, some _ =>
      heap.setAnonymousMap id { map with referenceCount := map.referenceCount - 1 }
    | some map, none => heap.setAnonymousMap id
        { map with numberOfPages := map.numberOfPages + second.range.size / standardPageSize }

/-- The page count of the map stays a 32-bit number when the first entry absorbs the second. -/
def Entry.CountFits (heap : Heap) (first second : Entry) : Prop :=
  ∀ id map, first.anonymousMap = some id → second.anonymousMap = none →
    heap.anonymousMaps id = some map →
    map.numberOfPages + second.range.size / standardPageSize < 2 ^ 32

open Heap

/-- The map that absorbs a following entry does not get shorter, and no other map changes. -/
theorem mergeReferences_anonymousMaps {heap : Heap} {first second : Entry} {id : AnonMapId}
    {map : AnonMap} (hmap : heap.anonymousMaps id = some map) : ∃ map',
      (heap.mergeReferences first second).anonymousMaps id = some map' ∧
        map.numberOfPages ≤ map'.numberOfPages := by
  unfold mergeReferences
  cases hid1 : first.anonymousMap with
  | none => exact ⟨map, hmap, le_rfl⟩
  | some id1 =>
    by_cases heq : id = id1
    · subst heq
      cases second.anonymousMap with
      | none =>
        simp only [hmap]
        exact ⟨_, setAnonymousMap_anonymousMaps_self, Nat.le_add_right _ _⟩
      | some id' =>
        simp only [hmap]
        exact ⟨_, setAnonymousMap_anonymousMaps_self, le_rfl⟩
    · refine ⟨map, ?_, le_rfl⟩
      cases hmap1 : heap.anonymousMaps id1 with
      | none => simpa only [hmap1] using hmap
      | some map1 =>
        cases second.anonymousMap <;>
          simpa only [hmap1, setAnonymousMap_anonymousMaps_of_ne heq] using hmap

open Entry

section

variable {limit : ℕ} {heap : Heap} {first second : Entry} {pre post : List Entry}

theorem Consistent.countFits_of_merge_returns
    (h : Consistent limit heap (pre ++ [first, second] ++ post))
    (hret : Checked.Returns (first.merge heap second)) : Entry.CountFits heap first second := by
  intro id map hid hid' hmap
  have hf : first.Good limit heap := h.entry first (by simp)
  have hs : second.Good limit heap := h.entry second (by simp)
  simp only [Entry.anonymousMap] at hid hid'
  simp only [Entry.merge, Entry.mergeObjects, hf.noObject, assert_of hs.noObject,
    mergeAnonymousMaps, hid, hid', anonymousMap_eq_ok.mpr hmap, PageCount.increaseBySize,
    ok_bind, pure_eq_ok, returns_bind, bind_eq_ok, intCast_eq_ok, add_eq_ok] at hret
  obtain ⟨-, ⟨-, ⟨-, -, -, ⟨-, rfl⟩, hlt, -⟩, -⟩, -⟩ := hret
  exact hlt

private theorem join_precedes (hm : Entry.Mergeable heap first second) {y : Entry}
    (hf : Entry.Precedes first y) (hs : Entry.Precedes second y) (hy : y.Good limit heap) :
    Entry.Precedes (first.join second) y where
  ranges := by
    have h1 := hs.ranges
    have h2 := hm.adjacent
    simp only [stop_eq, Entry.join] at *
    omega
  windows id hid hidy := by
    rw [join_anonymousMap] at hid
    have hmaps := hm.maps
    have hjoin : (first.join second).windowStop = first.windowStop + second.range.size := by
      simp only [Entry.windowStop, Entry.windowStart, Entry.join]
      omega
    cases hid' : second.anonymousMap with
    | none =>
      -- the window of the first entry reaches the end of the map, so nothing follows it there
      simp only [Entry.MapsMergeable, hid, hid'] at hmaps
      obtain ⟨map, hmap, hend⟩ := hmaps
      obtain ⟨-, map', hmap', hstop⟩ := hy.window id hidy
      rw [hmap, some.injEq] at hmap'
      subst hmap'
      have h1 := hf.windows id hid hidy
      have h2 := hy.nonempty
      simp only [Entry.windowStop] at *
      omega
    | some id' =>
      simp only [Entry.MapsMergeable, hid, hid'] at hmaps
      have h1 := hs.windows id (by rw [hid', hmaps.1]) hidy
      rw [hjoin, hmaps.2]
      exact h1

variable (h : Consistent limit heap (pre ++ [first, second] ++ post))
  (hm : Mergeable heap first second)

include h hm

private theorem merge_size_lt (hl : limit < 2 ^ 64) :
    first.range.size + second.range.size < 2 ^ 64 := by
  have hb := (h.entry second (by simp)).below
  have ha := hm.adjacent
  simp only [stop_eq] at hb ha
  omega

private theorem two_le_referenceCount {id id' : AnonMapId} {map : AnonMap}
    (hid : first.anonymousMap = some id) (hid' : second.anonymousMap = some id')
    (hmap : heap.anonymousMaps id = some map) : 2 ≤ map.referenceCount := by
  have hmaps := hm.maps
  simp only [MapsMergeable, hid, hid'] at hmaps
  rw [h.references id map hmap]
  simp only [countP_append, countP_cons, countP_nil, refersTo, hid, hid',
    hmaps.1, beq_self_eq_true, if_true]
  omega

theorem Consistent.merge_eq (hl : limit < 2 ^ 64) (hfit : Entry.CountFits heap first second) :
    first.merge heap second = .ok (heap.mergeReferences first second, first.join second) := by
  have hf : first.Good limit heap := h.entry first (by simp)
  have hs : second.Good limit heap := h.entry second (by simp)
  have hmaps := hm.maps
  have hsize := add_of_lt (merge_size_lt h hm hl)
  cases hid : first.anonymousMapReference.anonymousMap with
  | none =>
    simp only [Entry.MapsMergeable, Entry.anonymousMap, hid] at hmaps
    simp only [Entry.merge, Entry.mergeObjects, hf.noObject, assert_of hs.noObject,
      mergeAnonymousMaps, hid, assert_of hmaps, hsize, ok_bind, pure_eq_ok,
      mergeReferences, Entry.anonymousMap, Entry.join]
  | some id =>
    obtain ⟨-, map, hmap, -⟩ := hf.window id hid
    cases hid' : second.anonymousMapReference.anonymousMap with
    | none =>
      have hcount := hfit id map hid hid' hmap
      have hcast := intCast_of_lt (w := 32) (a := second.range.size / standardPageSize)
        (by omega)
      simp only [Entry.merge, Entry.mergeObjects, hf.noObject, assert_of hs.noObject,
        mergeAnonymousMaps, hid, hid', anonymousMap_eq_ok.mpr hmap,
        PageCount.increaseBySize, assert_of hs.alignedSize, hcast, add_of_lt hcount, hsize, ok_bind,
        pure_eq_ok, mergeReferences, Entry.anonymousMap, hmap, Entry.join]
    | some id' =>
      have htwo := two_le_referenceCount h hm hid hid' hmap
      simp only [Entry.MapsMergeable, Entry.anonymousMap, hid, hid'] at hmaps
      simp only [Entry.merge, Entry.mergeObjects, hf.noObject, assert_of hs.noObject,
        mergeAnonymousMaps, hid, hid', anonymousMap_eq_ok.mpr hmap,
        assert_of hmaps.1, assert_of htwo, hsize, ok_bind, pure_eq_ok,
        mergeReferences, Entry.anonymousMap, hmap, Entry.join]

private theorem join_ordered : (pre ++ [first.join second] ++ post).Pairwise Precedes := by
  have hgood := h.entry
  have hord := h.ordered
  simp only [pairwise_append, mem_append, pairwise_cons, mem_cons, not_mem_nil, or_false] at hord ⊢
  obtain ⟨⟨hpre, -, hpm⟩, hpost, hacross⟩ := hord
  refine ⟨⟨hpre, ⟨by simp, List.Pairwise.nil⟩, ?_⟩, hpost, ?_⟩
  · rintro x hx y rfl
    have hfirst := hpm x hx first (.inl rfl)
    exact ⟨hfirst.ranges, hfirst.windows⟩
  · rintro x (hx | rfl) y hy
    · exact hacross x (.inl hx) y hy
    · exact join_precedes hm (hacross first (.inr (.inl rfl)) y hy)
        (hacross second (.inr (.inr rfl)) y hy) (hgood y (by simp [hy]))

private theorem join_good : (first.join second).Good limit (heap.mergeReferences first second) := by
  have hf : first.Good limit heap := h.entry first (by simp)
  have hs : second.Good limit heap := h.entry second (by simp)
  have hadj := hm.adjacent
  have hmaps := hm.maps
  have ha1 := pageAligned_iff.mp hf.alignedSize
  have ha2 := pageAligned_iff.mp hs.alignedSize
  constructor
  case alignedAddress => exact hf.alignedAddress
  case alignedSize =>
    rw [pageAligned_iff]
    simp only [Entry.join]
    omega
  case nonempty => exact Nat.lt_of_lt_of_le hf.nonempty (Nat.le_add_right _ _)
  case below =>
    have := hs.below
    simp only [stop_eq, Entry.join] at *
    omega
  case noObject => exact hf.noObject
  case unwired => exact hf.unwired
  case needsCopy => exact hf.needsCopy
  case window =>
    intro id hid
    rw [join_anonymousMap] at hid
    obtain ⟨haligned, map, hmap, hstop⟩ := hf.window id hid
    refine ⟨haligned, ?_⟩
    have hjoin : (first.join second).windowStop = first.windowStop + second.range.size := by
      simp only [Entry.windowStop, Entry.windowStart, Entry.join]
      omega
    cases hid' : second.anonymousMap with
    | none =>
      simp only [mergeReferences, hid, hid', hmap, setAnonymousMap_anonymousMaps_self,
        some.injEq, exists_eq_left', hjoin]
      simp only [standardPageSize] at hstop ⊢
      omega
    | some id' =>
      simp only [Entry.MapsMergeable, hid, hid'] at hmaps
      obtain ⟨-, map', hmap', hstop'⟩ := hs.window id (by rw [hid', hmaps.1])
      rw [hmap, some.injEq] at hmap'
      subst hmap'
      simp only [mergeReferences, hid, hid', hmap, setAnonymousMap_anonymousMaps_self,
        some.injEq, exists_eq_left', hjoin, hmaps.2]
      exact hstop'

theorem Consistent.merge (hfit : CountFits heap first second) :
    Consistent limit (heap.mergeReferences first second) (pre ++ [first.join second] ++ post) := by
  have hentry : ∀ e ∈ pre ++ [first.join second] ++ post,
      e.Good limit (heap.mergeReferences first second) := by
    intro e he
    simp only [mem_append, mem_cons, not_mem_nil, or_false] at he
    have hold (hin : e ∈ pre ++ [first, second] ++ post) :
        e.Good limit (heap.mergeReferences first second) :=
      (h.entry e hin).mono fun _ _ _ hmap => mergeReferences_anonymousMaps hmap
    rcases he with (he | rfl) | he
    · exact hold (by simp [he])
    · exact join_good h hm
    · exact hold (by simp [he])
  have hord := join_ordered h hm
  have hmaps := hm.maps
  have hcount (id : AnonMapId) :
      (pre ++ [first, second] ++ post).countP (refersTo id) =
        (pre ++ [first.join second] ++ post).countP (refersTo id) +
          (if second.anonymousMap = some id then 1 else 0) := by
    simp only [countP_append, countP_cons, countP_nil, refersTo, join_anonymousMap, beq_iff_eq]
    split <;> split <;> omega
  cases hid : first.anonymousMap with
  | none =>
    simp only [MapsMergeable, hid] at hmaps
    have hheap : heap.mergeReferences first second = heap := by
      simp only [mergeReferences, hid]
    rw [hheap] at hentry ⊢
    refine ⟨hentry, hord, fun id map hmap => ?_, h.heap⟩
    rw [h.references id map hmap, hcount, hmaps, if_neg (by simp), add_zero]
  | some id =>
    obtain ⟨-, map, hmap, -⟩ := (h.entry first (by simp)).window id hid
    have hpages := (h.heap.maps id map hmap).pageCount
    cases hid' : second.anonymousMap with
    | none =>
      simp only [mergeReferences, hid, hid', hmap] at hentry ⊢
      refine h.setCounts hmap (Nat.le_add_right _ _) (hfit id map hid hid' hmap) hentry hord
        ?_ (fun id' _ => ?_)
      · rw [h.references id map hmap, hcount, hid', if_neg (by simp), add_zero]
      · rw [hcount, hid', if_neg (by simp), add_zero]
    | some id2 =>
      simp only [MapsMergeable, hid, hid'] at hmaps
      simp only [mergeReferences, hid, hid', hmap] at hentry ⊢
      refine h.setCounts hmap le_rfl hpages hentry hord ?_ (fun id' hne => ?_)
      · rw [h.references id map hmap, hcount, hid', if_pos (by rw [hmaps.1]), Nat.add_sub_cancel]
      · rw [hcount id', hid', if_neg (by simpa [← hmaps.1] using hne.symm), add_zero]

end

/-- A page keeps what it shows. A page without a slot may be given one, but only past the end of
the map, where nothing has been stored yet. -/
structure Page.Keeps (heap : Heap) (old new : Page) : Prop where
  protection : new.protection = old.protection
  maxProtection : new.maxProtection = old.maxProtection
  objectOffset : new.objectOffset = old.objectOffset
  slot : ∀ slot, old.anonymousSlot = some slot → new.anonymousSlot = some slot
  fresh : ∀ slot, old.anonymousSlot = none → new.anonymousSlot = some slot →
    ∃ map, heap.anonymousMaps slot.1 = some map ∧
      map.numberOfPages * standardPageSize ≤ slot.2

theorem Page.Keeps.refl (heap : Heap) (page : Page) : Page.Keeps heap page page where
  protection := rfl
  maxProtection := rfl
  objectOffset := rfl
  slot _ h := h
  fresh _ h h' := by simp [h] at h'

section

variable {heap : Heap} {first second : Entry} {address : ℕ}
  (hm : Mergeable heap first second) (hf : first.objectReference.object = none)
  (hs : second.objectReference.object = none)

include hm hf hs

private theorem page_join_second (ha : second.range.Contains address) :
    Page.Keeps heap (second.page address) ((first.join second).page address) := by
  have hadj := hm.adjacent
  have hmaps := hm.maps
  simp only [contains_iff, stop_eq] at ha hadj
  constructor
  case protection => exact hm.protection
  case maxProtection => exact hm.maxProtection
  case objectOffset => simp [Entry.page, Entry.join, hf, hs]
  case slot =>
    intro slot hslot
    cases hid' : second.anonymousMap with
    | none => simp [Entry.page, hid'] at hslot
    | some id' =>
      cases hid : first.anonymousMap with
      | none =>
        rw [Entry.MapsMergeable, hid] at hmaps
        exact absurd (hid'.symm.trans hmaps) (by simp)
      | some id =>
        simp only [Entry.MapsMergeable, hid, hid'] at hmaps
        simp only [Entry.page, hid', map_some, some.injEq] at hslot
        simp only [Entry.page, join_anonymousMap, hid, hmaps.1, map_some,
          some.injEq, ← hslot, Prod.mk.injEq, true_and]
        have := hmaps.2
        simp only [Entry.windowStop, Entry.join, Entry.windowStart] at this ⊢
        omega
  case fresh =>
    intro slot hnone hslot
    have hid' : second.anonymousMap = none := by
      simpa [Entry.page] using hnone
    cases hid : first.anonymousMap with
    | none => simp [Entry.page, hid] at hslot
    | some id =>
      simp only [Entry.MapsMergeable, hid, hid'] at hmaps
      obtain ⟨map, hmap, hend⟩ := hmaps
      simp only [Entry.page, join_anonymousMap, hid, map_some, some.injEq] at hslot
      subst hslot
      refine ⟨map, hmap, ?_⟩
      simp only [Entry.windowStop, Entry.join, Entry.windowStart] at hend ⊢
      omega

theorem pageAt_join : Option.Rel (Page.Keeps heap) (pageAt [first, second] address)
    (pageAt [first.join second] address) := by
  have hadj := hm.adjacent
  rw [pageAt_cons, pageAt_singleton, pageAt_singleton]
  simp only [stop_eq] at hadj
  by_cases h1 : first.range.Contains address
  · have hj : (first.join second).range.Contains address := by
      simp only [contains_iff, stop_eq, Entry.join] at h1 ⊢
      omega
    rw [if_pos h1, if_pos hj]
    exact .some (Page.Keeps.refl heap _)
  · rw [if_neg h1]
    by_cases h2 : second.range.Contains address
    · have hj : (first.join second).range.Contains address := by
        simp only [contains_iff, stop_eq, Entry.join] at h1 h2 ⊢
        omega
      rw [if_pos h2, if_pos hj]
      exact .some (page_join_second hm hf hs h2)
    · have hj : ¬ (first.join second).range.Contains address := by
        simp only [contains_iff, stop_eq, Entry.join] at h1 h2 ⊢
        omega
      rw [if_neg h2, if_neg hj]
      exact .none

omit hf hs in
/-- Only the pages of the second entry can be given a slot. -/
theorem pageAt_join_outside (ha : ¬ second.range.Contains address) :
    pageAt [first.join second] address = pageAt [first, second] address := by
  have hadj := hm.adjacent
  simp only [stop_eq] at hadj
  rw [pageAt_singleton, pageAt_cons, pageAt_singleton, if_neg ha]
  have hsame : (first.join second).range.Contains address ↔ first.range.Contains address := by
    simp only [contains_iff, stop_eq, Entry.join] at ha ⊢
    omega
  by_cases h1 : first.range.Contains address
  · rw [if_pos h1, if_pos (hsame.mpr h1)]
    rfl
  · rw [if_neg h1, if_neg (fun hj => h1 (hsame.mp hj))]

end

end Innigkeit.Memory

import Innigkeit.Memory.AddressSpace.Insert

/-!
`map` in a valid address space. It fails and changes nothing, or it inserts an
entry for the options at a free range; in both cases the space stays valid.
-/

namespace Innigkeit.Memory

open Zig Entry

theorem Entry.canMergeObjects_of_canMerge {heap : Heap} {first second : Entry}
    (h : first.canMerge heap second = .ok true) : canMergeObjects first second = .ok true := by
  unfold canMerge at h
  split at h
  · cases h
  split at h
  · cases h
  split at h
  · cases h
  split at h
  · cases h
  rw [bind_eq_ok] at h
  obtain ⟨stop, -, h⟩ := h
  split at h
  · cases h
  rw [bind_eq_ok] at h
  obtain ⟨b, hb, h⟩ := h
  cases b with
  | false => cases h
  | true => exact hb

namespace AddressSpace

section

variable {self space : AddressSpace} {options : MapOptions} {free : FreeRange} {heap : Heap}
  {entries : List Entry} {entry : Entry} {id : ObjectId}
variable {heap' : Heap} {entries' : List Entry}

private theorem mergeFollowing_object {i merges : ℕ}
    {entry' : Entry} (hentries : ∀ e ∈ entries, e.objectReference.object = none)
    (hobj : entry.objectReference.object = some id)
    (h : mergeFollowing heap entries i entry = .ok (heap', entries', entry', merges)) :
    heap' = heap ∧ entries' = entries ∧ entry' = entry ∧ merges = 0 := by
  unfold mergeFollowing at h
  split at h
  · cases h
    exact ⟨rfl, rfl, rfl, rfl⟩
  · simp only [bind_eq_ok, index_eq_ok] at h
    obtain ⟨y, hy, _, -, _, -, b, hb, h⟩ := h
    cases b with
    | false =>
      cases h
      exact ⟨rfl, rfl, rfl, rfl⟩
    | true =>
      have hmerge := canMergeObjects_of_canMerge hb
      simp [canMergeObjects, hobj, hentries y (List.mem_of_getElem? hy)] at hmerge

private theorem mergePreceding_object {i merges merges' : ℕ}
    (hentries : ∀ e ∈ entries, e.objectReference.object = none)
    (hobj : entry.objectReference.object = some id)
    (h : mergePreceding heap entries i entry merges = .ok (heap', entries', merges')) :
    heap' = heap ∧ entries' = entries ∧ merges' = merges := by
  unfold mergePreceding at h
  split at h
  · cases h
    exact ⟨rfl, rfl, rfl⟩
  · simp only [bind_eq_ok, index_eq_ok] at h
    obtain ⟨x, hx, _, -, _, -, b, hb, h⟩ := h
    cases b with
    | false =>
      cases h
      exact ⟨rfl, rfl, rfl⟩
    | true =>
      have hmerge := canMergeObjects_of_canMerge hb
      simp [canMergeObjects, hobj, hentries x (List.mem_of_getElem? hx)] at hmerge

/-- There is no object to map, so an insertion that names one can only run out of memory. -/
theorem insertEntry_object {allocation : Allocation} {result : Except MapError VirtualRange}
    (hv : self.Valid) (hobj : (localEntry options free.range).objectReference.object = some id)
    (h : insertEntry allocation self options free = .ok (result, space)) :
    result = .error .outOfMemory ∧ space = self := by
  have hentries : ∀ e ∈ self.entries, e.objectReference.object = none :=
    fun e he => (hv.consistent.entry e he).noObject
  simp only [insertEntry, bind_eq_ok] at h
  obtain ⟨⟨heap1, entries1, entry1, merges1⟩, h1, ⟨heap2, entries2, merges2⟩, h2, h⟩ := h
  obtain ⟨rfl, rfl, rfl, rfl⟩ := mergeFollowing_object hentries hobj h1
  obtain ⟨rfl, rfl, rfl⟩ := mergePreceding_object hentries hobj h2
  simp only [if_true] at h
  split at h
  · cases h
    exact ⟨rfl, rfl⟩
  · have href : ¬ ∃ heap, referenceObject self.heap options = .ok heap := by
      rintro ⟨heap, hheap⟩
      unfold referenceObject at hheap
      split at hheap
      · rename_i id' offset heq
        simp [Object.incrementReferenceCount, Heap.object, hv.consistent.heap.noObjects, unwrap]
          at hheap
      · rename_i hne
        cases htype : options.type with
        | zeroFill => simp [localEntry, htype] at hobj
        | object reference =>
          simp only [localEntry, htype] at hobj
          exact hne id reference.startOffset (by rw [htype, ← hobj])
    rw [bind_eq_ok] at h
    obtain ⟨heap, hheap, -⟩ := h
    exact absurd ⟨heap, hheap⟩ href

end

section

variable {self space : AddressSpace} {options : MapOptions} {free : FreeRange}
  {allocation : Allocation} {result : Except MapError VirtualRange}

structure MapOptions.Accepted (options : MapOptions) : Prop where
  size : 0 < options.size
  alignedSize : PageAligned options.size
  alignedBase : ∀ base ∈ options.base, PageAligned base

theorem validateMapOptions_accepted (h : validateMapOptions options = .ok ()) :
    options.Accepted := by
  unfold validateMapOptions at h
  split at h
  · cases h
  split at h
  · cases h
  split at h
  · cases h
  rename_i h1 h2 h3
  exact ⟨pos_of_ne_zero h1, not_not.mp h2,
    fun base hbase => not_not.mp fun hna => h3 ⟨base, hbase, hna⟩⟩

structure FoundFree (space : AddressSpace) (options : MapOptions) (free : FreeRange)
    (pre post : List Entry) : Prop where
  freeAt : space.FreeAt free pre post
  size : free.range.size = options.size
  aligned : PageAligned free.range.address
  base : ∀ base ∈ options.base, free.range.address = base
  firstFit : options.base = none →
    FirstFit space.entries space.range.address options.size free.range.address pre post

theorem freeRange_spec (hv : self.Valid) (hacc : options.Accepted)
    (h : self.freeRange options = .ok (some free)) :
    ∃ pre post, FoundFree self options free pre post := by
  unfold freeRange at h
  cases hbase : options.base with
  | some base =>
    rw [hbase] at h
    obtain ⟨hrange, pre, post, hfree⟩ := findExactFreeRange_spec hv h
    refine ⟨pre, post, hfree, by rw [hrange], ?_, ?_, by simp [hbase]⟩
    · rw [hrange]
      exact hacc.alignedBase base (by simp [hbase])
    · intro b hb
      rw [hbase, Option.mem_some_iff] at hb
      rw [hrange, ← hb]
  | none =>
    rw [hbase] at h
    obtain ⟨hsize, pre, post, hfree, hfit⟩ :=
      findFreeRange_spec hv.fits (hv.consistent.ordered.imp (·.ranges)) h
    refine ⟨pre, post, hfree, hsize, ?_, by simp [hbase], fun _ => hfit⟩
    rcases hfit.last with ⟨-, heq⟩ | ⟨x, hx, heq⟩
    · rw [heq]
      exact hv.aligned
    · have hg := hv.consistent.entry x (by rw [hfit.cut]; simp [hx])
      have h1 := pageAligned_iff.mp hg.alignedAddress
      have h2 := pageAligned_iff.mp hg.alignedSize
      have h3 := x.range.stop_eq
      rw [pageAligned_iff]
      omega

theorem localEntry_good {pre post : List Entry} (hacc : options.Accepted)
    (hfound : FoundFree self options free pre post)
    (hobj : (localEntry options free.range).objectReference.object = none) :
    (localEntry options free.range).Good self.range.stop self.heap where
  alignedAddress := hfound.aligned
  alignedSize := by
    simp only [localEntry, hfound.size]
    exact hacc.alignedSize
  nonempty := by
    simp only [localEntry, hfound.size]
    exact hacc.size
  below := hfound.freeAt.stop
  noObject := hobj
  unwired := rfl
  needsCopy := by simp [localEntry, anonymousMap]
  window id hid := by simp [localEntry, anonymousMap] at hid

/-- `map` fails and changes nothing, or inserts the entry of its options at a free range. -/
theorem map_spec (hv : self.Valid) (h : map allocation self options = .ok (result, space)) :
    (∃ error, result = .error error) ∧ space = self ∨
      ∃ returned free pre post, result = .ok returned ∧ options.Accepted ∧
        self.freeRange options = .ok (some free) ∧ FoundFree self options free pre post ∧
        (localEntry options free.range).Good self.range.stop self.heap ∧
        Inserted self (localEntry options free.range) pre post returned space := by
  unfold map at h
  split at h
  · cases h
    exact .inl ⟨⟨_, rfl⟩, rfl⟩
  · rename_i hvalid
    have hacc := validateMapOptions_accepted hvalid
    rw [bind_eq_ok] at h
    obtain ⟨found, hfree, h⟩ := h
    cases found with
    | none =>
      cases h
      exact .inl ⟨⟨_, rfl⟩, rfl⟩
    | some free =>
      obtain ⟨pre, post, hfound⟩ := freeRange_spec hv hacc hfree
      cases hobj : (localEntry options free.range).objectReference.object with
      | some id =>
        obtain ⟨hres, hspace⟩ := insertEntry_object hv hobj h
        exact .inl ⟨⟨_, hres⟩, hspace⟩
      | none =>
        have hg := localEntry_good hacc hfound hobj
        rcases insertEntry_spec hv hfound.freeAt hg h with
          ⟨hres, hspace⟩ | ⟨returned, hres, hins⟩
        · exact .inl ⟨⟨_, hres⟩, hspace⟩
        · exact .inr ⟨returned, free, pre, post, hres, hacc, hfree, hfound, hg, hins⟩

theorem map_valid (hv : self.Valid) (h : map allocation self options = .ok (result, space)) :
    space.Valid ∧ space.range = self.range := by
  rcases map_spec hv h with ⟨-, rfl⟩ | ⟨returned, free, pre, post, -, -, -, -, -, hins⟩
  · exact ⟨hv, rfl⟩
  · refine ⟨⟨?_, ?_, ?_⟩, hins.range⟩
    · rw [hins.range]
      exact hv.aligned
    · rw [hins.range]
      exact hv.fits
    · rw [hins.range]
      exact hins.consistent

end

end AddressSpace

end Innigkeit.Memory

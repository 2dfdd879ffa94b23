import Innigkeit.Memory.AddressSpace.Reachable

/-!
The contracts of `map`, `unmap` and `changeProtection` over all runs of an
address space. `map` returns the range that it has mapped, except where the new
entry was merged with the one behind it or the range lies below the address
space. `unmap` and `changeProtection` find the entries of the range by one
search, which fails an assertion for a range in a hole below an entry;
`changeProtection` has further traps of its own, the most common of which is the
counter that it decrements when the entry before the range is merged.
-/

namespace Innigkeit.Memory.AddressSpace

open Zig Transition List VirtualRange

structure MapCorrect (space : AddressSpace) (options : MapOptions) (returned : VirtualRange)
    (space' : AddressSpace) : Prop where
  size : returned.size = options.size
  base : ∀ base ∈ options.base, returned.address = base
  unmapped : ∀ a, returned.Contains a → ¬ Mapped space.entries a
  inside : space.range.address ≤ returned.address ∧ returned.stop ≤ space.range.stop
  mapped : ∀ a, Mapped space'.entries a ↔ Mapped space.entries a ∨ returned.Contains a

/-- The range that `map` takes does not begin below the address space: the base does not, or the
search for a free range does not stop behind an entry below the address space. -/
def StartsInside (space : AddressSpace) (options : MapOptions) : Prop :=
  match options.base with
  | some base => space.range.address ≤ base
  | none => ∀ x ∈ space.entries, x.range.stop < space.range.address →
      ∃ y ∈ space.entries, x.range.stop ≤ y.range.address ∧
        y.range.address < x.range.stop + options.size

/-- The new entry can be merged with an entry behind it. -/
def MergesWithFollowing (space : AddressSpace) (options : MapOptions) : Prop :=
  ∃ free following, space.freeRange options = .ok (some free) ∧ following ∈ space.entries ∧
    (localEntry options free.range).canMerge space.heap following = .ok true

section

variable {space space' : AddressSpace} {options : MapOptions} {allocation : Allocation}
  {returned : VirtualRange} {free : FreeRange} {pre post : List Entry}

private theorem mergesWithFollowing_iff (hv : space.Valid)
    (hfound : FoundFree space options free pre post)
    (hfree : space.freeRange options = .ok (some free))
    (hg : (localEntry options free.range).Good space.range.stop space.heap) :
    MergesWithFollowing space options ↔
      ∃ y ∈ post.head?, Entry.Mergeable space.heap (localEntry options free.range) y := by
  have hc := hv.consistent
  have hcut := hfound.freeAt.cut
  rw [hcut] at hc
  have hins : Consistent space.range.stop space.heap
      (pre ++ localEntry options free.range :: post) := by
    simpa using hc.insert hg rfl hfound.freeAt.before hfound.freeAt.behind
  have hmerge {y : Entry} (hy : y ∈ space.entries) :
      (localEntry options free.range).canMerge space.heap y = .ok true ↔
        Entry.Mergeable space.heap (localEntry options free.range) y := by
    obtain ⟨b, hb, hiff⟩ :=
      Entry.canMerge_eq hg (hv.consistent.entry y hy) hv.consistent.heap hv.fits
    rw [hb, Except.ok.injEq, hiff]
  constructor
  · rintro ⟨free', y, hfree', hy, hcan⟩
    obtain rfl : free = free' := by simpa [hfree] using hfree'
    have hm := (hmerge hy).mp hcan
    have hin : y ∈ pre ++ localEntry options free.range :: post := by
      rw [hcut] at hy
      simp only [mem_append, mem_cons] at hy ⊢
      exact hy.imp_right .inr
    exact ⟨y, head_of_adjacent hins hin hm.adjacent, hm⟩
  · rintro ⟨y, hy, hm⟩
    have hin : y ∈ space.entries := by
      rw [hcut]
      exact mem_append_right _ (mem_of_mem_head? hy)
    exact ⟨free, y, hfree, hin, (hmerge hin).mpr hm⟩

private theorem startsInside_iff (hv : space.Valid)
    (hfound : FoundFree space options free pre post) :
    StartsInside space options ↔ space.range.address ≤ free.range.address := by
  unfold StartsInside
  cases hbase : options.base with
  | some base => rw [hfound.base base (by simp [hbase])]
  | none => exact ((hfound.firstFit hbase).start_le_iff hv.consistent.entry).symm

private theorem mapped_inserted (hfound : FoundFree space options free pre post)
    (hins : Inserted space (localEntry options free.range) pre post returned space') (a : ℕ) :
    (free.range.Contains a → ¬ Mapped space.entries a) ∧
      (Mapped space'.entries a ↔ Mapped space.entries a ∨ free.range.Contains a) := by
  have hcut := hfound.freeAt.cut
  constructor
  · rintro hin ⟨e, he, hein⟩
    rw [contains_iff] at hin hein
    rw [hcut] at he
    rcases mem_append.mp he with he | he
    · have := hfound.freeAt.before e he
      omega
    · have := hfound.freeAt.behind e he
      omega
  · rw [Mapped.iff_of_rel (hins.pages a), hcut]
    simp only [mapped_append, mapped_cons, not_mapped_nil, or_false]
    have hlocal : (localEntry options free.range).range = free.range := rfl
    rw [hlocal]
    tauto

/-- In every run, a successful `map` keeps its contract exactly if it does not merge the new entry
with one behind it and does not start below the address space. -/
theorem map_correct_iff (hreach : system.Reachable anyStep space)
    (hmap : map allocation space options = .ok (.ok returned, space')) :
    MapCorrect space options returned space' ↔
      StartsInside space options ∧ ¬ MergesWithFollowing space options := by
  have hv := reachable_valid hreach
  rcases map_spec hv hmap with ⟨⟨error, herror⟩, -⟩ |
    ⟨_, free, pre, post, hres, hacc, hfree, hfound, hg, hins⟩
  · cases herror
  obtain rfl := Except.ok.inj hres
  rw [mergesWithFollowing_iff hv hfound hfree hg, startsInside_iff hv hfound]
  rcases hins.returned with ⟨hno, rfl⟩ | ⟨y, hy, hm, rfl⟩
  · -- not merged with the following entry: the range is the free one
    have hrange : (localEntry options free.range).range = free.range := rfl
    rw [hrange]
    constructor
    · intro h
      exact ⟨h.inside.1, fun ⟨y, hy, hm⟩ => hno y hy hm⟩
    · rintro ⟨hstart, -⟩
      exact ⟨hfound.size, hfound.base, fun a => (mapped_inserted hfound hins a).1,
        ⟨hstart, hfound.freeAt.stop⟩, fun a => (mapped_inserted hfound hins a).2⟩
  · constructor
    · intro h
      have hsize := h.size
      have hpos := (hv.consistent.entry y (by
        rw [hfound.freeAt.cut]
        exact mem_append_right _ (mem_of_mem_head? hy))).nonempty
      simp only [Entry.join, localEntry, hfound.size] at hsize
      omega
    · rintro ⟨-, hno⟩
      exact absurd ⟨y, hy, hm⟩ hno

/-- What `map` has mapped can be unmapped: the page table is cleared and every page is again what it
was before, also where the new entry was merged with the one before it. A range longer than the request would take pages of the entry behind with it. -/
theorem unmap_undoes_map {later : Allocation} (hreach : system.Reachable anyStep space)
    (hmap : map allocation space options = .ok (.ok returned, space'))
    (hsize : returned.size = options.size) (halloc : later.entryAvailable = true) :
    ∃ batches space'', unmap later space' returned = .ok (.ok batches, space'') ∧
      (∀ a, returned.Contains a → ∃ batch ∈ batches, batch.Covers a) ∧
      ∀ a, pageAt space''.entries a = pageAt space.entries a := by
  have hv := reachable_valid hreach
  obtain ⟨⟨error, herror⟩, -⟩ | ⟨_, free, pre, post, hres, -, -, hfound, hg, hins⟩ :=
    map_spec hv hmap
  · cases herror
  obtain rfl := Except.ok.inj hres
  have hcut := hfound.freeAt.cut
  obtain ⟨hno, rfl⟩ | ⟨y, hy, -, rfl⟩ := hins.returned
  · have hnow (a : ℕ) (ha : free.range.Contains a) : Mapped space'.entries a :=
      (mapped_inserted hfound hins a).2.mpr (.inr ha)
    obtain ⟨e, he, hin⟩ := hnow free.range.address ⟨le_rfl, Nat.lt_add_of_pos_right hg.nonempty⟩
    have halign := pageAligned_eq_true.mpr ⟨hg.alignedAddress, hg.alignedSize⟩
    obtain ⟨⟨result, space''⟩, hrun, hout, hmemory⟩ := unmap_outcome (map_valid hv hmap).1 later
      (.inr (.inr (.inr ⟨hg.below.trans_lt hv.fits, e, he, by
        have := hg.nonempty
        rw [overlaps_iff, stop_eq (localEntry options free.range).range]
        exact ⟨hin.1.trans_lt (Nat.lt_add_of_pos_right this), hin.2⟩⟩)))
    cases hout with
    | misaligned hmis => simp [halign] at hmis
    | outOfMemory => exact absurd rfl (hmemory halloc)
    | done _ _ _ hcleared _ hcovers =>
      refine ⟨_, space'', hrun, fun a ha => hcovers a ha (hnow a ha), fun a => ?_⟩
      by_cases ha : free.range.Contains a
      · rw [hcleared.inside a ha, pageAt_eq_none.mpr ((mapped_inserted hfound hins a).1 ha)]
      · rw [hcleared.outside a ha, hins.others hno a ha, pageAt_append, pageAt_append,
          pageAt_singleton, if_neg (by exact ha), Option.or_none, ← pageAt_append, ← hcut]
  · have hpos := (hv.consistent.entry y (by
      rw [hcut]
      exact mem_append_right _ (mem_of_mem_head? hy))).nonempty
    simp only [Entry.join, localEntry, hfound.size] at hsize
    omega

end

/-- The page behind a mapped one: its entry is merged with that of the page before, and cut off
again. -/
theorem unmap_undoes_map_merged : ∃ space space' batches space'',
    map {} userSpace (readWriteAt 0x2000 0x1000) = .ok (.ok ⟨0x2000, 0x1000⟩, space) ∧
      map {} space (readWriteAt 0x3000 0x1000) = .ok (.ok ⟨0x3000, 0x1000⟩, space') ∧
      space'.entries.length = 1 ∧ unmap {} space' ⟨0x3000, 0x1000⟩ = .ok (.ok batches, space'') ∧
      ∀ a, pageAt space''.entries a = pageAt space.entries a := by
  have hreach := reachable_of_run [.map {} (readWriteAt 0x2000 0x1000)] rfl
  obtain ⟨batches, space'', hunmap, -, hpages⟩ := unmap_undoes_map hreach
    (rfl : map {} _ (readWriteAt 0x3000 0x1000) = .ok (.ok ⟨0x3000, 0x1000⟩, _)) rfl
    (show ({} : Allocation).entryAvailable = true from rfl)
  exact ⟨_, _, batches, space'', rfl, rfl, rfl, hunmap, hpages⟩

/-- The first page that a process maps. -/
theorem map_correct_first_page :
    ∃ space', map {} userSpace (readWriteAt 0x2000 0x1000) = .ok (.ok ⟨0x2000, 0x1000⟩, space') ∧
      MapCorrect userSpace (readWriteAt 0x2000 0x1000) ⟨0x2000, 0x1000⟩ space' := by
  obtain ⟨space', hmap⟩ : ∃ space', map {} userSpace (readWriteAt 0x2000 0x1000) =
    .ok (.ok ⟨0x2000, 0x1000⟩, space') := ⟨_, rfl⟩
  refine ⟨space', hmap, (map_correct_iff userSpace_reachable hmap).mpr ⟨?_, ?_⟩⟩
  · show 0x1000 ≤ 0x2000
    decide
  · rintro ⟨-, following, -, hmem, -⟩
    cases hmem

/-- With the page at 0x2000 mapped, a request for the page at 0x1000 is answered with both pages;
and a process gets the page at address zero, below its address space. -/
theorem map_not_correct :
    (∃ space space', system.Reachable anyStep space ∧
      map {} space (readWriteAt 0x1000 0x1000) = .ok (.ok ⟨0x1000, 0x2000⟩, space') ∧
      ¬ MapCorrect space (readWriteAt 0x1000 0x1000) ⟨0x1000, 0x2000⟩ space') ∧
    ∃ space', map {} userSpace (readWriteAt 0 0x1000) = .ok (.ok ⟨0, 0x1000⟩, space') ∧
      ¬ MapCorrect userSpace (readWriteAt 0 0x1000) ⟨0, 0x1000⟩ space' := by
  constructor
  · refine ⟨_, _, reachable_of_run [.map {} (readWriteAt 0x2000 0x1000)] rfl, rfl, fun h => ?_⟩
    exact absurd h.size (by decide)
  · refine ⟨_, rfl, fun h => ?_⟩
    exact absurd h.inside.1 (by decide)

section

variable {space : AddressSpace} {allocation : Allocation} {range : VirtualRange}

/-- The call returns, and afterwards the pages of the range are gone and no other page shows
anything else than before. -/
def UnmapCorrect (allocation : Allocation) (space : AddressSpace) (range : VirtualRange) : Prop :=
  ∃ batches space', unmap allocation space range = .ok (.ok batches, space') ∧
    Cleared range space.entries space'.entries

/-- In every run, `unmap` keeps its contract for a page-aligned range exactly if the range is empty,
lies behind every entry, or overlaps one. -/
theorem unmap_correct_iff (hreach : system.Reachable anyStep space)
    (halign : range.pageAligned = true) (hfits : range.Fits)
    (halloc : allocation.entryAvailable = true) :
    UnmapCorrect allocation space range ↔ range.size = 0 ∨
      (∀ e ∈ space.entries, e.range.stop ≤ range.address) ∨
      ∃ e ∈ space.entries, e.range.Overlaps range := by
  have hv := reachable_valid hreach
  have hiff : UnmapReturns space range ↔ range.size = 0 ∨
      (∀ e ∈ space.entries, e.range.stop ≤ range.address) ∨
      ∃ e ∈ space.entries, e.range.Overlaps range := by
    simp [UnmapReturns, halign, hfits]
  rw [← hiff]
  constructor
  · rintro ⟨batches, space', hrun, -⟩
    exact (unmap_returns_iff hv allocation).mp ⟨_, hrun⟩
  · intro hret
    obtain ⟨⟨result, space'⟩, hrun, hout, hmemory⟩ := unmap_outcome hv allocation hret
    cases hout with
    | misaligned hmis => simp [halign] at hmis
    | outOfMemory => exact absurd rfl (hmemory halloc)
    | done _ _ _ hcleared => exact ⟨_, space', hrun, hcleared⟩

/-- Unmapping the page that was mapped. -/
theorem unmap_correct_mapped_page : ∃ space, system.Reachable anyStep space ∧
    Mapped space.entries 0x5000 ∧ UnmapCorrect {} space ⟨0x5000, 0x1000⟩ := by
  refine ⟨_, reachable_of_run [.map {} (readWriteAt 0x5000 0x1000)] rfl, ?_, ?_⟩
  · exact ⟨_, mem_cons_self, by decide⟩
  · refine (unmap_correct_iff (reachable_of_run [.map {} (readWriteAt 0x5000 0x1000)] rfl)
      (by decide) (by decide) rfl).mpr (.inr (.inr ⟨_, mem_cons_self, by decide⟩))

/-- With the page at 0x5000 mapped, unmapping the page at 0x2000 fails an assertion. -/
theorem unmap_hole_traps : ∃ space, system.Reachable anyStep space ∧
    unmap {} space ⟨0x2000, 0x1000⟩ = .error .assertion :=
  ⟨_, reachable_of_run [.map {} (readWriteAt 0x5000 0x1000)] rfl, rfl⟩

end

section

variable {space : AddressSpace} {allocation : Allocation} {range : VirtualRange}
  {change : ChangeProtection}

/-- The call fails and leaves the entries alone, or it returns and every page of the range has what
was asked for, while the other pages keep what they had and every page keeps its slot and offset. -/
def ChangeCorrect (allocation : Allocation) (space : AddressSpace) (range : VirtualRange)
    (change : ChangeProtection) : Prop :=
  (∃ error space', changeProtection allocation space range change = .ok (.error error, space') ∧
    space'.entries = space.entries) ∨
  ∃ batches space', changeProtection allocation space range change = .ok (.ok batches, space') ∧
    ∀ address, Option.Rel (Page.Keeps space.heap)
      (changedPage change.toRequest range space.entries address) (pageAt space'.entries address)

/-- In every run, `changeProtection` keeps its contract for a page-aligned range that overlaps an
entry exactly under the condition `ChangeReturns`. -/
theorem changeProtection_correct_iff (hreach : system.Reachable anyStep space)
    (halign : range.pageAligned = true) (hover : ∃ e ∈ space.entries, e.range.Overlaps range) :
    ChangeCorrect allocation space range change ↔
      ChangeReturns allocation space range change.toRequest := by
  have hv := reachable_valid hreach
  obtain ⟨ha, hs⟩ := pageAligned_eq_true.mp halign
  rcases changeProtection_outcome allocation change hv ha hs hover with
    ⟨outcome, hrun, hout, -, hret⟩ | ⟨hno, hnot⟩
  · refine ⟨fun _ => hret, fun _ => ?_⟩
    cases hout with
    | refused error => exact .inl ⟨error, space, hrun, rfl⟩
    | done hchanged => exact .inr ⟨_, _, hrun, hchanged.pages⟩
  · refine ⟨fun h => ?_, fun h => absurd h hnot⟩
    rcases h with ⟨error, space', hrun, -⟩ | ⟨batches, space', hrun, -⟩
    · exact absurd ⟨_, hrun⟩ hno
    · exact absurd ⟨_, hrun⟩ hno

/-- Taking the write permission from the only page that is mapped. -/
theorem changeProtection_correct_mapped_page : ∃ space, system.Reachable anyStep space ∧
    Mapped space.entries 0x5000 ∧
    ChangeCorrect {} space ⟨0x5000, 0x1000⟩ (.protection { read := true }) := by
  have hreach := reachable_of_run [.map {} (readWriteAt 0x5000 0x1000)] rfl
  refine ⟨_, hreach, ⟨_, mem_cons_self, by decide⟩,
    (changeProtection_correct_iff hreach (by decide) ⟨_, mem_cons_self, by decide⟩).mpr
      (.inr (.inr ⟨by decide, fun _ => ⟨fun _ => by decide, fun e he hsome => ?_, ?_⟩⟩))⟩
  · obtain rfl := mem_singleton.mp he
    exact absurd rfl hsome
  · rintro ⟨⟨x, hx, f, hf, -, hm⟩, -⟩
    obtain rfl := mem_singleton.mp hx
    obtain rfl := mem_singleton.mp hf
    exact absurd hm.adjacent (by decide)

/-- Three pages, of which the second loses its write permission and then gets it back: the changed
entry is merged with the one behind it and is not counted, and the merge with the one before it
takes one off the count of zero. -/
theorem changeProtection_back_traps : ∃ space, system.Reachable anyStep space ∧
    changeProtection {} space ⟨0x3000, 0x1000⟩ (.protection { read := true, write := true }) =
      .error .overflow :=
  ⟨_, reachable_of_run [.map {} (readWriteAt 0x2000 0x3000),
    .changeProtection {} ⟨0x3000, 0x1000⟩ (.protection { read := true })] rfl, rfl⟩

end

end Innigkeit.Memory.AddressSpace

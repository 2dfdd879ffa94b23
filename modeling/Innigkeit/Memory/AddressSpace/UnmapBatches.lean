import Innigkeit.Memory.AddressSpace.EntryRangeSpec
import Innigkeit.Memory.AddressSpace.EntrySteps

/-!
The ranges that `unmap` and `changeProtection` hand to the page table. The
iterators yield the part of each entry inside the range, in ascending order,
and the batches cover those parts without leaving the range.
-/

namespace Innigkeit.Memory

open Zig List VirtualRange VirtualAddress

def clip (range other : VirtualRange) : VirtualRange :=
  ⟨max range.address other.address, min range.stop other.stop - max range.address other.address⟩

theorem clip_contains {range other : VirtualRange} {address : ℕ} :
    (clip range other).Contains address ↔ range.Contains address ∧ other.Contains address := by
  simp only [clip, contains_iff, stop_eq]
  omega

namespace AddressSpace

section

variable {limit : ℕ} {heap : Heap} {range : VirtualRange} {entries pre mid post : List Entry}
  {first last : Entry} {x : Entry}

theorem rangeAt_eq (hc : Consistent limit heap entries) (hl : limit < 2 ^ 64)
    (hfits : range.Fits) (hcut : RangeCut range entries pre mid post)
    (hfirst : mid.head? = some first) (hlast : mid.getLast? = some last)
    {done rest : List Entry} (hmid : mid = done ++ x :: rest) :
    (rangeOf range pre mid first last).rangeAt range entries (pre.length + done.length) =
      .ok (clip range x.range) := by
  have hx : x ∈ mid := by rw [hmid]; simp
  have hg := hc.entry x (by rw [hcut.cut]; simp [hx])
  have hord := hcut.ordered hc
  rw [hmid, pairwise_append, pairwise_cons] at hord
  have h1 := hcut.start x hx
  have h2 := hcut.stop x hx
  have hrs := range.stop_eq
  have hxs := x.range.stop_eq
  have hpos := hg.nonempty
  -- only the first entry can begin before the range, and only the last one can end behind it
  have hbegin : pre.length + done.length = pre.length ∧ first.range.address < range.address ↔
      x.range.address < range.address := by
    cases done with
    | nil =>
      obtain rfl : x = first := by simpa [hmid] using hfirst
      simp
    | cons y done =>
      have h3 := (hord.2.2 y (by simp) x (by simp)).ranges
      have h4 := hcut.start y (by rw [hmid]; simp)
      simp only [length_cons]
      omega
  have hend : pre.length + done.length = pre.length + mid.length - 1 ∧
      range.stop < last.range.stop ↔ range.stop < x.range.stop := by
    rw [hmid, length_append, length_cons]
    cases rest with
    | nil =>
      obtain rfl : x = last := by simpa [hmid] using hlast
      simp
    | cons y rest =>
      have h3 := (hord.2.1.1 y (by simp)).ranges
      have h4 := hcut.stop y (by rw [hmid]; simp)
      simp only [length_cons]
      omega
  have hok : ∀ r s : VirtualRange, r.address = s.address → r.size = s.size →
      (Except.ok r : Checked VirtualRange) = .ok s := by
    rintro ⟨a, b⟩ ⟨c, d⟩ rfl rfl
    rfl
  simp only [EntryRange.rangeAt, rangeOf, index_of (hcut.getElem?_eq hmid), ok_bind,
    decide_eq_true_eq, hbegin, hend]
  split
  · split
    · next hs he =>
      have hlen : mid.length = 1 := by
        have h3 := (hbegin.mpr hs).1
        have h4 := (hend.mpr he).1
        have h5 := length_pos_of_mem hx
        omega
      simp only [assert, hlen, if_true, ok_bind, pure_eq_ok]
      refine hok _ _ ?_ ?_ <;> simp only [clip] <;> omega
    · simp only [after_of_fits (hg.fits hl), ok_bind, difference_of_le (le_of_lt h1), pure_eq_ok]
      refine hok _ _ ?_ ?_ <;> simp only [clip] <;> omega
  · split
    · simp only [after_of_fits hfits, ok_bind, difference_of_le (le_of_lt h2), pure_eq_ok]
      refine hok _ _ ?_ ?_ <;> simp only [clip] <;> omega
    · rw [pure_eq_ok]
      refine hok _ _ ?_ ?_ <;> simp only [clip] <;> omega

theorem clip_good (hc : Consistent limit heap entries)
    (hcut : RangeCut range entries pre mid post) (hpos : 0 < range.size)
    (ha : PageAligned range.address) (hs : PageAligned range.size) (hx : x ∈ mid) :
    PageAligned (clip range x.range).address ∧ PageAligned (clip range x.range).size ∧
      0 < (clip range x.range).size ∧ range.address ≤ (clip range x.range).address ∧
      (clip range x.range).stop ≤ range.stop := by
  have hg := hc.entry x (by rw [hcut.cut]; simp [hx])
  have h1 := hcut.start x hx
  have h2 := hcut.stop x hx
  have h3 := pageAligned_iff.mp hg.alignedAddress
  have h4 := pageAligned_iff.mp hg.alignedSize
  have h5 := hg.nonempty
  rw [pageAligned_iff] at ha hs
  simp only [pageAligned_iff, clip, stop_eq] at *
  refine ⟨?_, ?_, ?_, ?_, ?_⟩ <;> omega

theorem clip_ordered (hc : Consistent limit heap entries)
    (hcut : RangeCut range entries pre mid post) {done rest : List Entry}
    (hmid : mid = done ++ x :: rest) :
    ∀ y ∈ rest, (clip range x.range).stop ≤ (clip range y.range).address := by
  intro y hy
  have hord := hcut.ordered hc
  rw [hmid, pairwise_append, pairwise_cons] at hord
  have h4 := (hord.2.1.1 y hy).ranges
  have h1 := hcut.start x (by rw [hmid]; simp)
  have h2 := hcut.stop x (by rw [hmid]; simp)
  have hg := (hc.entry x (by rw [hcut.cut, hmid]; simp)).nonempty
  simp only [clip, stop_eq] at *
  omega

open VirtualRangeBatch in
theorem unmapBatches_spec (hc : Consistent limit heap entries) (hl : limit < 2 ^ 64)
    (hfits : range.Fits) (hpos : 0 < range.size) (ha : PageAligned range.address)
    (hs : PageAligned range.size) (hcut : RangeCut range entries pre mid post)
    (hfirst : mid.head? = some first) (hlast : mid.getLast? = some last)
    (done rest : List Entry) (hmid : mid = done ++ rest) (batch : VirtualRangeBatch) (high : ℕ)
    (hasc : Ascending range.address high batch)
    (hhigh : high ≤ range.stop) (hnext : ∀ x ∈ rest, high ≤ (clip range x.range).address) :
    ∃ batches, unmapBatches (rangeOf range pre mid first last) range entries
        (List.range' (pre.length + done.length) rest.length) batch = .ok batches ∧
      (∀ batch ∈ batches, Ascending range.address range.stop batch) ∧
      ∀ a, batch.Covers a ∨ (∃ x ∈ rest, (clip range x.range).Contains a) →
        ∃ batch ∈ batches, batch.Covers a := by
  have hraise {high : ℕ} {batch : VirtualRangeBatch} (h : Ascending range.address high batch)
      (hle : high ≤ range.stop) : Ascending range.address range.stop batch :=
    ⟨h.aligned, h.nonempty, fun r hr => ⟨(h.within r hr).1, le_trans (h.within r hr).2 hle⟩,
      h.ordered⟩
  induction rest generalizing done batch high with
  | nil =>
    refine ⟨if batch.isEmpty then [] else [batch], rfl, ?_, ?_⟩
    · split
      · simp
      · simpa using hraise hasc hhigh
    · rintro a (⟨r, hr, hin⟩ | ⟨x, hx, -⟩)
      · refine ⟨batch, ?_, r, hr, hin⟩
        rw [if_neg (by simpa using ne_nil_of_mem hr)]
        simp
      · simp at hx
  | cons x rest ih =>
    obtain ⟨hca, hcs, hcpos, hclow, hcstop⟩ := clip_good (x := x) hc hcut hpos ha hs
      (by rw [hmid]; simp)
    have hcfits : (clip range x.range).Fits := lt_of_le_of_lt hcstop hfits
    have hat := rangeAt_eq hc hl hfits hcut hfirst hlast hmid
    have hx := hnext x (by simp)
    have hord := clip_ordered hc hcut hmid
    have hmid' : mid = (done ++ [x]) ++ rest := by rw [hmid]; simp
    have hlen : pre.length + done.length + 1 = pre.length + (done ++ [x]).length := by
      simp only [length_append, length_singleton]
      omega
    have hheads : ∀ last ∈ batch.head?, last.stop ≤ (clip range x.range).address :=
      fun r hr => le_trans (hasc.within r (mem_of_head? hr)).2 hx
    rw [length_cons, range'_succ, hlen]
    simp only [unmapBatches, hat, ok_bind]
    rcases append_spec hca hcs hcfits hheads with hfull | ⟨batch', happ, hext⟩
    · -- a full batch is submitted and the next one starts with this part
      have hempty : ∀ last ∈ List.head? ([] : VirtualRangeBatch),
          last.stop ≤ (clip range x.range).address := by simp
      obtain ⟨next, hnextEq, hext⟩ := appendMergeIfFull_spec hca hcs hcfits hempty
      have hnextApp := hext.appended
      have hnextAsc := hnextApp.ascending _ 0 Ascending.nil hcpos hca hcs hclow
        (Nat.zero_le _)
      obtain ⟨batches, hrun, hall, hcov⟩ := ih (done ++ [x]) hmid' next _ hnextAsc hcstop hord
      refine ⟨batch :: batches, ?_, ?_, ?_⟩
      · simp only [hfull, hnextEq, hrun, ok_bind, pure_eq_ok]
      · simp only [forall_mem_cons]
        exact ⟨hraise hasc hhigh, hall⟩
      · rintro a (hin | ⟨y, hy, hin⟩)
        · exact ⟨batch, by simp, hin⟩
        · rcases mem_cons.mp hy with rfl | hy
          · obtain ⟨b, hb, hba⟩ := hcov a (.inl (hnextApp.covers a (.inr hin)))
            exact ⟨b, by simp [hb], hba⟩
          · obtain ⟨b, hb, hba⟩ := hcov a (.inr ⟨y, hy, hin⟩)
            exact ⟨b, by simp [hb], hba⟩
    · have happended := hext.appended
      have hasc' := happended.ascending _ _ hasc hcpos hca hcs hclow hx
      obtain ⟨batches, hrun, hall, hcov⟩ := ih (done ++ [x]) hmid' batch' _ hasc' hcstop hord
      refine ⟨batches, ?_, hall, ?_⟩
      · simp only [happ, hrun, ok_bind]
      · rintro a (hin | ⟨y, hy, hin⟩)
        · exact hcov a (.inl (happended.covers a (.inl hin)))
        · rcases mem_cons.mp hy with rfl | hy
          · exact hcov a (.inl (happended.covers a (.inr hin)))
          · exact hcov a (.inr ⟨y, hy, hin⟩)

end

end AddressSpace

end Innigkeit.Memory

import Innigkeit.Address.VirtualRange
import Innigkeit.Memory.MapType
import Mathlib.Data.List.Induction

/-!
Batches of virtual ranges. Ranges are appended in ascending order and a range
close to the last one is merged with it, hole included. A batch is the list of
its ranges, latest first.
-/

namespace Innigkeit.Memory

open Zig List VirtualRange VirtualAddress

def virtualRangesToBatch : ℕ := 16

def virtualRangeBatchingMergeDistance : ℕ := standardPageSize * 4

def extendOver (last range : VirtualRange) : Checked VirtualRange := do
  let separation ← difference (← last.after) range.address
  return { last with size := ← add 64 (← add 64 last.size separation) range.size }

abbrev VirtualRangeBatch := List VirtualRange

namespace VirtualRangeBatch

/-- A full batch always merges with its last range. -/
def appendMergeIfFull (batch : VirtualRangeBatch) (range : VirtualRange) :
    Checked VirtualRangeBatch := do
  assert (range.pageAligned = true)
  match batch with
  | [] => return [range]
  | last :: rest =>
    assert ((← last.after) ≤ range.address)
    let separation ← difference (← last.after) range.address
    if batch.length = virtualRangesToBatch ∨ separation ≤ virtualRangeBatchingMergeDistance then
      return (← extendOver last range) :: rest
    else return range :: batch

/-- `none` when the batch is full and the range could not be appended. -/
def append (batch : VirtualRangeBatch) (range : VirtualRange) :
    Checked (Option VirtualRangeBatch) := do
  assert (range.pageAligned = true)
  match batch with
  | [] => return some [range]
  | last :: rest =>
    assert ((← last.after) ≤ range.address)
    let separation ← difference (← last.after) range.address
    if separation ≤ virtualRangeBatchingMergeDistance then
      return some ((← extendOver last range) :: rest)
    else if batch.length = virtualRangesToBatch then return none
    else return some (range :: batch)

end VirtualRangeBatch

section

variable {last range : VirtualRange} {batch : VirtualRangeBatch} {address : ℕ}

theorem extendOver_eq (h : last.stop ≤ range.address) (hfits : range.Fits) :
    extendOver last range = .ok (last.hull range) := by
  have hlt : range.stop < 2 ^ 64 := hfits
  have hl : last.Fits := by
    simp only [Fits, stop_eq] at *
    omega
  simp only [stop_eq] at h hlt
  simp only [extendOver, after_of_fits hl, ok_bind, stop_eq,
    difference_of_le h,
    add_of_lt (show last.size + (range.address - (last.address + last.size)) < 2 ^ 64 by omega),
    add_of_lt (show last.size + (range.address - (last.address + last.size)) + range.size < 2 ^ 64 by
      omega), pure_eq_ok, hull]
  congr 2
  omega

namespace VirtualRangeBatch

/-- The addresses that a batch covers, holes that were merged over included. -/
def Covers (batch : VirtualRangeBatch) (address : ℕ) : Prop := ∃ r ∈ batch, r.Contains address

/-- Aligned, non-empty ranges between two addresses, latest first. -/
structure Ascending (low high : ℕ) (batch : VirtualRangeBatch) : Prop where
  aligned : ∀ r ∈ batch, PageAligned r.address ∧ PageAligned r.size
  nonempty : ∀ r ∈ batch, 0 < r.size
  within : ∀ r ∈ batch, low ≤ r.address ∧ r.stop ≤ high
  ordered : batch.Pairwise fun later earlier => earlier.stop ≤ later.address

theorem Ascending.nil {low high : ℕ} : Ascending low high [] :=
  ⟨by simp, by simp, by simp, List.Pairwise.nil⟩

/-- What both ways of appending a range leave. -/
structure Appended (batch : VirtualRangeBatch) (range : VirtualRange) (batch' : VirtualRangeBatch) :
    Prop where
  covers : ∀ address, batch.Covers address ∨ range.Contains address → batch'.Covers address
  last : ∃ r ∈ batch'.head?, r.stop = range.stop
  ascending : ∀ low high, Ascending low high batch → 0 < range.size →
    PageAligned range.address → PageAligned range.size → low ≤ range.address →
    high ≤ range.address → Ascending low range.stop batch'

private theorem appended_cons : Appended batch range (range :: batch) where
  covers address h := by
    rcases h with ⟨r, hr, hc⟩ | hc
    · exact ⟨r, by simp [hr], hc⟩
    · exact ⟨range, by simp, hc⟩
  last := ⟨range, rfl, rfl⟩
  ascending low high h hpos ha hs hlow hhigh := by
    have hstop := range.stop_eq
    refine ⟨by simpa using ⟨⟨ha, hs⟩, h.aligned⟩, by simpa using ⟨hpos, h.nonempty⟩, ?_, ?_⟩
    · simp only [forall_mem_cons]
      refine ⟨⟨hlow, le_rfl⟩, fun r hr => ?_⟩
      have := h.within r hr
      omega
    · rw [pairwise_cons]
      refine ⟨fun r hr => ?_, h.ordered⟩
      have := (h.within r hr).2
      omega

private theorem appended_hull {rest : VirtualRangeBatch} (hle : last.stop ≤ range.address) :
    Appended (last :: rest) range (last.hull range :: rest) where
  covers address h := by
    rcases h with ⟨r, hr, hc⟩ | hc
    · rcases mem_cons.mp hr with rfl | hr
      · refine ⟨r.hull range, by simp, (contains_hull hle).mpr ?_⟩
        simp only [contains_iff, stop_eq] at *
        omega
      · exact ⟨r, by simp [hr], hc⟩
    · refine ⟨last.hull range, by simp, (contains_hull hle).mpr ?_⟩
      simp only [contains_iff, stop_eq] at *
      omega
  last := ⟨last.hull range, rfl, hull_stop hle⟩
  ascending low high h hpos ha hs hlow hhigh := by
    have hstop := range.stop_eq
    have hlast := h.within last (by simp)
    have hal := h.aligned last (by simp)
    have hord := h.ordered
    rw [pairwise_cons] at hord
    refine ⟨?_, ?_, ?_, ?_⟩
    · simp only [forall_mem_cons]
      refine ⟨⟨hal.1, ?_⟩, fun r hr => h.aligned r (by simp [hr])⟩
      simp only [pageAligned_iff, hull, stop_eq] at *
      omega
    · simp only [forall_mem_cons]
      refine ⟨?_, fun r hr => h.nonempty r (by simp [hr])⟩
      simp only [hull, stop_eq] at *
      omega
    · simp only [forall_mem_cons]
      refine ⟨⟨hlast.1, le_of_eq (hull_stop hle)⟩, fun r hr => ?_⟩
      have := h.within r (by simp [hr])
      omega
    · rw [pairwise_cons]
      exact ⟨hord.1, hord.2⟩

/-- What an append does: the range is a new one, or it is merged with the last one because it
is near or for the reason `full`. -/
inductive Extended (full : Prop) : VirtualRangeBatch → VirtualRange → VirtualRangeBatch → Prop where
  | new (batch : VirtualRangeBatch) (range : VirtualRange) :
      Extended full batch range (range :: batch)
  | merged {last range : VirtualRange} (rest : VirtualRangeBatch) (hle : last.stop ≤ range.address)
      (h : full ∨ range.address - last.stop ≤ virtualRangeBatchingMergeDistance) :
      Extended full (last :: rest) range (last.hull range :: rest)

theorem Extended.appended {full : Prop} {batch' : VirtualRangeBatch}
    (h : Extended full batch range batch') : Appended batch range batch' := by
  cases h with
  | new => exact appended_cons
  | merged rest hle _ => exact appended_hull hle

section

variable (ha : PageAligned range.address) (hs : PageAligned range.size) (hfits : range.Fits)
  (hle : ∀ last ∈ batch.head?, last.stop ≤ range.address)

include ha hs hfits hle

theorem appendMergeIfFull_spec : ∃ batch', batch.appendMergeIfFull range = .ok batch' ∧
    Extended (batch.length = virtualRangesToBatch) batch range batch' := by
  have halign : range.pageAligned = true := pageAligned_eq_true.mpr ⟨ha, hs⟩
  cases batch with
  | nil =>
    refine ⟨[range], ?_, .new [] range⟩
    simp only [appendMergeIfFull, assert_of halign, ok_bind, pure_eq_ok]
  | cons last rest =>
    have hlast := hle last rfl
    have hl : last.Fits := by
      simp only [Fits, stop_eq] at *
      omega
    simp only [appendMergeIfFull, assert_of halign, after_of_fits hl, assert_of hlast,
      difference_of_le hlast, ok_bind, extendOver_eq hlast hfits, pure_eq_ok]
    split
    · next h => exact ⟨_, rfl, .merged rest hlast h⟩
    · exact ⟨_, rfl, .new ..⟩

theorem append_spec : batch.append range = .ok none ∨
    ∃ batch', batch.append range = .ok (some batch') ∧ Extended False batch range batch' := by
  have halign : range.pageAligned = true := pageAligned_eq_true.mpr ⟨ha, hs⟩
  cases batch with
  | nil =>
    refine .inr ⟨[range], ?_, .new [] range⟩
    simp only [append, assert_of halign, ok_bind, pure_eq_ok]
  | cons last rest =>
    have hlast := hle last rfl
    have hl : last.Fits := by
      simp only [Fits, stop_eq] at *
      omega
    simp only [append, assert_of halign, after_of_fits hl, assert_of hlast, difference_of_le hlast,
      ok_bind, extendOver_eq hlast hfits, pure_eq_ok]
    split
    · next h => exact .inr ⟨_, rfl, .merged rest hlast (.inr h)⟩
    · split
      · exact .inl rfl
      · exact .inr ⟨_, rfl, .new ..⟩

end

/-! ### Runs of appends -/

/-- The ranges are appended one after the other, as long as that succeeds. -/
def appendEach (append : VirtualRangeBatch → VirtualRange → Checked (Option VirtualRangeBatch)) :
    VirtualRangeBatch → List VirtualRange → Checked (Option VirtualRangeBatch)
  | batch, [] => return some batch
  | batch, range :: ranges => do
    match ← append batch range with
    | some batch => appendEach append batch ranges
    | none => return none

/-- `appendMergeIfFull` always succeeds. -/
def mergeEach : List VirtualRange → Checked (Option VirtualRangeBatch) :=
  appendEach (fun batch range => some <$> batch.appendMergeIfFull range) []

/-- The batch of these ranges is full. -/
def Fills (ranges : List VirtualRange) : Prop :=
  ∃ batch, mergeEach ranges = .ok (some batch) ∧ batch.length = virtualRangesToBatch

/-- Aligned ranges, each behind the end of the one before it. -/
structure Appendable (ranges : List VirtualRange) : Prop where
  aligned : ∀ r ∈ ranges, PageAligned r.address ∧ PageAligned r.size
  fits : ∀ r ∈ ranges, r.Fits
  ordered : ranges.Pairwise fun earlier later => earlier.stop ≤ later.address

/-- The address is in a range, or in a gap between consecutive ranges that are near, or where the
ranges up to the gap satisfy `full`. -/
def Within (full : List VirtualRange → Prop) (ranges : List VirtualRange) (a : ℕ) : Prop :=
  (∃ r ∈ ranges, r.Contains a) ∨ ∃ l p q r, ranges = l ++ p :: q :: r ∧ p.stop ≤ a ∧
    a < q.address ∧ (full (l ++ [p]) ∨ q.address - p.stop ≤ virtualRangeBatchingMergeDistance)

/-- The batch covers the ranges, and beside them only such gaps. -/
structure Batches (full : List VirtualRange → Prop) (ranges : List VirtualRange)
    (batch : VirtualRangeBatch) : Prop where
  covers : ∀ r ∈ ranges, ∀ a, r.Contains a → batch.Covers a
  ordered : batch.Pairwise fun later earlier => earlier.stop ≤ later.address
  within : ∀ a, batch.Covers a → Within full ranges a

section

variable {full : List VirtualRange → Prop} {ranges : List VirtualRange} {batch' : VirtualRangeBatch}

/-- A step of a run; the last range of the batch ends where the last range that was appended does. -/
theorem Batches.extended (h : Batches full ranges batch)
    (hlast : batch.head?.map stop = ranges.getLast?.map stop)
    (hle : ∀ r ∈ ranges, r.stop ≤ range.address) (hext : Extended (full ranges) batch range batch') :
    Batches full (ranges ++ [range]) batch' ∧ batch'.head?.map stop = some range.stop := by
  have hold (a : ℕ) (ha : batch.Covers a) : Within full (ranges ++ [range]) a := by
    rcases h.within a ha with ⟨r, hr, hin⟩ | ⟨l, p, q, r, heq, hgap⟩
    · exact .inl ⟨r, mem_append_left _ hr, hin⟩
    · exact .inr ⟨l, p, q, r ++ [range], by simp [heq], hgap⟩
  have hcovers : ∀ r ∈ ranges ++ [range], ∀ a, r.Contains a → batch'.Covers a := by
    intro r hr a ha
    refine hext.appended.covers a ?_
    rcases mem_append.mp hr with hr | hr
    · exact .inl (h.covers r hr a ha)
    · exact .inr (mem_singleton.mp hr ▸ ha)
  cases hext with
  | new =>
    refine ⟨⟨hcovers, pairwise_cons.mpr ⟨fun r hr => ?_, h.ordered⟩, fun a ha => ?_⟩, rfl⟩
    · cases batch with
      | nil => cases hr
      | cons first rest =>
        obtain ⟨p, hp, hstop⟩ := Option.map_eq_some_iff.mp hlast.symm
        have hfirst := hle p (mem_of_mem_getLast? hp)
        rcases mem_cons.mp hr with rfl | hr
        · omega
        · have hrest := (pairwise_cons.mp h.ordered).1 r hr
          have := first.stop_eq
          omega
    · obtain ⟨r, hr, hin⟩ := ha
      rcases mem_cons.mp hr with rfl | hr
      · exact .inl ⟨r, by simp, hin⟩
      · exact hold a ⟨r, hr, hin⟩
  | merged rest hstop hgap =>
    rename_i last
    obtain ⟨hfirst, hrest⟩ := pairwise_cons.mp h.ordered
    refine ⟨⟨hcovers, pairwise_cons.mpr ⟨hfirst, hrest⟩, fun a ha => ?_⟩, by simp [hull_stop hstop]⟩
    obtain ⟨r, hr, hin⟩ := ha
    rcases mem_cons.mp hr with rfl | hr
    · rw [contains_hull hstop] at hin
      obtain ⟨p, hp, hpstop⟩ := Option.map_eq_some_iff.mp hlast.symm
      obtain ⟨l, rfl⟩ := getLast?_eq_some_iff.mp hp
      -- the address is in the old range, in the hole or in the new range
      by_cases hbefore : a < last.stop
      · exact hold a ⟨last, by simp, hin.1, hbefore⟩
      · by_cases hgapped : a < range.address
        · refine .inr ⟨l, p, range, [], by simp, by omega, hgapped, ?_⟩
          rwa [hpstop]
        · exact .inl ⟨range, by simp, by omega, hin.2⟩
    · exact hold a ⟨r, by simp [hr], hin⟩

variable {append : VirtualRangeBatch → VirtualRange → Checked (Option VirtualRangeBatch)}

theorem appendEach_concat (batch : VirtualRangeBatch) (ranges : List VirtualRange)
    (range : VirtualRange) : appendEach append batch (ranges ++ [range]) =
      appendEach append batch ranges >>= fun r => r.elim (pure none) (append · range) := by
  induction ranges generalizing batch with
  | nil =>
    cases h : append batch range with
    | error trap => simp [appendEach, h]
    | ok r => cases r <;> simp [appendEach, h]
  | cons first ranges ih =>
    cases h : append batch first with
    | error trap => simp [appendEach, h]
    | ok r => cases r <;> simp [appendEach, h, ih]

theorem appendEach_batches (h : Appendable ranges)
    (hstep : ∀ done range batch, appendEach append [] done = .ok (some batch) →
      PageAligned range.address → PageAligned range.size → range.Fits →
      (∀ last ∈ batch.head?, last.stop ≤ range.address) → append batch range = .ok none ∨
        ∃ batch', append batch range = .ok (some batch') ∧ Extended (full done) batch range batch') :
    ∃ r, appendEach append [] ranges = .ok r ∧ ∀ batch, r = some batch →
      Batches full ranges batch ∧ batch.head?.map stop = ranges.getLast?.map stop := by
  induction ranges using reverseRecOn with
  | nil =>
    refine ⟨some [], rfl, ?_⟩
    rintro _ ⟨⟩
    exact ⟨⟨by simp, .nil, by simp [Covers]⟩, rfl⟩
  | append_singleton done range ih =>
    have hordered := pairwise_append.mp h.ordered
    obtain ⟨r, hrun, hbatches⟩ := ih ⟨fun x hx => h.aligned x (by simp [hx]),
      fun x hx => h.fits x (by simp [hx]), hordered.1⟩
    rw [appendEach_concat, hrun, ok_bind]
    cases r with
    | none => exact ⟨none, rfl, by simp⟩
    | some batch =>
      obtain ⟨hbatch, hlast⟩ := hbatches batch rfl
      have hle (x : VirtualRange) (hx : x ∈ done) : x.stop ≤ range.address :=
        hordered.2.2 x hx range (by simp)
      have hhead : ∀ last ∈ batch.head?, last.stop ≤ range.address := by
        intro last hmem
        rw [Option.mem_def.mp hmem] at hlast
        obtain ⟨p, hp, hstop⟩ := Option.map_eq_some_iff.mp hlast.symm
        exact hstop ▸ hle p (mem_of_mem_getLast? hp)
      obtain ⟨ha, hs⟩ := h.aligned range (by simp)
      rcases hstep done range batch hrun ha hs (h.fits range (by simp)) hhead with
        hnone | ⟨batch', happend, hext⟩
      · exact ⟨none, hnone, by simp⟩
      · refine ⟨some batch', happend, ?_⟩
        rintro _ ⟨⟩
        simpa using hbatch.extended hlast hle hext

theorem mergeEach_ne_none (batch : VirtualRangeBatch) (ranges : List VirtualRange) :
    appendEach (fun batch range => some <$> batch.appendMergeIfFull range) batch ranges ≠
      .ok none := by
  induction ranges generalizing batch with
  | nil => simp [appendEach]
  | cons range ranges ih =>
    cases h : batch.appendMergeIfFull range with
    | error trap => simp [appendEach, h]
    | ok batch' => simpa [appendEach, h] using ih batch'

/-- Both ways of appending a sequence of ranges: the one that merges into a full batch always
succeeds, and covers more than near gaps only behind a point where the batch was full. -/
theorem batches_of_appends (ranges : List VirtualRange) (h : Appendable ranges) :
    (∃ batch, mergeEach ranges = .ok (some batch) ∧ Batches Fills ranges batch) ∧
    ∃ r, appendEach VirtualRangeBatch.append [] ranges = .ok r ∧ ∀ batch, r = some batch →
      Batches (fun _ => False) ranges batch := by
  constructor
  · have hmerges : ∃ r, mergeEach ranges = .ok r ∧ ∀ batch, r = some batch →
        Batches Fills ranges batch ∧ batch.head?.map stop = ranges.getLast?.map stop := by
      refine appendEach_batches h fun done range batch hdone ha hs hfits hle => .inr ?_
      obtain ⟨batch', happend, hext⟩ := appendMergeIfFull_spec ha hs hfits hle
      refine ⟨batch', by simp [happend], ?_⟩
      cases hext with
      | new => exact .new ..
      | merged rest hstop hgap => exact .merged rest hstop (hgap.imp_left fun h => ⟨_, hdone, h⟩)
    obtain ⟨r, hrun, hbatches⟩ := hmerges
    cases r with
    | none => exact absurd hrun (mergeEach_ne_none [] ranges)
    | some batch => exact ⟨batch, hrun, (hbatches batch rfl).1⟩
  · obtain ⟨r, hrun, hbatches⟩ := appendEach_batches h fun _ _ _ _ => append_spec
    exact ⟨r, hrun, fun batch hr => (hbatches batch hr).1⟩

theorem batches_of_appends_two : Appendable [⟨0, 4096⟩, ⟨0x10000, 4096⟩] ∧
    Batches (fun _ => False) [⟨0, 4096⟩, ⟨0x10000, 4096⟩] [⟨0x10000, 4096⟩, ⟨0, 4096⟩] := by
  have h : Appendable [⟨0, 4096⟩, ⟨0x10000, 4096⟩] := by
    refine ⟨?_, ?_, ?_⟩ <;> decide
  obtain ⟨r, hrun, hbatches⟩ := (batches_of_appends _ h).2
  cases hrun
  exact ⟨h, hbatches _ rfl⟩

end

end VirtualRangeBatch

end

structure VirtualRangeWithMapType where
  virtualRange : VirtualRange
  previousMapType : MapType
  deriving DecidableEq, Repr

abbrev ChangeProtectionBatch := List VirtualRangeWithMapType

/-- Ranges are merged only when they were mapped alike. -/
def ChangeProtectionBatch.append (batch : ChangeProtectionBatch) (range : VirtualRangeWithMapType) :
    Checked (Option ChangeProtectionBatch) := do
  assert (range.virtualRange.pageAligned = true)
  match batch with
  | [] => return some [range]
  | last :: rest =>
    assert ((← last.virtualRange.after) ≤ range.virtualRange.address)
    let separation ← difference (← last.virtualRange.after)
      range.virtualRange.address
    if separation ≤ virtualRangeBatchingMergeDistance ∧
        last.previousMapType = range.previousMapType then
      return some ({ last with
        virtualRange := ← extendOver last.virtualRange range.virtualRange } :: rest)
    else if batch.length = virtualRangesToBatch then return none
    else return some (range :: batch)

end Innigkeit.Memory

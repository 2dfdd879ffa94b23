import Innigkeit.X64.PageTable.WalkSpec

/-!
The four levels put together: what a walk over a range does to the tables, to the
list of freed pages and to the batch of flushed ranges, in terms of the effects.
-/

namespace Innigkeit.X64.PageTable

open Zig Memory PageSpan

section

variable (span : PageSpan) (visitor : Visitor)

def level1Effect : Effect Level1Table :=
  tableEffect span 1 (span.Trim 1) (pageEffect span visitor)

def level2Effect : Effect Level2Table :=
  tableEffect span 512 (span.Trim 512)
    (entryEffect span 512 visitor.lowerTables (isEmpty id) (level1Effect span visitor))

def level3Effect : Effect Level3Table :=
  tableEffect span (512 ^ 2) (span.Trim (512 ^ 2))
    (entryEffect span (512 ^ 2) visitor.lowerTables (isEmpty TableEntry.raw)
      (level2Effect span visitor))

/-- The indices of the top level are never mistaken. -/
def level4Effect : Effect Level4Table :=
  tableEffect span (512 ^ 3) (fun _ => True)
    (entryEffect span (512 ^ 3) visitor.topLevel (isEmpty TableEntry.raw)
      (level3Effect span visitor))

variable {span visitor} {lastAddress : ℕ} (hlast : lastAddress = span.address span.last + 4095)

include hlast

/-- The indices of the last address stop the loop over a table at the last slot of the span. -/
theorem lastIndex_slotLast {size j : ℕ} (hsize : 0 < size) (hdvd : 512 * size ∣ 512 ^ 4)
    (hdvd' : 512 * (512 * size) ∣ 512 ^ 4) (hj : j ≤ span.last / (512 * size))
    (htrim : span.Trim size j) :
    lastIndex (lastAddress / (4096 * (512 * size)) % 512) (j % 512)
      (lastAddress / (4096 * size) % 512) = span.slotLast size j := by
  rw [← lastIndex_eq hj htrim, hlast, lastAddress_index hsize hdvd,
    lastAddress_index (Nat.mul_pos (by decide) hsize) hdvd']

theorem visitLevel1_serves :
    Serves span visitor 512 (visitLevel1 visitor lastAddress) (level1Effect span visitor) := by
  have hdvd : 512 * 1 ∣ 512 ^ 4 := ⟨512 ^ 3, by decide⟩
  exact visitTable_serves (by decide) hdvd visitPage_serves fun j hj htrim =>
    lastIndex_slotLast hlast (by decide) hdvd ⟨512 ^ 2, by decide⟩ hj htrim

theorem visitLevel2_serves :
    Serves span visitor (512 ^ 2) (visitLevel2 visitor lastAddress) (level2Effect span visitor) := by
  have hdvd : 512 * 512 ∣ 512 ^ 4 := ⟨512 ^ 2, by decide⟩
  exact visitTable_serves (by decide) hdvd
    (visitEntry_serves (by decide) hdvd (visitLevel1_serves hlast)) fun j hj htrim =>
      lastIndex_slotLast hlast (by decide) hdvd ⟨512, by decide⟩ hj htrim

theorem visitLevel3_serves :
    Serves span visitor (512 ^ 3) (visitLevel3 visitor lastAddress) (level3Effect span visitor) := by
  have hdvd : 512 * 512 ^ 2 ∣ 512 ^ 4 := ⟨512, by decide⟩
  exact visitTable_serves (by decide) hdvd
    (visitEntry_serves (by decide) hdvd (visitLevel2_serves hlast)) fun j hj htrim =>
      lastIndex_slotLast hlast (by decide) hdvd ⟨1, by decide⟩ hj htrim

theorem visitLevel4_serves :
    Serves span visitor (512 ^ 4) (fun _ => visitLevel4 visitor lastAddress)
      (level4Effect span visitor) := by
  have hdvd : 512 * 512 ^ 3 ∣ 512 ^ 4 := ⟨1, by decide⟩
  have htrim : ∀ j ≤ span.last / (512 * 512 ^ 3), True →
      p4Index lastAddress = span.slotLast (512 ^ 3) j := by
    intro j hj _
    have hlt := span.last_lt
    have hindex : p4Index lastAddress = span.last / 512 ^ 3 % 512 := by
      rw [hlast, ← lastAddress_index (by decide) hdvd]
      rfl
    rw [hindex, slotLast]
    omega
  exact visitTable_serves (by decide) hdvd
    (visitEntry_serves (by decide) hdvd (visitLevel3_serves hlast)) htrim

end

structure PageSpan.Of (span : PageSpan) (range : VirtualRange) : Prop where
  address : range.address = span.address span.first
  size : range.size = 4096 * (span.last + 1 - span.first)

open PageSpan

section

variable {span : PageSpan} {visitor : Visitor} {range : VirtualRange} {table : Level4Table}
  {flushBatch : VirtualRangeBatch} {deallocatePageList : List PhysicalPage}

theorem PageSpan.Of.last_eq (hspan : span.Of range) :
    range.last = .ok (span.address span.last + 4095) := by
  have hle := span.first_le
  have hlt : span.address span.last < 2 ^ 64 := address_lt le_rfl
  have hmod := address_mod span span.last
  have haddr := hspan.address
  have hsize := hspan.size
  simp only [PageSpan.address] at *
  have hpos : range.size ≠ 0 := by omega
  have hsum : range.address + (range.size - 1) = span.base + 4096 * span.last + 4095 := by omega
  simp only [VirtualRange.last, hpos, if_false, sub_of_le (Nat.one_le_iff_ne_zero.mpr hpos),
    ok_bind, VirtualAddress.moveForward]
  rw [add_of_lt (by omega), hsum]

theorem visitRange_spec (hspan : span.Of range) (hok : (level4Effect span visitor).Ok 0 table)
    (hbatch : ∀ last ∈ flushBatch.head?, last.stop ≤ range.address) :
    ((level4Effect span visitor).Ends table →
      ∃ walk, visitRange visitor table range flushBatch deallocatePageList =
          .ok ((level4Effect span visitor).result 0 table, walk) ∧
        walk.deallocatePageList =
          (level4Effect span visitor).freed 0 table ++ deallocatePageList ∧
        (visitor.needToFlush = true → ∀ page, (level4Effect span visitor).Touches 0 table page →
          ∀ address, VirtualRange.Contains ⟨span.address page, 4096⟩ address →
            walk.flushBatch.Covers address)) ∧
    (¬ (level4Effect span visitor).Ends table →
      ∃ trap, visitRange visitor table range flushBatch deallocatePageList = .error trap) := by
  have hlt := span.last_lt
  have hle := span.first_le
  have haddr : range.address = span.address (max span.first (0 * 512 ^ 4)) := by
    rw [Nat.zero_mul, Nat.max_eq_left (Nat.zero_le _)]
    exact hspan.address
  have halign : range.pageAligned = true := by
    rw [VirtualRange.pageAligned_eq_true, hspan.address, hspan.size]
    exact ⟨address_mod span _, by rw [pageAligned_iff]; omega⟩
  have hzero : 0 = span.last / 512 ^ 4 := by omega
  obtain ⟨walk, hwalk⟩ : ∃ walk : Walk,
    walk = { currentVirtualAddress := range.address, flushBatch, deallocatePageList } := ⟨_, rfl⟩
  have htidy : walk.Tidy := by
    rw [hwalk]
    refine ⟨?_, ?_, by simp, ?_⟩
    · rw [hspan.address]
      exact address_lt hle
    · rw [hspan.address]
      exact address_mod span _
    · simpa [Walk.pending] using hbatch
  obtain ⟨hrun, htrap⟩ := @visitLevel4_serves span visitor _ rfl 0 table walk
    (by omega) (Nat.zero_le _) hok htidy (by rw [hwalk]; exact haddr)
  simp only [visitRange, assert_of halign, hspan.last_eq, ok_bind, ← hwalk]
  constructor
  · intro hends
    obtain ⟨walk', hvisit, htidy', -, hvisited⟩ := hrun (fun _ => hends)
    obtain ⟨walk'', hflush, -, -, -, hpages, hcovers⟩ := Walk.flush_spec htidy'
    refine ⟨walk'', ?_, ?_, ?_⟩
    · simp only [hvisit, hflush, ok_bind, pure_eq_ok]
    · rw [hpages, hvisited.pages, hwalk]
    · intro hneed page htouch address hin
      exact hcovers address (hvisited.covers hneed page htouch address hin)
  · intro hno
    obtain ⟨trap, htrap⟩ := htrap hzero hno
    have hvisit : visitLevel4 visitor (span.address span.last + 4095) table walk = .error trap :=
      htrap
    exact ⟨trap, by rw [hvisit, error_bind]⟩

end

end Innigkeit.X64.PageTable

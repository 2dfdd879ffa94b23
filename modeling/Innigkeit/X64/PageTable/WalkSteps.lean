import Innigkeit.X64.PageTable.Walk

/-!
What the steps of a walk do to the state that its loops share. Between two pages
the walk is tidy: the range in progress ends at the current address, and the
batch ends at or before the range in progress.
-/

namespace Innigkeit.X64.PageTable

open Zig Memory Option VirtualRange VirtualAddress

namespace Walk

/-- An address that is flushed once the range in progress has been appended. -/
def Covers (walk : Walk) (address : ℕ) : Prop :=
  walk.flushBatch.Covers address ∨ ∃ r ∈ walk.inProgressRange, r.Contains address

/-- Where the next range that is appended to the batch begins. -/
def pending (walk : Walk) : ℕ :=
  (walk.inProgressRange.map address).getD walk.currentVirtualAddress

structure Tidy (walk : Walk) : Prop where
  word : walk.currentVirtualAddress < 2 ^ 64
  aligned : PageAligned walk.currentVirtualAddress
  inProgress : ∀ r ∈ walk.inProgressRange, PageAligned r.address ∧ PageAligned r.size ∧
    r.stop = walk.currentVirtualAddress
  batch : ∀ last ∈ walk.flushBatch.head?, last.stop ≤ walk.pending

variable {walk : Walk}

theorem flush_spec (h : walk.Tidy) : ∃ walk', walk.flush = .ok walk' ∧ walk'.Tidy ∧
    walk'.inProgressRange = none ∧
    walk'.currentVirtualAddress = walk.currentVirtualAddress ∧
    walk'.deallocatePageList = walk.deallocatePageList ∧
    ∀ address, walk.Covers address → walk'.flushBatch.Covers address := by
  cases hr : walk.inProgressRange with
  | none =>
    refine ⟨walk, by simp [flush, hr], h, hr, rfl, rfl, ?_⟩
    intro address hc
    simpa [Covers, hr] using hc
  | some r =>
    obtain ⟨ha, hs, hstop⟩ := h.inProgress r hr
    have hfits : r.Fits := by
      rw [Fits, hstop]
      exact h.word
    have hle : ∀ last ∈ walk.flushBatch.head?, last.stop ≤ r.address := by
      intro last hlast
      simpa [pending, hr] using h.batch last hlast
    obtain ⟨batch, happ, hext⟩ := VirtualRangeBatch.appendMergeIfFull_spec ha hs hfits hle
    have happended := hext.appended
    refine ⟨{ walk with flushBatch := batch, inProgressRange := none }, ?_, ?_, rfl, rfl, rfl, ?_⟩
    · simp only [flush, hr, happ, ok_bind, pure_eq_ok]
    · refine ⟨h.word, h.aligned, by simp, ?_⟩
      intro last hlast
      obtain ⟨r', hr', hstop'⟩ := happended.last
      obtain rfl : r' = last := Option.some.inj (hr'.symm.trans hlast)
      simp only [pending, map_none, getD_none, hstop', hstop, Nat.le_refl]
    · intro address hc
      apply happended.covers
      simpa [Covers, hr] using hc

theorem skip_eq {size : ℕ} (h : walk.currentVirtualAddress + size < 2 ^ 64) :
    walk.skip size = .ok { walk with
      currentVirtualAddress := (walk.currentVirtualAddress + size) / size * size } := by
  simp only [skip, moveForward, add_of_lt h, ok_bind, pure_eq_ok, alignBackward]

theorem moveForwardPage_eq (h : walk.currentVirtualAddress + 4096 < 2 ^ 64) :
    walk.moveForwardPage = .ok { walk with
      currentVirtualAddress := walk.currentVirtualAddress + 4096 } := by
  simp only [moveForwardPage, moveForward, smallPageSize, Nat.reducePow, add_of_lt h,
    ok_bind, pure_eq_ok]

theorem moveForwardPage_trap (h : ¬ walk.currentVirtualAddress + 4096 < 2 ^ 64) :
    walk.moveForwardPage = .error .overflow := by
  have h' : ¬ walk.currentVirtualAddress + smallPageSize < 2 ^ 64 := h
  rw [moveForwardPage, moveForward, add, if_neg h', error_bind]

theorem pass_spec (h : walk.Tidy) (hfits : walk.currentVirtualAddress + 4096 < 2 ^ 64) :
    ∃ walk', (walk.flush >>= moveForwardPage) = .ok walk' ∧ walk'.Tidy ∧
      walk'.currentVirtualAddress = walk.currentVirtualAddress + 4096 ∧
      walk'.deallocatePageList = walk.deallocatePageList ∧
      ∀ address, walk.Covers address → walk'.Covers address := by
  obtain ⟨w, hw, htidy, hnone, haddr, hpages, hcovers⟩ := flush_spec h
  rw [← haddr] at hfits
  refine ⟨{ w with currentVirtualAddress := w.currentVirtualAddress + 4096 },
    by rw [hw, ok_bind, moveForwardPage_eq hfits], ?_, ?_, hpages, ?_⟩
  · refine ⟨hfits, ?_, ?_, ?_⟩
    · have := htidy.aligned
      simp only [pageAligned_iff] at *
      omega
    · intro r hr
      rw [hnone] at hr
      cases hr
    · intro last hlast
      have := htidy.batch last hlast
      simp only [pending, hnone, map_none, getD_none] at *
      omega
  · rw [haddr]
  · intro address hc
    exact .inl (hcovers address hc)

theorem extend_spec (h : walk.Tidy) (needToFlush : Bool)
    (hfits : walk.currentVirtualAddress + 4096 < 2 ^ 64) :
    ∃ walk', (walk.extend needToFlush >>= moveForwardPage) = .ok walk' ∧ walk'.Tidy ∧
      walk'.currentVirtualAddress = walk.currentVirtualAddress + 4096 ∧
      walk'.deallocatePageList = walk.deallocatePageList ∧
      (∀ address, walk.Covers address → walk'.Covers address) ∧
      (needToFlush = true → ∀ address,
        Contains ⟨walk.currentVirtualAddress, 4096⟩ address →
          walk'.Covers address) := by
  have haligned : PageAligned (walk.currentVirtualAddress + 4096) := by
    have := h.aligned
    simp only [pageAligned_iff] at *
    omega
  cases hr : walk.inProgressRange with
  | none =>
    cases needToFlush with
    | false =>
      refine ⟨{ walk with currentVirtualAddress := walk.currentVirtualAddress + 4096 },
        ?_, ⟨hfits, haligned, ?_, ?_⟩, rfl, rfl, ?_, by simp⟩
      · simp only [extend, hr, Bool.false_eq_true, if_false, pure_eq_ok,
          ok_bind, moveForwardPage_eq hfits]
      · simp [hr]
      · intro last hlast
        have := h.batch last hlast
        simp only [pending, hr, map_none, getD_none] at *
        omega
      · intro address hc
        exact hc
    | true =>
      refine ⟨{ walk with
        inProgressRange := some ⟨walk.currentVirtualAddress, smallPageSize⟩
        currentVirtualAddress := walk.currentVirtualAddress + 4096 },
        ?_, ⟨hfits, haligned, ?_, ?_⟩, rfl, rfl, ?_, ?_⟩
      · simp only [extend, hr, if_true, pure_eq_ok, ok_bind]
        exact moveForwardPage_eq hfits
      · intro r hr'
        cases hr'
        exact ⟨h.aligned, (by decide : PageAligned smallPageSize), rfl⟩
      · intro last hlast
        have := h.batch last hlast
        simpa [pending, hr] using this
      · intro address hc
        rw [Covers, hr] at hc
        exact .inl (by simpa using hc)
      · intro _ address hc
        exact .inr ⟨_, rfl, hc⟩
  | some r =>
    obtain ⟨ha, hs, hstop⟩ := h.inProgress r hr
    have hsize : r.size + smallPageSize < 2 ^ 64 := by
      simp only [stop_eq, smallPageSize] at *
      omega
    refine ⟨{ walk with
      inProgressRange := some ⟨r.address, r.size + smallPageSize⟩
      currentVirtualAddress := walk.currentVirtualAddress + 4096 },
      ?_, ⟨hfits, haligned, ?_, ?_⟩, rfl, rfl, ?_, ?_⟩
    · simp only [extend, hr, add_of_lt hsize, pure_eq_ok, ok_bind]
      exact moveForwardPage_eq hfits
    · intro r' hr'
      cases hr'
      simp only [pageAligned_iff, stop_eq, smallPageSize] at *
      omega
    · intro last hlast
      have := h.batch last hlast
      simpa [pending, hr] using this
    · intro address hc
      rw [Covers, hr] at hc
      cases hc with
      | inl hc => exact .inl hc
      | inr hc =>
        obtain ⟨r', hr', hin⟩ := hc
        cases hr'
        refine .inr ⟨_, rfl, ?_⟩
        simp only [contains_iff, stop_eq] at *
        omega
    · intro _ address hc
      refine .inr ⟨_, rfl, ?_⟩
      simp only [contains_iff, stop_eq, smallPageSize] at *
      omega

theorem pass_trap (h : walk.Tidy) (hfits : ¬ walk.currentVirtualAddress + 4096 < 2 ^ 64) :
    (walk.flush >>= moveForwardPage) = .error .overflow := by
  obtain ⟨w, hw, -, -, haddr, -, -⟩ := flush_spec h
  rw [hw, ok_bind, moveForwardPage_trap (by rw [haddr]; exact hfits)]

theorem extend_trap (needToFlush : Bool) (hfits : ¬ walk.currentVirtualAddress + 4096 < 2 ^ 64) :
    ∃ trap, (walk.extend needToFlush >>= moveForwardPage) = .error trap := by
  cases hw : walk.extend needToFlush with
  | error trap => exact ⟨trap, rfl⟩
  | ok w =>
    have haddr : w.currentVirtualAddress = walk.currentVirtualAddress := by
      unfold extend at hw
      split at hw
      · rw [bind_eq_ok] at hw
        obtain ⟨size, -, hw⟩ := hw
        cases hw
        rfl
      · split at hw <;> cases hw <;> rfl
    exact ⟨.overflow, by rw [ok_bind, moveForwardPage_trap (by rw [haddr]; exact hfits)]⟩

end Walk

end Innigkeit.X64.PageTable

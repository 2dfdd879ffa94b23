import Innigkeit.Zig.Checked
import Mathlib.Data.List.Perm.Basic

/-!
The pages of a legacy virtqueue ring. `allocContiguousPages` takes pages from the
physical allocator until the last ones are neighbours, in either direction, and
gives the others back. A run is complete only when a page extends it, which a run
of one page never is.
-/

namespace Innigkeit.Drivers.Virtio

open Zig List

def maxRingPages : ℕ := 3

/-- `PhysicalPage.Index.none`. -/
def noPage : ℕ := 2 ^ 32 - 1

/-- `consecutive`, with the wrapping additions of a `u32`. -/
def Consecutive (prev pfn : ℕ) : Prop :=
  pfn = (prev + 1) % 2 ^ 32 ∨ (pfn + 1) % 2 ^ 32 = prev
  deriving Decidable

/-- The inner loop of the sort: the smallest page comes to the front, by exchanges. -/
def sweep (first : ℕ) : List ℕ → ℕ × List ℕ
  | [] => (first, [])
  | page :: pages =>
    if page < first then ((sweep page pages).1, first :: (sweep page pages).2)
    else ((sweep first pages).1, page :: (sweep first pages).2)

def sortPages : ℕ → List ℕ → List ℕ
  | 0, pages => pages
  | _ + 1, [] => []
  | rounds + 1, first :: pages =>
    (sweep first pages).1 :: sortPages rounds (sweep first pages).2

/-- What a call returns: the pages if it returned true, the pages it gave back, and what the
allocator has left. -/
structure Outcome where
  pages : Option (List ℕ)
  freed : List ℕ
  left : List ℕ
  deriving DecidableEq, Repr

/-- The loop over the attempts. The allocator is given by the pages that it will return before it
is exhausted; the run has its last page in front. -/
def allocLoop (len : ℕ) : ℕ → List ℕ → List ℕ → List ℕ → Checked Outcome
  | 0, supply, run, spares => .ok ⟨none, run ++ spares, supply⟩
  | _ + 1, [], run, spares => .ok ⟨none, run ++ spares, []⟩
  | attempts + 1, page :: supply, run, spares =>
    if run.head?.any (fun prev => Consecutive prev page) then
      if run.length < maxRingPages then
        if run.length + 1 = len then
          .ok ⟨some (sortPages len (page :: run).reverse), spares, supply⟩
        else allocLoop len attempts supply (page :: run) spares
      else .error .bounds
    else allocLoop len attempts supply [page] (run ++ spares)

def allocContiguousPages (len : ℕ) (supply : List ℕ) : Checked Outcome := do
  assert (0 < len ∧ len ≤ maxRingPages)
  allocLoop len 256 supply [] []

/-- The call does not index out of bounds, the pages it returns are consecutive, and every other
page it took is given back once. -/
def Allocates (len : ℕ) (supply : List ℕ) : Prop :=
  ∃ outcome, allocContiguousPages len supply = .ok outcome ∧
    (∀ pages, outcome.pages = some pages → ∃ first, pages = range' first len) ∧
    (outcome.pages.getD [] ++ outcome.freed ++ outcome.left).Perm supply

def StartsRun (pages : List ℕ) : Prop := 4 ≤ pages.length ∧ (pages.take 4).IsChain Consecutive

/-- Four pages come one after the other that are each a neighbour of the one before. -/
def FourInARow : List ℕ → Prop
  | [] => False
  | page :: pages => StartsRun (page :: pages) ∨ FourInARow pages

variable {len attempts page : ℕ} {supply run spares : List ℕ}

theorem consecutive_iff {prev pfn : ℕ} (hprev : prev < noPage) (hpfn : pfn < noPage) :
    Consecutive prev pfn ↔ pfn = prev + 1 ∨ pfn + 1 = prev := by
  unfold noPage at hprev hpfn
  unfold Consecutive
  rw [Nat.mod_eq_of_lt (by omega), Nat.mod_eq_of_lt (by omega)]

theorem sortPages_run (hlen : len ≤ 3) (hcount : run.length + 1 = len) (hne : run ≠ [])
    (hrun : (page :: run).IsChain fun b a => Consecutive a b) (hnodup : (page :: run).Nodup)
    (hpages : ∀ p ∈ page :: run, p < noPage) :
    ∃ first, sortPages len (page :: run).reverse = range' first len ∧
      (range' first len).Perm (page :: run) := by
  subst hcount
  rcases run with _ | ⟨y, _ | ⟨x, _ | ⟨w, run⟩⟩⟩
  · exact absurd rfl hne
  · have hy := (isChain_cons_cons.mp hrun).1
    rw [consecutive_iff (hpages y (by simp)) (hpages page (by simp))] at hy
    rcases hy with rfl | rfl
    · exact ⟨y, by simp [sortPages, sweep, range'_succ], .swap ..⟩
    · exact ⟨page, by simp [sortPages, sweep, range'_succ], .refl _⟩
  · obtain ⟨hy, hx⟩ := isChain_cons_cons.mp hrun
    have hx := (isChain_cons_cons.mp hx).1
    rw [consecutive_iff (hpages y (by simp)) (hpages page (by simp))] at hy
    rw [consecutive_iff (hpages x (by simp)) (hpages y (by simp))] at hx
    have hother : page ≠ x := by
      rintro rfl
      simp at hnodup
    -- the run goes on in the direction it has begun
    rcases hx with rfl | rfl
    · obtain rfl : page = x + 2 := by omega
      exact ⟨x, by simp [sortPages, sweep, range'_succ], reverse_perm [x + 2, x + 1, x]⟩
    · obtain rfl : y = page + 1 := by omega
      exact ⟨page, by simp [sortPages, sweep, range'_succ], .refl _⟩
  · simp only [length_cons] at hlen
    omega

theorem not_fourInARow {pages : List ℕ} (h : pages.length < 4) : ¬ FourInARow pages := by
  induction pages with
  | nil => exact id
  | cons page pages ih =>
    rw [length_cons] at h
    rintro (hstarts | hlater)
    · exact absurd hstarts.1 (by rw [length_cons]; omega)
    · exact ih (by omega) hlater

theorem fourInARow_break {pages : List ℕ} (hcount : run.length ≤ 3)
    (h : ¬ run.head?.any (fun prev => Consecutive prev page)) :
    FourInARow (run.reverse ++ page :: pages) ↔ FourInARow (page :: pages) := by
  rcases run with _ | ⟨z, _ | ⟨y, _ | ⟨x, _ | ⟨w, run⟩⟩⟩⟩
  · rfl
  · simp_all [FourInARow, StartsRun]
  · simp_all [FourInARow, StartsRun]
  · simp_all [FourInARow, StartsRun]
  · simp only [length_cons] at hcount
    omega

/-- The loop runs out of bounds only for a single page, when it meets four neighbours in a row. -/
theorem allocLoop_spec (hlen : len ≤ 3) (hcount : run.length < len ∨ len = 1 ∧ run.length ≤ 3)
    (hrun : run.IsChain fun b a => Consecutive a b) (hnodup : (run ++ supply).Nodup)
    (hpages : ∀ p ∈ run ++ supply, p < noPage) :
    len = 1 ∧ FourInARow (run.reverse ++ supply.take attempts) ∧
      allocLoop len attempts supply run spares = .error .bounds ∨
    (len = 1 → ¬ FourInARow (run.reverse ++ supply.take attempts)) ∧
      ∃ outcome, allocLoop len attempts supply run spares = .ok outcome ∧
        (∀ pages, outcome.pages = some pages → ∃ first, pages = range' first len) ∧
        (outcome.pages.getD [] ++ outcome.freed ++ outcome.left).Perm
          (run ++ spares ++ supply) := by
  have hshort : ¬ FourInARow (run.reverse ++ []) := by
    refine not_fourInARow ?_
    rw [append_nil, length_reverse]
    omega
  induction attempts generalizing supply run spares with
  | zero => exact .inr ⟨fun _ => hshort, _, rfl, fun _ h => (by cases h), .refl _⟩
  | succ attempts ih =>
    cases supply with
    | nil => exact .inr ⟨fun _ => hshort, _, rfl, fun _ h => (by cases h), .refl _⟩
    | cons page supply =>
      have hperm : (page :: run ++ spares ++ supply).Perm (run ++ spares ++ page :: supply) :=
        perm_middle.symm
      have hnodup' : (page :: run ++ supply).Nodup := (perm_middle.nodup_iff).mp hnodup
      have hall : ∀ p ∈ page :: run ++ supply, p < noPage :=
        fun p hp => hpages p (perm_middle.mem_iff.mpr hp)
      rw [allocLoop, take_succ_cons]
      split
      case isFalse hbreak =>
        rw [fourInARow_break (by omega) hbreak]
        have hnodup₁ : ([page] ++ supply).Nodup := hnodup'.sublist (by simp)
        have hpages₁ : ∀ p ∈ [page] ++ supply, p < noPage := fun p hp =>
          hall p (by simp only [mem_append, mem_cons, not_mem_nil] at hp ⊢; tauto)
        refine (ih (by rw [length_singleton]; omega) (.singleton _) hnodup₁ hpages₁
          (not_fourInARow (by simp))).imp_right (And.imp_right ?_)
        rintro ⟨outcome, hout, hpages, hgiven⟩
        exact ⟨outcome, hout, hpages, hgiven.trans (by simpa using hperm)⟩
      case isTrue hconsecutive =>
        cases run with
        | nil => cases hconsecutive
        | cons prev run =>
          have hrun' : (page :: prev :: run).IsChain fun b a => Consecutive a b :=
            isChain_cons_cons.mpr ⟨by simpa using hconsecutive, hrun⟩
          have hlist : (prev :: run).reverse ++ page :: supply.take attempts =
              (page :: prev :: run).reverse ++ supply.take attempts := by simp
          rw [length_cons] at hcount
          split
          case isTrue hlt =>
            split
            case isTrue hdone =>
              obtain ⟨first, hsort, hsame⟩ := sortPages_run hlen hdone (cons_ne_nil _ _) hrun'
                (hnodup'.sublist (by simp)) fun p hp => hall p (mem_append_left _ hp)
              refine .inr ⟨fun hone => absurd hone (by simp at hdone; omega), _, rfl, ?_, ?_⟩
              · rintro pages ⟨⟩
                exact ⟨first, hsort⟩
              · rw [Option.getD_some, hsort]
                exact ((hsame.append_right spares).append_right supply).trans hperm
            case isFalse hnot =>
              simp only [length_cons, maxRingPages] at hlt hnot
              rw [hlist]
              refine (ih (by simp only [length_cons]; omega) hrun' hnodup' hall ?_).imp_right
                (And.imp_right ?_)
              · refine not_fourInARow ?_
                simp only [append_nil, length_reverse, length_cons]
                omega
              · rintro ⟨outcome, hout, hpages, hgiven⟩
                exact ⟨outcome, hout, hpages, hgiven.trans hperm⟩
          case isFalse hfull =>
            simp only [length_cons, maxRingPages] at hfull
            obtain ⟨b, a, rfl⟩ := length_eq_two.mp (show run.length = 2 by omega)
            simp only [isChain_cons_cons] at hrun'
            refine .inl ⟨by omega, .inl ⟨by simp, ?_⟩, rfl⟩
            simp [hrun'.1, hrun'.2.1, hrun'.2.2.1]

/-- A call is correct exactly if it asks for more than one page or the allocator does not return
four neighbours in a row. -/
theorem allocates_iff (hlen : 0 < len ∧ len ≤ maxRingPages) (hnodup : supply.Nodup)
    (hpages : ∀ p ∈ supply, p < noPage) :
    Allocates len supply ↔ (len = 1 → ¬ FourInARow (supply.take 256)) := by
  have hstart : allocContiguousPages len supply = allocLoop len 256 supply [] [] := by
    rw [allocContiguousPages, assert_of hlen, ok_bind]
  unfold Allocates
  rw [hstart]
  rcases @allocLoop_spec len 256 supply [] [] hlen.2 (.inl hlen.1) .nil hnodup hpages with
    ⟨hone, hfour, htrap⟩ | ⟨hnot, hreturns⟩
  · rw [htrap]
    refine iff_of_false ?_ fun hnot => hnot hone hfour
    rintro ⟨outcome, hrun, -⟩
    cases hrun
  · exact iff_of_true hreturns hnot

theorem allocates_two_pages : Allocates 2 [7, 9, 8] :=
  (allocates_iff (by decide) (by decide) (by decide)).mpr fun h => by cases h

/-- The fourth page is written behind the three pages of the run. -/
theorem four_pages_overrun : ¬ Allocates 1 [0, 1, 2, 3] := by
  rintro ⟨outcome, hrun, -⟩
  have htrap : allocContiguousPages 1 [0, 1, 2, 3] = .error .bounds := by decide
  rw [htrap] at hrun
  cases hrun

end Innigkeit.Drivers.Virtio

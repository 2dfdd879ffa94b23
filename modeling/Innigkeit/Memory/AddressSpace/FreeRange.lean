import Innigkeit.Memory.AddressSpace.Consistent

/-!
The free-range searches of `map` in a valid address space. A search that
succeeds cuts the entries in two lists around the range it found; the first-fit
search also says what it passed over, which decides whether its result can lie
below the address space.
-/

namespace Innigkeit.Memory

open Zig List VirtualRange

open AddressSpace

section

variable {limit : ℕ} {heap : Heap} {entries : List Entry}

/-- An ordered list is cut in two where a property is lost for good. -/
theorem exists_cut {α : Type*} {R : α → α → Prop} (p : α → Prop) [DecidablePred p] {xs : List α}
    (h : xs.Pairwise R) (hlost : ∀ x y, R x y → ¬ p x → ¬ p y) :
    ∃ pre post, xs = pre ++ post ∧ (∀ x ∈ pre, p x) ∧ ∀ y ∈ post, ¬ p y := by
  induction xs with
  | nil => exact ⟨[], [], rfl, by simp, by simp⟩
  | cons x xs ih =>
    rw [pairwise_cons] at h
    by_cases hx : p x
    · obtain ⟨pre, post, heq, hpre, hpost⟩ := ih h.2
      exact ⟨x :: pre, post, by rw [heq, cons_append], by simpa using ⟨hx, hpre⟩, hpost⟩
    · exact ⟨[], x :: xs, rfl, by simp, by simpa using ⟨hx, fun y hy => hlost x y (h.1 y hy) hx⟩⟩

theorem Consistent.cut (h : Consistent limit heap entries) (address : ℕ) :
    ∃ pre post, entries = pre ++ post ∧ (∀ x ∈ pre, x.range.stop ≤ address) ∧
      ∀ y ∈ post, address < y.range.stop := by
  simp only [← not_le]
  refine exists_cut (fun x => x.range.stop ≤ address) h.ordered fun x y hxy hx => ?_
  have h1 := hxy.ranges
  have h2 := y.range.stop_eq
  omega

variable {entry : Entry} {address : ℕ}

theorem entryAddressCompare_of_stop_le (h : entry.Good limit heap) (hl : limit < 2 ^ 64)
    (hle : entry.range.stop ≤ address) : entryAddressCompare address entry = .ok .gt := by
  have hfits : entry.range.Fits := lt_of_le_of_lt h.below hl
  have hpos := h.nonempty
  have hstop := entry.range.stop_eq
  rw [entryAddressCompare, containsAddressOrder_of_fits hfits, if_neg (by omega), if_pos hle]

theorem entryAddressCompare_of_lt_stop (h : entry.Good limit heap)
    (hl : limit < 2 ^ 64) (hlt : address < entry.range.stop) :
    entryAddressCompare address entry =
      .ok (if address < entry.range.address then .lt else .eq) := by
  have hfits : entry.range.Fits := lt_of_le_of_lt h.below hl
  rw [entryAddressCompare, containsAddressOrder_of_fits hfits, if_neg (not_le.mpr hlt)]

theorem Consistent.lowerBound_eq {pre post : List Entry} (h : Consistent limit heap (pre ++ post))
    (hl : limit < 2 ^ 64) (hpre : ∀ x ∈ pre, x.range.stop ≤ address)
    (hpost : ∀ y ∈ post, address < y.range.stop) :
    lowerBound (entryAddressCompare address) (pre ++ post) = .ok pre.length := by
  refine lowerBound_append (fun x hx => ?_) (fun y hy => ?_)
  · exact entryAddressCompare_of_stop_le (h.entry x (by simp [hx])) hl (hpre x hx)
  · refine ⟨_, entryAddressCompare_of_lt_stop (h.entry y (by simp [hy])) hl (hpost y hy), ?_⟩
    split <;> simp

end

namespace AddressSpace

structure Valid (space : AddressSpace) : Prop where
  aligned : PageAligned space.range.address
  fits : space.range.Fits
  consistent : Consistent space.range.stop space.heap space.entries

structure FreeAt (space : AddressSpace) (free : FreeRange) (pre post : List Entry) : Prop where
  cut : space.entries = pre ++ post
  index : free.insertionIndex = pre.length
  before : ∀ x ∈ pre, x.range.stop ≤ free.range.address
  behind : ∀ y ∈ post, free.range.stop ≤ y.range.address
  stop : free.range.stop ≤ space.range.stop

variable {self : AddressSpace} {range : VirtualRange} {free : FreeRange}

theorem findExactFreeRange_spec (hv : self.Valid)
    (h : self.findExactFreeRange range = .ok (some free)) :
    free.range = range ∧ ∃ pre post, self.FreeAt free pre post := by
  obtain ⟨pre, post, hentries, hpre, hpost⟩ := hv.consistent.cut range.address
  have hc := hv.consistent
  rw [hentries] at hc
  have hl := hv.fits
  simp only [findExactFreeRange, hentries, hc.lowerBound_eq hl hpre hpost, ok_bind] at h
  cases post with
  | nil =>
    simp only [append_nil, if_true, after_of_fits hv.fits, bind_eq_ok, after_eq_ok, ok_bind] at h
    obtain ⟨-, ⟨-, rfl⟩, h⟩ := h
    split at h
    · rename_i hle
      cases h
      exact ⟨rfl, pre, [], hentries, rfl, hpre, by simp, hle⟩
    · cases h
  | cons y post =>
    have hget : (pre ++ y :: post)[pre.length]? = some y := by simp
    have hne : pre.length ≠ (pre ++ y :: post).length := by simp
    simp only [hne, if_false, index_of hget, ok_bind, bind_eq_ok] at h
    obtain ⟨overlap, -, h⟩ := h
    split at h
    · cases h
    · simp only [bind_eq_ok, after_eq_ok, assert_eq_ok] at h
      obtain ⟨_, ⟨-, rfl⟩, -, hle, h⟩ := h
      cases h
      have hord := hc.ordered
      rw [pairwise_append, pairwise_cons] at hord
      have hy := hc.entry y (by simp)
      have hbelow := hy.below
      have hystop := y.range.stop_eq
      refine ⟨rfl, pre, y :: post, hentries, rfl, hpre, ?_, le_trans hle (by omega)⟩
      simp only [forall_mem_cons]
      refine ⟨hle, fun z hz => ?_⟩
      have := (hord.2.1.1 z hz).ranges
      omega

/-- What the first-fit loop passed over: every entry before the result ends where the result
begins, or too close to a later entry. -/
structure FirstFit (entries : List Entry) (start size : ℕ) (found : ℕ) (pre post : List Entry) :
    Prop where
  cut : entries = pre ++ post
  behind : ∀ y ∈ post, found + size ≤ y.range.address
  before : ∀ x ∈ pre, x.range.stop ≤ found
  passed : ∀ x ∈ pre, x.range.stop = found ∨
    ∃ y ∈ entries, x.range.stop ≤ y.range.address ∧ y.range.address < x.range.stop + size
  first : ∀ x ∈ pre.head?, x.range.address < start + size
  last : pre = [] ∧ found = start ∨ ∃ x ∈ pre, x.range.stop = found

theorem findFreeRange_loop_spec (entries : List Entry) (candidate : VirtualRange) (i : ℕ)
    (hord : entries.Pairwise fun x y => x.range.stop ≤ y.range.address)
    (h : findFreeRange.loop entries candidate i = .ok free) :
    free.range.size = candidate.size ∧ ∃ pre post, free.insertionIndex = i + pre.length ∧
      FirstFit entries candidate.address candidate.size free.range.address pre post := by
  induction entries generalizing candidate i with
  | nil =>
    simp only [findFreeRange.loop, Except.ok.injEq] at h
    subst h
    exact ⟨rfl, [], [], rfl, rfl, by simp, by simp, by simp, by simp, .inl ⟨rfl, rfl⟩⟩
  | cons e es ih =>
    rw [pairwise_cons] at hord
    simp only [findFreeRange.loop, bind_eq_ok, after_eq_ok] at h
    obtain ⟨_, ⟨-, rfl⟩, h⟩ := h
    by_cases hle : candidate.stop ≤ e.range.address
    · -- the candidate ends before the entry
      simp only [hle, if_true, pure_eq_ok, Except.ok.injEq] at h
      subst h
      refine ⟨rfl, [], e :: es, rfl, rfl, ?_, by simp, by simp, by simp, .inl ⟨rfl, rfl⟩⟩
      simp only [forall_mem_cons]
      refine ⟨hle, fun y hy => ?_⟩
      have h1 := hord.1 y hy
      have h2 := e.range.stop_eq
      have h3 := candidate.stop_eq
      omega
    · simp only [hle, if_false, bind_eq_ok, after_eq_ok] at h
      obtain ⟨_, ⟨-, rfl⟩, _, -, h⟩ := h
      obtain ⟨hsize, pre, post, hindex, hfit⟩ := ih _ _ hord.2 h
      simp only at hsize hfit
      refine ⟨hsize, e :: pre, post, by rw [hindex, length_cons]; omega, ?_⟩
      have hbefore : e.range.stop ≤ free.range.address := by
        rcases hfit.last with ⟨-, heq⟩ | ⟨x, hx, heq⟩
        · omega
        · have h1 := hord.1 x (by rw [hfit.cut]; simp [hx])
          have h2 := x.range.stop_eq
          omega
      constructor
      case cut => rw [hfit.cut, cons_append]
      case behind => exact hfit.behind
      case before => simpa using ⟨hbefore, hfit.before⟩
      case first =>
        intro x hx
        cases hx
        exact Nat.lt_of_not_le hle
      case last =>
        rcases hfit.last with ⟨-, heq⟩ | ⟨x, hx, heq⟩
        · exact .inr ⟨e, by simp, heq.symm⟩
        · exact .inr ⟨x, by simp [hx], heq⟩
      case passed =>
        rw [forall_mem_cons]
        constructor
        · -- the loop either stops right after the entry or meets the next one too early
          cases pre with
          | nil =>
            rcases hfit.last with ⟨-, heq⟩ | ⟨x, hx, -⟩
            · exact .inl heq.symm
            · simp at hx
          | cons x pre =>
            have hx : x ∈ es := by rw [hfit.cut]; simp
            have h1 := hord.1 x hx
            exact .inr ⟨x, mem_cons_of_mem _ hx, h1, hfit.first x (by simp)⟩
        · intro x hx
          rcases hfit.passed x hx with heq | ⟨y, hy, hyx⟩
          · exact .inl heq
          · exact .inr ⟨y, mem_cons_of_mem _ hy, hyx⟩

theorem findFreeRange_spec {size : ℕ} (hfits : self.range.Fits)
    (hord : self.entries.Pairwise fun x y => x.range.stop ≤ y.range.address)
    (h : self.findFreeRange size = .ok (some free)) :
    free.range.size = size ∧ ∃ pre post, self.FreeAt free pre post ∧
      FirstFit self.entries self.range.address size free.range.address pre post := by
  simp only [findFreeRange, bind_eq_ok, after_of_fits hfits, ok_bind, after_eq_ok] at h
  obtain ⟨_, -, found, hloop, _, ⟨-, rfl⟩, h⟩ := h
  split at h
  · rename_i hle
    cases h
    obtain ⟨hsize, pre, post, hindex, hfit⟩ := findFreeRange_loop_spec _ _ _ hord hloop
    refine ⟨hsize, pre, post, ⟨hfit.cut, by simpa using hindex, hfit.before, ?_, hle⟩, hfit⟩
    intro y hy
    rw [stop_eq, hsize]
    exact hfit.behind y hy
  · cases h

/-- The first fit lies inside the address space unless an entry below the space leaves room behind
it. -/
theorem FirstFit.start_le_iff {limit : ℕ} {heap : Heap} {entries pre post : List Entry}
    {start size found : ℕ} (hfit : FirstFit entries start size found pre post)
    (hgood : ∀ e ∈ entries, e.Good limit heap) :
    start ≤ found ↔ ∀ x ∈ entries, x.range.stop < start →
      ∃ y ∈ entries, x.range.stop ≤ y.range.address ∧ y.range.address < x.range.stop + size := by
  have hmem (e : Entry) : e ∈ entries ↔ e ∈ pre ∨ e ∈ post := by
    rw [hfit.cut, mem_append]
  have hstop (e : Entry) := e.range.stop_eq
  constructor
  · intro hle x hx hlt
    have hpos := (hgood x hx).nonempty
    have hxs := hstop x
    rcases (hmem x).mp hx with hpre | hpost
    · rcases hfit.passed x hpre with heq | hex
      · omega
      · exact hex
    · have := hfit.behind x hpost
      omega
  · intro hall
    rcases hfit.last with ⟨-, heq⟩ | ⟨x, hx, heq⟩
    · omega
    · by_contra hlt
      obtain ⟨y, hy, h1, h2⟩ := hall x ((hmem x).mpr (.inl hx)) (by omega)
      have hpos := (hgood y hy).nonempty
      have hys := hstop y
      rcases (hmem y).mp hy with hpre | hpost
      · have := hfit.before y hpre
        omega
      · have := hfit.behind y hpost
        omega

end AddressSpace

end Innigkeit.Memory

import Innigkeit.Memory.AddressSpace.FreeRange

/-!
`entryRange` in a valid address space. A range cuts the entries in three: those
that end before it, those that overlap it, and those that begin after it. The
code asserts that the entry it found by the search overlaps, which fails for a
range that lies in a hole below an entry.
-/

namespace Innigkeit.Memory

open Zig List VirtualRange

structure RangeCut (range : VirtualRange) (entries pre mid post : List Entry) : Prop where
  cut : entries = pre ++ mid ++ post
  before : ∀ x ∈ pre, x.range.stop ≤ range.address
  start : ∀ x ∈ mid, range.address < x.range.stop
  stop : ∀ x ∈ mid, x.range.address < range.stop
  behind : ∀ x ∈ post, range.stop ≤ x.range.address

open AddressSpace

section

variable {limit : ℕ} {heap : Heap} {entries pre mid post : List Entry} {range : VirtualRange}

theorem Consistent.rangeCut (h : Consistent limit heap entries) (range : VirtualRange) :
    ∃ pre mid post, RangeCut range entries pre mid post := by
  obtain ⟨pre, rest, heq, hpre, hrest⟩ := h.cut range.address
  subst heq
  have hord := h.ordered
  rw [pairwise_append] at hord
  obtain ⟨mid, post, heq, hmid, hpost⟩ :=
    exists_cut (fun x => x.range.address < range.stop) hord.2.1 fun x y hxy hx => by
      have h1 := hxy.ranges
      have h2 := x.range.stop_eq
      omega
  subst heq
  exact ⟨pre, mid, post, by rw [append_assoc], hpre, fun x hx => hrest x (by simp [hx]), hmid,
    fun x hx => not_lt.mp (hpost x hx)⟩

theorem RangeCut.ordered (h : RangeCut range entries pre mid post)
    (hc : Consistent limit heap entries) : mid.Pairwise Entry.Precedes := by
  have hord := hc.ordered
  rw [h.cut, pairwise_append, pairwise_append] at hord
  exact hord.1.2.1

theorem RangeCut.getElem?_eq {done rest : List Entry} {x : Entry}
    (h : RangeCut range entries pre mid post) (hmid : mid = done ++ x :: rest) :
    entries[pre.length + done.length]? = some x := by
  have hlist : entries = (pre ++ done) ++ x :: (rest ++ post) := by simp [h.cut, hmid]
  rw [hlist, ← length_append, getElem?_append_right (Nat.le_refl _)]
  simp

theorem RangeCut.address_le {first : Entry} (h : RangeCut range entries pre (first :: mid) post)
    (hc : Consistent limit heap entries) : ∀ x ∈ mid, range.address ≤ x.range.address := by
  intro x hx
  have h1 := ((pairwise_cons.mp (h.ordered hc)).1 x hx).ranges
  have h2 := h.start first (by simp)
  omega

theorem RangeCut.stop_le {last : Entry} (h : RangeCut range entries pre (mid ++ [last]) post)
    (hc : Consistent limit heap entries) : ∀ x ∈ mid, x.range.stop ≤ range.stop := by
  intro x hx
  have h1 := ((pairwise_append.mp (h.ordered hc)).2.2 x hx last (by simp)).ranges
  have h2 := h.stop last (by simp)
  omega

theorem RangeCut.overlaps_iff (h : RangeCut range entries pre mid post)
    (hgood : ∀ e ∈ entries, e.Good limit heap) {entry : Entry} (he : entry ∈ entries) :
    entry.range.Overlaps range ↔ entry ∈ mid := by
  have hrs := range.stop_eq
  have hes := entry.range.stop_eq
  have hpos' := (hgood entry he).nonempty
  rw [VirtualRange.overlaps_iff]
  constructor
  · intro ho
    rw [h.cut, mem_append, mem_append] at he
    rcases he with (he | he) | he
    · have := h.before entry he
      omega
    · exact he
    · have := h.behind entry he
      omega
  · intro hm
    exact ⟨h.stop entry hm, h.start entry hm⟩

theorem Consistent.rangeCut_of_overlaps (h : Consistent limit heap entries)
    (hover : ∃ e ∈ entries, e.range.Overlaps range) : ∃ pre mid post first last,
      RangeCut range entries pre mid post ∧ mid.head? = some first ∧ mid.getLast? = some last := by
  obtain ⟨e, he, ho⟩ := hover
  obtain ⟨pre, mid, post, hcut⟩ := h.rangeCut range
  have hmem := (hcut.overlaps_iff h.entry he).mp ho
  have hne : mid ≠ [] := ne_nil_of_mem hmem
  exact ⟨pre, mid, post, mid.head hne, mid.getLast hne, hcut, head?_eq_some_head hne,
    getLast?_eq_some_getLast hne⟩

theorem overlapLength_eq (hmid : ∀ x ∈ mid, range.address < x.range.stop ∧
      x.range.address < range.stop) (hpost : ∀ x ∈ post, range.stop ≤ x.range.address)
    (hgood : ∀ e ∈ mid ++ post, e.Good limit heap) (hl : limit < 2 ^ 64) (hfits : range.Fits) :
    overlapLength range (mid ++ post) = .ok mid.length := by
  induction mid with
  | nil =>
    cases post with
    | nil => rfl
    | cons y post =>
      have hy := hgood y (by simp)
      have hle := hpost y (by simp)
      have hno : ¬ y.range.Overlaps range := by
        rw [overlaps_iff]
        omega
      simp [overlapLength, anyOverlap_of_fits (lt_of_le_of_lt hy.below hl) hfits, hno]
  | cons x mid ih =>
    simp only [cons_append, forall_mem_cons] at hmid hgood
    have hyes : x.range.Overlaps range := ⟨hmid.1.2, hmid.1.1⟩
    simp [overlapLength, anyOverlap_of_fits (lt_of_le_of_lt hgood.1.below hl) hfits,
      hyes, ih hmid.2 hgood.2]

end

namespace AddressSpace

def rangeOf (range : VirtualRange) (pre mid : List Entry) (first last : Entry) : EntryRange where
  start := pre.length
  length := mid.length
  startOverlap := decide (first.range.address < range.address)
  endOverlap := decide (range.stop < last.range.stop)

@[simp] theorem rangeOf_start {range : VirtualRange} {pre mid : List Entry} {first last : Entry} :
    (rangeOf range pre mid first last).start = pre.length := rfl

@[simp] theorem rangeOf_length {range : VirtualRange} {pre mid : List Entry} {first last : Entry} :
    (rangeOf range pre mid first last).length = mid.length := rfl

variable {self : AddressSpace} {range : VirtualRange} {pre mid post : List Entry}

section

variable (hv : self.Valid)
include hv

private theorem lowerBound_of_cut (hcut : RangeCut range self.entries pre mid post)
    (hpost : ∀ y ∈ post, range.address < y.range.stop) :
    lowerBound (entryAddressCompare range.address) self.entries = .ok pre.length := by
  have hc := hv.consistent
  rw [hcut.cut, append_assoc] at hc ⊢
  refine hc.lowerBound_eq hv.fits hcut.before fun y hy => ?_
  rcases mem_append.mp hy with hy | hy
  · exact hcut.start y hy
  · exact hpost y hy

private theorem post_stop_lt (hcut : RangeCut range self.entries pre mid post)
    {y : Entry} (hy : y ∈ post) : range.address < y.range.stop := by
  have hpos := (hv.consistent.entry y (by rw [hcut.cut]; simp [hy])).nonempty
  have h1 := hcut.behind y hy
  have h2 := range.stop_eq
  have h3 := y.range.stop_eq
  omega

theorem entryRange_none (hall : ∀ e ∈ self.entries, e.range.stop ≤ range.address) :
    self.entryRange range = .ok none := by
  have hc := hv.consistent
  have hlb := (show Consistent self.range.stop self.heap (self.entries ++ []) by simpa using hc)
    |>.lowerBound_eq hv.fits hall (by simp)
  rw [append_nil] at hlb
  simp [entryRange, hlb]

/-- The range lies in a hole below some entry: the assertion on the scan fails. -/
theorem entryRange_hole (hfits : range.Fits) (hcut : RangeCut range self.entries pre [] post)
    (hpost : post ≠ []) : self.entryRange range = .error .assertion := by
  have hlb := lowerBound_of_cut hv hcut (fun y hy => post_stop_lt hv hcut hy)
  have hlen : overlapLength range ([] ++ post) = .ok 0 := overlapLength_eq (by simp) hcut.behind
    (fun e he => hv.consistent.entry e (by rw [hcut.cut]; simpa using .inr he)) hv.fits hfits
  have hdrop : self.entries.drop pre.length = [] ++ post := by
    rw [hcut.cut]
    simp
  have hne : pre.length ≠ self.entries.length := by
    rw [hcut.cut]
    simpa using hpost
  simp only [entryRange, hlb, hne, if_false, hdrop, hlen, ok_bind]
  rfl

/-- The end of the range is not a machine address, and some entry ends behind its start. -/
theorem entryRange_overflow (hfits : ¬ range.Fits)
    (hex : ∃ e ∈ self.entries, range.address < e.range.stop) :
    ¬ Checked.Returns (self.entryRange range) := by
  obtain ⟨pre, post, hentries, hpre, hpost⟩ := hv.consistent.cut range.address
  have hc := hv.consistent
  rw [hentries] at hc
  have hlb := hc.lowerBound_eq hv.fits hpre hpost
  cases post with
  | nil =>
    obtain ⟨e, he, hlt⟩ := hex
    rw [hentries, append_nil] at he
    have := hpre e he
    omega
  | cons y post =>
    have hafter : range.after = .error .overflow := by
      simp only [VirtualRange.after, VirtualAddress.moveForward, add]
      exact if_neg hfits
    simp [entryRange, hentries, hlb, overlapLength, VirtualRange.anyOverlap, hafter]

/-- The search for the range's entries returns only if there are none behind its start, or if the
range overlaps one. -/
theorem entryRange_trap (hall : ¬ ∀ e ∈ self.entries, e.range.stop ≤ range.address)
    (hover : ¬ (range.Fits ∧ ∃ e ∈ self.entries, e.range.Overlaps range)) :
    ¬ Checked.Returns (self.entryRange range) := by
  have hex : ∃ e ∈ self.entries, range.address < e.range.stop := by
    simpa [not_le] using hall
  by_cases hfits : range.Fits
  · obtain ⟨pre, mid, post, hcut⟩ := hv.consistent.rangeCut range
    cases mid with
    | nil =>
      rw [entryRange_hole hv hfits hcut ?_]
      · exact not_returns_error _
      · rintro rfl
        obtain ⟨e, he, hlt⟩ := hex
        rw [hcut.cut] at he
        have := hcut.before e (by simpa using he)
        omega
    | cons x mid =>
      have hx : x ∈ self.entries := by rw [hcut.cut]; simp
      exact absurd ⟨hfits, x, hx, (hcut.overlaps_iff hv.consistent.entry hx).mpr (by simp)⟩ hover
  · exact entryRange_overflow hv hfits hex

theorem entryRange_some (hfits : range.Fits) {first last : Entry}
    (hcut : RangeCut range self.entries pre mid post) (hfirst : mid.head? = some first)
    (hlast : mid.getLast? = some last) :
    self.entryRange range = .ok (some (rangeOf range pre mid first last)) := by
  have hlb := lowerBound_of_cut hv hcut (fun y hy => post_stop_lt hv hcut hy)
  have hmemf : first ∈ mid := mem_of_head? hfirst
  have hmeml : last ∈ mid := mem_of_getLast? hlast
  have hgood : ∀ e ∈ self.entries, e.Good self.range.stop self.heap := hv.consistent.entry
  have hlen : overlapLength range (mid ++ post) = .ok mid.length := overlapLength_eq
    (fun x hx => ⟨hcut.start x hx, hcut.stop x hx⟩) hcut.behind
    (fun e he => hgood e (by
      rw [hcut.cut, append_assoc]
      exact mem_append_right _ he)) hv.fits hfits
  have hdrop : self.entries.drop pre.length = mid ++ post := by
    rw [hcut.cut, append_assoc]
    simp
  have hmidne : mid ≠ [] := by
    rintro rfl
    simp at hmemf
  have hpos : 0 < mid.length := length_pos_iff.mpr hmidne
  have hne : pre.length ≠ self.entries.length := by
    rw [hcut.cut]
    simp only [length_append]
    omega
  have hgetf : self.entries[pre.length]? = some first := by
    rw [hcut.cut, append_assoc, getElem?_append_right (Nat.le_refl _), Nat.sub_self,
      getElem?_append_left hpos, ← head?_eq_getElem?, hfirst]
  have hgetl : self.entries[pre.length + mid.length - 1]? = some last := by
    rw [hcut.cut, append_assoc, getElem?_append_right (by omega),
      getElem?_append_left (by omega), ← hlast, getLast?_eq_getElem?]
    congr 1
    omega
  have hff : first.range.Fits := lt_of_le_of_lt
    (hgood first (by rw [hcut.cut]; simp [hmemf])).below hv.fits
  have hfl : last.range.Fits := lt_of_le_of_lt
    (hgood last (by rw [hcut.cut]; simp [hmeml])).below hv.fits
  have hsf := hcut.start first hmemf
  have hsl := hcut.stop last hmeml
  simp only [entryRange, hlb, hne, if_false, hdrop, hlen, ok_bind, assert_of (ne_of_gt hpos),
    index_of hgetf, after_of_fits hff, assert_of (le_of_lt hsf),
    sub_of_le (show 1 ≤ pre.length + mid.length by omega), index_of hgetl,
    after_of_fits hfits, after_of_fits hfl, assert_of hsl, pure_eq_ok]
  split <;> split <;> rfl

end

end AddressSpace

end Innigkeit.Memory

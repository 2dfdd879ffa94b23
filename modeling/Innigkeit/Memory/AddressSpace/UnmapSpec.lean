import Innigkeit.Memory.AddressSpace.UnmapBatches
import Innigkeit.Memory.AddressSpace.Split
import Innigkeit.Memory.AddressSpace.Release
import Innigkeit.Library.Surgery

/-!
`unmap` in a valid address space. Once `entryRange` has returned, nothing on the
way traps: the straddling entries are cut at the ends of the range, the entries
inside are released, and no page outside the range changes what it shows.
-/

namespace Innigkeit.Memory

open Zig List Option VirtualRange Entry VirtualAddress Surgery

theorem Consistent.deallocate {limit : ℕ} {heap : Heap} {entries : List Entry}
    (h : Consistent limit heap entries) (pages : List PhysicalPage) :
    Consistent limit (heap.deallocate pages) entries where
  entry e he := (h.entry e he).mono fun _ map _ hmap => ⟨map, hmap, le_rfl⟩
  ordered := h.ordered
  references := h.references
  heap :=
    { maps := fun id map hmap => { h.heap.maps id map hmap with }
      disjoint := h.heap.disjoint
      freshMap := h.heap.freshMap
      freshPage := h.heap.freshPage
      noObjects := h.heap.noObjects }

theorem pageAt_congr_mid {pre mid mid' post : List Entry} {address : ℕ}
    (h : pageAt mid' address = pageAt mid address) :
    pageAt (pre ++ mid' ++ post) address = pageAt (pre ++ mid ++ post) address := by
  simp only [pageAt_append, h]

section

variable {entry : Entry} {range : VirtualRange} {address : ℕ}

theorem pageAt_front (hlo : entry.range.address ≤ range.address)
    (hin : range.address ≤ entry.range.stop) (hle : entry.range.stop ≤ range.stop)
    (ha : ¬ range.Contains address) :
    pageAt [entry.front (range.address - entry.range.address)] address =
      pageAt [entry] address := by
  rw [pageAt_singleton, pageAt_singleton, front_page]
  simp only [front_contains, @contains_iff entry.range]
  rw [contains_iff] at ha
  refine if_congr ?_ rfl rfl
  omega

theorem pageAt_rest (hobj : entry.objectReference.object = none)
    (hlo : range.address ≤ entry.range.address) (hin : entry.range.address ≤ range.stop)
    (hlt : range.stop < entry.range.stop) (ha : ¬ range.Contains address) :
    pageAt [entry.rest (range.stop - entry.range.address)] address = pageAt [entry] address := by
  have hstop := entry.range.stop_eq
  rw [contains_iff] at ha
  rw [pageAt_singleton, pageAt_singleton]
  simp only [rest_contains (show range.stop - entry.range.address ≤ entry.range.size by omega),
    @contains_iff entry.range]
  by_cases hc : entry.range.address ≤ address ∧ address < entry.range.stop
  · rw [if_pos hc, if_pos (by omega), rest_page hobj (by omega)]
  · rw [if_neg hc, if_neg (by omega)]

end

namespace AddressSpace

section

variable {limit : ℕ} {heap : Heap} {pre mid post : List Entry} {entry : Entry}
  {range : VirtualRange}

theorem removeEntries_spec (h : Consistent limit heap (pre ++ mid ++ post))
    (pages : List PhysicalPage) : ∃ heap' pages',
      removeEntries pre.length mid.length heap (pre ++ mid ++ post) pages =
        .ok (heap', pre ++ post, pages') ∧ Consistent limit heap' (pre ++ post) := by
  -- the loop runs from the last entry of the middle part to the first
  induction mid using List.reverseRecOn generalizing heap post pages with
  | nil => exact ⟨heap, pages, by simp [removeEntries], by simpa using h⟩
  | append_singleton mid e ih =>
    have h' : Consistent limit heap ((pre ++ mid) ++ [e] ++ post) := by simpa using h
    obtain ⟨heap1, pages1, hrel, hc⟩ := h'.release pages
    obtain ⟨heap2, pages2, hrest, hc2⟩ := ih (by simpa using hc) pages1
    refine ⟨heap2, pages2, ?_, hc2⟩
    have hlist : pre ++ (mid ++ [e]) ++ post = (pre ++ mid) ++ e :: post := by simp
    have hlen : pre.length + mid.length = (pre ++ mid).length := by simp
    have hget : ((pre ++ mid) ++ e :: post)[(pre ++ mid).length]? = some e := by simp
    rw [length_append, length_singleton, hlist]
    simp only [removeEntries, hlen, index_of hget, ok_bind, hrel, eraseIdx_length]
    exact hrest

theorem shrinkFirst_spec (h : Consistent limit heap (pre ++ [entry] ++ post))
    (ha : PageAligned range.address) (hlt : entry.range.address < range.address)
    (hin : range.address < entry.range.stop) :
    shrinkFirst (pre ++ [entry] ++ post) pre.length range =
        .ok (pre ++ [entry.front (range.address - entry.range.address)] ++ post) ∧
      Consistent limit heap
        (pre ++ [entry.front (range.address - entry.range.address)] ++ post) := by
  have hg := h.entry entry (by simp)
  have hstop := entry.range.stop_eq
  have halign : PageAligned (range.address - entry.range.address) := by
    have := hg.alignedAddress
    rw [pageAligned_iff] at *
    omega
  have hget : (pre ++ [entry] ++ post)[pre.length]? = some entry := by simp
  constructor
  · simp only [shrinkFirst, index_of hget, ok_bind, difference_of_le (le_of_lt hlt),
      shrink_end (Nat.sub_pos_of_lt hlt)
        (show range.address - entry.range.address < entry.range.size by omega) halign,
      pure_eq_ok]
    simp
  · refine h.refine ?_ (by simp) ?_ ?_
    · simpa using hg.front (by omega) (by omega) halign
    · simpa using front_within (by omega)
    · simp [refersTo]

theorem shrinkLast_spec (h : Consistent limit heap (pre ++ [entry] ++ post))
    (hl : limit < 2 ^ 64) (hfits : range.Fits) (ha : PageAligned range.stop)
    (hlt : entry.range.address < range.stop) (hin : range.stop < entry.range.stop) :
    shrinkLast (pre ++ [entry] ++ post) pre.length range =
        .ok (pre ++ [entry.rest (range.stop - entry.range.address)] ++ post) ∧
      Consistent limit heap
        (pre ++ [entry.rest (range.stop - entry.range.address)] ++ post) := by
  have hg := h.entry entry (by simp)
  have hstop := entry.range.stop_eq
  have h1 := pageAligned_iff.mp hg.alignedAddress
  have h2 := pageAligned_iff.mp hg.alignedSize
  rw [pageAligned_iff] at ha
  have hget : (pre ++ [entry] ++ post)[pre.length]? = some entry := by simp
  have hsize : entry.range.size - (entry.range.stop - range.stop) =
      range.stop - entry.range.address := by omega
  constructor
  · simp only [shrinkLast, index_of hget, ok_bind, after_of_fits hfits, after_of_fits (hg.fits hl),
      difference_of_le (le_of_lt hin),
      hg.shrink_beginning h.heap hl (Nat.sub_pos_of_lt hin)
        (show entry.range.stop - range.stop < entry.range.size by omega)
        (by rw [pageAligned_iff]; omega),
      hsize, pure_eq_ok]
    simp
  · refine h.refine ?_ (by simp) ?_ ?_
    · simpa using hg.rest (by omega) (by rw [pageAligned_iff]; omega)
    · simpa using rest_within (by omega)
    · simp [refersTo]

theorem splitAround_spec (h : Consistent limit heap (pre ++ [entry] ++ post))
    (hl : limit < 2 ^ 64) (hfits : range.Fits) (hpos : 0 < range.size)
    (ha : PageAligned range.address) (hs : PageAligned range.size)
    (hlt : entry.range.address < range.address) (hin : range.stop < entry.range.stop) :
    ∃ heap' second,
      splitAround heap (pre ++ [entry] ++ post) pre.length range = .ok (heap',
        pre ++ [entry.front (range.address - entry.range.address), second] ++ post) ∧
      Consistent limit heap'
        (pre ++ [entry.front (range.address - entry.range.address), second] ++ post) ∧
      second.range.address = range.stop ∧
      ∀ a, ¬ range.Contains a →
        pageAt [entry.front (range.address - entry.range.address), second] a =
          pageAt [entry] a := by
  have hg := h.entry entry (by simp)
  have hstop := entry.range.stop_eq
  have hrs := range.stop_eq
  have h1 := pageAligned_iff.mp hg.alignedAddress
  have h2 := pageAligned_iff.mp hg.alignedSize
  rw [pageAligned_iff] at ha hs
  obtain ⟨n, hn⟩ : ∃ n, n = range.address - entry.range.address := ⟨_, rfl⟩
  have hnpos : 0 < n := by omega
  have hnlt : n < entry.range.size := by omega
  have hna : PageAligned n := by
    rw [pageAligned_iff]
    omega
  have hsplit := h.split_eq hnpos hnlt hna hl
  have hc := h.split hnpos hnlt hna
  have hget : (pre ++ [entry] ++ post)[pre.length]? = some entry := by simp
  have hc' : Consistent limit (heap.addReference entry.anonymousMap)
      ((pre ++ [entry.front n]) ++ [entry.rest n] ++ post) := by simpa using hc
  have hg' := hc'.entry (entry.rest n) (by simp)
  have hraddr : (entry.rest n).range.address = range.address := by
    simp only [rest]
    omega
  have hrstop : (entry.rest n).range.stop = entry.range.stop := by
    simp only [rest, stop_eq]
    omega
  obtain ⟨hshrink, hc2⟩ := shrinkLast_spec hc' hl hfits (by rw [pageAligned_iff]; omega)
    (by omega) (by omega)
  refine ⟨heap.addReference entry.anonymousMap, (entry.rest n).rest (range.stop - range.address),
    ?_, ?_, ?_, fun a hna => ?_⟩
  · have hsize : (entry.rest n).range.size - (entry.range.stop - range.stop) =
        range.stop - range.address := by
      simp only [rest]
      omega
    have hrsize : (entry.rest n).range.size = entry.range.size - n := rfl
    simp only [splitAround, index_of hget, ok_bind, difference_of_le (le_of_lt hlt), ← hn, hsplit,
      after_of_fits hfits, after_of_fits (hg'.fits hl), hrstop, difference_of_le (le_of_lt hin),
      hg'.shrink_beginning hc'.heap hl (Nat.sub_pos_of_lt hin)
        (show entry.range.stop - range.stop < (entry.rest n).range.size by omega)
        (by rw [pageAligned_iff]; omega),
      hsize, pure_eq_ok]
    simp [insertIdx_length_add_one]
  · rw [hraddr] at hc2
    rw [← hn]
    simpa using hc2
  · simp only [rest]
    omega
  · rw [← hn, ← pageAt_cut hg.noObject (le_of_lt hnlt)]
    have hr := @pageAt_rest (entry.rest n) range a hg'.noObject
      (le_of_eq hraddr.symm) (by omega) (by omega) hna
    rw [hraddr] at hr
    rw [pageAt_cons, hr, ← pageAt_cons]

end

section

variable {self : AddressSpace} {range : VirtualRange}

/-- What `unmap` promises of the entries it leaves. -/
structure Cleared (range : VirtualRange) (old new : List Entry) : Prop where
  inside : ∀ a, range.Contains a → pageAt new a = none
  outside : ∀ a, ¬ range.Contains a → pageAt new a = pageAt old a

variable {pre mid post : List Entry}
variable {limit : ℕ} {heap : Heap}

private theorem removeInside (h : Consistent limit heap (pre ++ mid ++ post))
    (hpre : ∀ x ∈ pre, x.range.stop ≤ range.address)
    (hstart : ∀ x ∈ mid, range.address ≤ x.range.address)
    (hstop : ∀ x ∈ mid, x.range.stop ≤ range.stop)
    (hpost : ∀ x ∈ post, range.stop ≤ x.range.address) :
    ∃ heap' pages, removeEntries pre.length mid.length heap (pre ++ mid ++ post) [] =
        .ok (heap', pre ++ post, pages) ∧
      Consistent limit (heap'.deallocate pages) (pre ++ post) ∧
      Cleared range (pre ++ mid ++ post) (pre ++ post) := by
  obtain ⟨heap', pages, hrem, hc⟩ := removeEntries_spec h []
  refine ⟨heap', pages, hrem, hc.deallocate pages, fun a ha => ?_, fun a ha => ?_⟩
  · rw [contains_iff] at ha
    refine pageAt_of_mem_none fun e he hin => ?_
    rw [contains_iff] at hin
    rcases mem_append.mp he with he | he
    · have := hpre e he
      omega
    · have := hpost e he
      omega
  · have hmid : pageAt mid a = none := pageAt_of_mem_none fun e he hin => by
      have h1 := hstart e he
      have h2 := hstop e he
      rw [contains_iff] at ha hin
      omega
    simp only [pageAt_append, hmid, or_none]

/-- The end of `performUnmap`, once the range begins with the first entry of the middle part. -/
private theorem shrinkLastAndRemove (entryRange : EntryRange)
    (h : Consistent limit heap (pre ++ mid ++ post)) (hl : limit < 2 ^ 64) (hfits : range.Fits)
    (ha : PageAligned range.stop) (hpre : ∀ x ∈ pre, x.range.stop ≤ range.address)
    (hstart : ∀ x ∈ mid, range.address ≤ x.range.address)
    (hmid : ∀ x ∈ mid, x.range.address < range.stop)
    (hpost : ∀ x ∈ post, range.stop ≤ x.range.address)
    (hend : if entryRange.endOverlap then ∃ last, mid.getLast? = some last ∧
      range.stop < last.range.stop else ∀ x ∈ mid, x.range.stop ≤ range.stop) :
    ∃ entries length heap' entries' pages,
      shrinkLastIfNeeded entryRange range (pre ++ mid ++ post) pre.length mid.length =
        .ok (entries, length) ∧
      removeEntries pre.length length heap entries [] = .ok (heap', entries', pages) ∧
      Consistent limit (heap'.deallocate pages) entries' ∧
      Cleared range (pre ++ mid ++ post) entries' := by
  cases hover : entryRange.endOverlap with
  | false =>
    rw [hover, if_neg (by simp)] at hend
    obtain ⟨heap', pages, hrem, hc, hclear⟩ := removeInside h hpre hstart hend hpost
    exact ⟨_, _, heap', _, pages, by simp [shrinkLastIfNeeded, hover], hrem, hc, hclear⟩
  | true =>
    rw [hover, if_pos rfl] at hend
    obtain ⟨last, hlast, hlt⟩ := hend
    obtain ⟨mid', rfl⟩ := getLast?_eq_some_iff.mp hlast
    have hlist : pre ++ (mid' ++ [last]) ++ post = (pre ++ mid') ++ [last] ++ post := by simp
    have h' := h
    rw [hlist] at h'
    have hg := h'.entry last (by simp)
    obtain ⟨hshrink, hc⟩ := shrinkLast_spec h' hl hfits ha (hmid last (by simp)) hlt
    have hinside : ∀ x ∈ mid', x.range.stop ≤ range.stop := by
      intro x hx
      have hord := h'.ordered
      rw [pairwise_append, pairwise_append] at hord
      have h1 := (hord.1.2.2 x (by simp [hx]) last (by simp)).ranges
      have h2 := hmid last (by simp)
      omega
    have hrest : (last.rest (range.stop - last.range.address)).range.address = range.stop := by
      have := hmid last (by simp)
      simp only [rest]
      omega
    have hc' : Consistent limit heap
        (pre ++ mid' ++ ([last.rest (range.stop - last.range.address)] ++ post)) := by
      simpa using hc
    obtain ⟨heap', pages, hrem, hcons, hclear⟩ := removeInside hc' hpre
      (fun x hx => hstart x (by simp [hx])) hinside (by
        simp only [singleton_append, forall_mem_cons]
        exact ⟨le_of_eq hrest.symm, hpost⟩)
    have hlen : pre.length + (mid' ++ [last]).length - 1 = (pre ++ mid').length := by
      simp only [length_append, length_singleton]
      omega
    refine ⟨pre ++ mid' ++ ([last.rest (range.stop - last.range.address)] ++ post), mid'.length,
      heap', _, pages, ?_, hrem, hcons, hclear.inside, fun a hna => ?_⟩
    · have hone : 1 ≤ (mid' ++ [last]).length := by simp
      rw [hlist]
      simp only [shrinkLastIfNeeded, hover, if_true, sub_of_le (Nat.le_add_left_of_le hone),
        ok_bind, hlen, hshrink, sub_of_le hone, pure_eq_ok]
      simp
    · rw [hclear.outside a hna, hlist, ← append_assoc]
      exact pageAt_congr_mid (pageAt_rest hg.noObject (hstart last (by simp))
        (le_of_lt (hmid last (by simp))) hlt hna)

theorem performUnmap_spec {first last : Entry} (hv : self.Valid) (hfits : range.Fits)
    (hpos : 0 < range.size) (ha : PageAligned range.address) (hs : PageAligned range.size)
    (hcut : RangeCut range self.entries pre mid post) (hfirst : mid.head? = some first)
    (hlast : mid.getLast? = some last) :
    ∃ space, performUnmap self (rangeOf range pre mid first last) range = .ok space ∧
      space.range = self.range ∧ space.context = self.context ∧
      Consistent self.range.stop space.heap space.entries ∧
      Cleared range self.entries space.entries := by
  have hc := hv.consistent
  have hl : self.range.stop < 2 ^ 64 := hv.fits
  rw [hcut.cut] at hc
  have hastop : PageAligned range.stop := by
    simp only [pageAligned_iff, stop_eq] at *
    omega
  obtain ⟨ms, rfl⟩ : ∃ ms, mid = first :: ms := head?_eq_some_iff.mp hfirst
  have hms := hcut.address_le hv.consistent
  have hstops : ¬ range.stop < last.range.stop →
      ∀ x ∈ first :: ms, x.range.stop ≤ range.stop := by
    intro hnot x hx
    obtain ⟨init, heq⟩ := getLast?_eq_some_iff.mp hlast
    rw [heq] at hx hcut
    rcases mem_append.mp hx with hx | hx
    · exact hcut.stop_le hv.consistent x hx
    · rw [mem_singleton.mp hx]
      omega
  by_cases hso : first.range.address < range.address
  · have hfs := hcut.start first (by simp)
    by_cases hsingle : ms = [] ∧ range.stop < last.range.stop
    · -- the range lies inside one entry
      obtain ⟨rfl, hend⟩ := hsingle
      simp only [getLast?_singleton, some.injEq] at hlast
      subst hlast
      obtain ⟨heap', second, hsplit, hcons, hsecond, hout⟩ :=
        splitAround_spec hc hl hfits hpos ha hs hso hend
      refine ⟨{ self with heap := heap', entries := pre ++ [first.front
        (range.address - first.range.address), second] ++ post }, ?_, rfl, rfl, hcons, ?_, ?_⟩
      · have hw : (rangeOf range pre [first] first first).isWithinSingleEntry = true := by
          simp [EntryRange.isWithinSingleEntry, rangeOf, hso, hend]
        simp only [performUnmap, hw, if_true, rangeOf_start, hcut.cut, hsplit, ok_bind, pure_eq_ok]
      · intro a hin
        refine pageAt_of_mem_none fun e he hain => ?_
        rw [contains_iff] at hin hain
        simp only [mem_append, mem_cons, not_mem_nil, or_false] at he
        rcases he with (he | rfl | rfl) | he
        · have := hcut.before e he
          omega
        · simp only [Entry.front, stop_eq] at hain
          omega
        · omega
        · have := hcut.behind e he
          omega
      · intro a hna
        rw [hcut.cut]
        exact pageAt_congr_mid (hout a hna)
    · -- the first entry loses its end
      have hc' : Consistent self.range.stop self.heap (pre ++ [first] ++ (ms ++ post)) := by
        simpa using hc
      obtain ⟨hshrink, hc1⟩ := shrinkFirst_spec hc' ha hso hfs
      obtain ⟨front, hfront⟩ : ∃ front, front = first.front
        (range.address - first.range.address) := ⟨_, rfl⟩
      rw [← hfront] at hshrink hc1
      have hfstop : front.range.stop = range.address := by
        rw [hfront]
        simp only [Entry.front, stop_eq]
        omega
      have hc2 : Consistent self.range.stop self.heap ((pre ++ [front]) ++ ms ++ post) := by
        simpa using hc1
      obtain ⟨entries, length, heap', entries', pages, hshr, hrem, hcons, hclear⟩ :=
        shrinkLastAndRemove (rangeOf range pre (first :: ms) first last) hc2 hl hfits hastop
          (by
            simp only [mem_append, mem_singleton]
            rintro x (hx | rfl)
            · exact hcut.before x hx
            · exact le_of_eq hfstop)
          hms (fun x hx => hcut.stop x (by simp [hx])) hcut.behind (by
            by_cases hend : range.stop < last.range.stop
            · simp only [rangeOf, hend, decide_true, if_true]
              have hne : ms ≠ [] := fun h => hsingle ⟨h, hend⟩
              refine ⟨last, ?_, hend⟩
              rw [← hlast, getLast?_cons_of_ne_nil hne]
            · simp only [rangeOf, hend, decide_false, Bool.false_eq_true, if_false]
              exact fun x hx => hstops hend x (by simp [hx]))
      refine ⟨{ self with heap := heap'.deallocate pages, entries := entries' }, ?_, rfl, rfl, hcons,
        hclear.inside, fun a hna => ?_⟩
      · have hw : (rangeOf range pre (first :: ms) first last).isWithinSingleEntry = false := by
          by_contra hyes
          simp only [EntryRange.isWithinSingleEntry, rangeOf, length_cons, Bool.and_eq_true,
            beq_iff_eq, Nat.add_eq_right, length_eq_zero_iff, decide_eq_true_eq,
            Bool.not_eq_false] at hyes
          exact hsingle ⟨hyes.1.1, hyes.2⟩
        have hlist : self.entries = pre ++ [first] ++ (ms ++ post) := by
          rw [hcut.cut]
          simp
        have hlist1 : pre ++ [front] ++ (ms ++ post) = pre ++ [front] ++ ms ++ post := by simp
        have hlen : pre.length + 1 = (pre ++ [front]).length := by simp
        have hsub : sub (first :: ms).length 1 = .ok ms.length := by simp [sub]
        have hfirst : shrinkFirstIfNeeded (rangeOf range pre (first :: ms) first last) range
            self.entries = .ok (pre ++ [front] ++ ms ++ post, (pre ++ [front]).length,
              ms.length) := by
          simp only [shrinkFirstIfNeeded, rangeOf, decide_eq_true hso, if_true, hlist, hshrink,
            ok_bind, hsub, pure_eq_ok, hlist1, hlen]
        simp only [performUnmap, hw, Bool.false_eq_true, if_false, hfirst, hshr, hrem,
          ok_bind, pure_eq_ok]
      · rw [hclear.outside a hna, hcut.cut,
          show pre ++ [front] ++ ms ++ post = pre ++ [front] ++ (ms ++ post) by simp,
          show pre ++ first :: ms ++ post = pre ++ [first] ++ (ms ++ post) by simp]
        -- the first entry is cut only inside the range
        refine pageAt_congr_mid ?_
        have hend : first.range.stop ≤ range.stop := by
          cases ms with
          | nil =>
            cases hlast
            exact Nat.le_of_not_lt fun hend => hsingle ⟨rfl, hend⟩
          | cons m ms =>
            have h1 := ((pairwise_cons.mp (hcut.ordered hv.consistent)).1 m (by simp)).ranges
            have h2 := hcut.stop m (by simp)
            omega
        rw [hfront]
        exact pageAt_front (le_of_lt hso) (le_of_lt hfs) hend hna
  · obtain ⟨entries, length, heap', entries', pages, hshr, hrem, hcons, hclear⟩ :=
      shrinkLastAndRemove (rangeOf range pre (first :: ms) first last) hc hl hfits hastop
        hcut.before
        (by
          simp only [forall_mem_cons]
          exact ⟨Nat.le_of_not_lt hso, hms⟩)
        hcut.stop hcut.behind (by
          by_cases hend : range.stop < last.range.stop
          · simp only [rangeOf, hend, decide_true, if_true]
            exact ⟨last, hlast, hend⟩
          · simp only [rangeOf, hend, decide_false, Bool.false_eq_true, if_false]
            exact hstops hend)
    refine ⟨{ self with heap := heap'.deallocate pages, entries := entries' }, ?_, rfl, rfl, hcons,
      hclear.inside, fun a hna => by rw [hclear.outside a hna, hcut.cut]⟩
    have hw : (rangeOf range pre (first :: ms) first last).isWithinSingleEntry = false := by
      simp [EntryRange.isWithinSingleEntry, rangeOf, hso]
    have hfirst : shrinkFirstIfNeeded (rangeOf range pre (first :: ms) first last) range
        self.entries = .ok (pre ++ first :: ms ++ post, pre.length, (first :: ms).length) := by
      simp only [shrinkFirstIfNeeded, rangeOf, decide_eq_false hso, Bool.false_eq_true, if_false,
        hcut.cut]
    simp only [performUnmap, hw, Bool.false_eq_true, if_false, hfirst, hshr, hrem, ok_bind,
      pure_eq_ok]

theorem Cleared.of_all_before {entries : List Entry}
    (h : ∀ e ∈ entries, e.range.stop ≤ range.address) : Cleared range entries entries where
  inside a ha := pageAt_of_mem_none fun e he hin => by
    have := h e he
    rw [contains_iff] at ha hin
    omega
  outside _ _ := rfl

theorem Cleared.of_empty {entries : List Entry} (h : range.size = 0) :
    Cleared range entries entries where
  inside a ha := by
    simp only [contains_iff, stop_eq] at ha
    omega
  outside _ _ := rfl

/-- The result of `unmap`: an error without any change, or the range is cleared and the requests
cover what was mapped in it. -/
inductive UnmapOutcome (self : AddressSpace) (range : VirtualRange) :
    Except UnmapError (List VirtualRangeBatch) × AddressSpace → Prop where
  | misaligned (h : range.pageAligned = false) :
      UnmapOutcome self range (.error .rangeNotPageAligned, self)
  | outOfMemory : UnmapOutcome self range (.error .outOfMemory, self)
  | done {batches : List VirtualRangeBatch} {space : AddressSpace}
      (hrange : space.range = self.range) (hcontext : space.context = self.context)
      (hvalid : space.Valid)
      (hcleared : Cleared range self.entries space.entries)
      (hbatches : ∀ batch ∈ batches,
        VirtualRangeBatch.Ascending range.address range.stop batch)
      (hcovers : ∀ a, range.Contains a → Mapped self.entries a →
        ∃ batch ∈ batches, batch.Covers a) :
      UnmapOutcome self range (.ok batches, space)

/-- The condition under which `unmap` returns: the search for the range's entries does. -/
def UnmapReturns (self : AddressSpace) (range : VirtualRange) : Prop :=
  range.pageAligned = false ∨ range.size = 0 ∨
    (∀ e ∈ self.entries, e.range.stop ≤ range.address) ∨
    (range.Fits ∧ ∃ e ∈ self.entries, e.range.Overlaps range)

theorem unmap_outcome (hv : self.Valid) (allocation : Allocation)
    (hret : UnmapReturns self range) : ∃ outcome, unmap allocation self range = .ok outcome ∧
      UnmapOutcome self range outcome ∧
      (allocation.entryAvailable = true → outcome.1 ≠ .error .outOfMemory) := by
  by_cases halign : range.pageAligned = false
  · exact ⟨(.error .rangeNotPageAligned, self), by simp [unmap, halign], .misaligned halign,
      by simp⟩
  by_cases hzero : range.size = 0
  · refine ⟨(.ok [], self), by simp [unmap, halign, hzero], ?_, by simp⟩
    refine .done rfl rfl hv (.of_empty hzero) (by simp) fun a ha _ => ?_
    simp only [contains_iff, stop_eq] at ha
    omega
  by_cases hall : ∀ e ∈ self.entries, e.range.stop ≤ range.address
  · refine ⟨(.ok [], self), by simp [unmap, halign, hzero, entryRange_none hv hall], ?_, by simp⟩
    refine .done rfl rfl hv (.of_all_before hall) (by simp) ?_
    rintro a ha ⟨e, he, hin⟩
    have := hall e he
    rw [contains_iff] at ha hin
    omega
  obtain ⟨hfits, hover⟩ : range.Fits ∧ ∃ e ∈ self.entries, e.range.Overlaps range := by
    rcases hret with h | h | h | h
    · exact absurd h halign
    · exact absurd h hzero
    · exact absurd h hall
    · exact h
  have haligned := pageAligned_eq_true.mp (by simpa using halign)
  have hpos : 0 < range.size := pos_of_ne_zero hzero
  obtain ⟨pre, mid, post, first, last, hcut, hfirst, hlast⟩ :=
    hv.consistent.rangeCut_of_overlaps hover
  have hne : mid ≠ [] := ne_nil_of_mem (mem_of_head? hfirst)
  have hlen : (rangeOf range pre mid first last).length ≠ 0 := by
    simpa using hne
  obtain ⟨batches, hbatches, hasc, hcov⟩ := unmapBatches_spec hv.consistent hv.fits hfits hpos
    haligned.1 haligned.2 hcut hfirst hlast [] mid rfl [] range.address
    VirtualRangeBatch.Ascending.nil (Nat.le_add_right _ _) (fun x _ => Nat.le_max_left _ _)
  have hv' : AddressSpace.Valid
      { self with entriesVersion := (self.entriesVersion + 1) % 2 ^ 32 } :=
    ⟨hv.aligned, hv.fits, hv.consistent⟩
  obtain ⟨space, hperform, hrange, hcontext, hcons, hcleared⟩ := performUnmap_spec hv' hfits hpos
    haligned.1 haligned.2 hcut hfirst hlast
  have hindices : (rangeOf range pre mid first last).indices =
      List.range' (pre.length + ([] : List Entry).length) mid.length := rfl
  by_cases hfail : (rangeOf range pre mid first last).isWithinSingleEntry = true ∧
      allocation.entryAvailable = false
  · refine ⟨(.error .outOfMemory, self), ?_, .outOfMemory, by simp [hfail.2]⟩
    simp [unmap, halign, hzero, entryRange_some hv hfits hcut hfirst hlast, assert, hne, hfail.1,
      hfail.2]
  · refine ⟨(.ok batches, space), ?_, ?_, by simp⟩
    · have hcond : ((rangeOf range pre mid first last).isWithinSingleEntry &&
          !allocation.entryAvailable) = false := by
        revert hfail
        cases (rangeOf range pre mid first last).isWithinSingleEntry <;>
          cases allocation.entryAvailable <;> simp
      rw [unmap, if_neg halign, if_neg hzero]
      simp only [entryRange_some hv hfits hcut hfirst hlast, ok_bind, assert_of hlen, hcond,
        Bool.false_eq_true, if_false, hindices, hbatches, hperform, pure_eq_ok]
    · refine .done hrange hcontext ⟨?_, ?_, ?_⟩ hcleared hasc ?_
      · rw [hrange]
        exact hv.aligned
      · rw [hrange]
        exact hv.fits
      · rw [hrange]
        exact hcons
      · rintro a ha ⟨x, hx, hin⟩
        refine hcov a (.inr ⟨x, ?_, clip_contains.mpr ⟨ha, hin⟩⟩)
        refine (hcut.overlaps_iff hv.consistent.entry hx).mp ?_
        rw [contains_iff] at ha hin
        rw [overlaps_iff]
        omega

theorem unmap_returns_iff (hv : self.Valid) (allocation : Allocation) :
    Checked.Returns (unmap allocation self range) ↔ UnmapReturns self range := by
  refine ⟨fun hret => ?_, fun h => ?_⟩
  · by_contra hnot
    simp only [UnmapReturns, not_or] at hnot
    obtain ⟨halign, hzero, hall, hover⟩ := hnot
    rw [unmap, if_neg halign, if_neg hzero, returns_bind] at hret
    obtain ⟨er, her, -⟩ := hret
    exact entryRange_trap hv hall hover ⟨er, her⟩
  · obtain ⟨outcome, houtcome, -⟩ := unmap_outcome hv allocation h
    exact ⟨outcome, houtcome⟩

end

end AddressSpace

end Innigkeit.Memory

import Innigkeit.Memory.AddressSpace.Coalesce
import Innigkeit.Memory.AddressSpace.MapSpec

/-!
When `map` returns at all. The search for a free range forms the end of every
candidate it comes by, and a merge with the entry before the free range adds the
pages of the new entry to a 32-bit count. Nothing else in `map` can trap in a
valid address space.
-/

namespace Innigkeit.Memory.AddressSpace

open Zig List VirtualRange Entry Checked

section

structure HolesTooSmall (start size : ℕ) (entries : List Entry) : Prop where
  first : ∀ x ∈ entries.head?, x.range.address < start + size
  between : entries.IsChain fun x y => y.range.address < x.range.stop + size

/-- The end of every candidate of the search is a machine address. -/
def SearchFits (start size : ℕ) (entries : List Entry) : Prop :=
  start + size < 2 ^ 64 ∧ ∀ pre e post, entries = pre ++ e :: post →
    HolesTooSmall start size (pre ++ [e]) → e.range.stop + size < 2 ^ 64

theorem searchFits_nil {start size : ℕ} : SearchFits start size [] ↔ start + size < 2 ^ 64 := by
  refine ⟨fun h => h.1, fun h => ⟨h, fun pre e post heq => ?_⟩⟩
  simp at heq

variable {e : Entry} {entries : List Entry}

theorem holesTooSmall_cons {start size : ℕ} (hne : entries ≠ []) :
    HolesTooSmall start size (e :: entries) ↔
      e.range.address < start + size ∧ HolesTooSmall e.range.stop size entries := by
  cases entries with
  | nil => exact absurd rfl hne
  | cons x entries =>
    constructor
    · intro h
      have hchain := isChain_cons_cons.mp h.between
      exact ⟨h.first e rfl, fun y hy => by cases hy; exact hchain.1, hchain.2⟩
    · intro h
      refine ⟨fun y hy => by cases hy; exact h.1, isChain_cons_cons.mpr ?_⟩
      exact ⟨h.2.first x rfl, h.2.between⟩

/-- The search goes on behind an entry that the candidate does not end before. -/
theorem searchFits_cons {start size : ℕ} :
    SearchFits start size (e :: entries) ↔ start + size < 2 ^ 64 ∧
      (e.range.address < start + size → SearchFits e.range.stop size entries) := by
  constructor
  · intro h
    refine ⟨h.1, fun hlt => ⟨h.2 [] e entries rfl ⟨?_, .singleton e⟩, ?_⟩⟩
    · intro x hx
      cases hx
      exact hlt
    · intro pre x post heq hsmall
      refine h.2 (e :: pre) x post (by rw [heq, cons_append]) ?_
      rw [cons_append, holesTooSmall_cons (by simp)]
      exact ⟨hlt, hsmall⟩
  · intro h
    refine ⟨h.1, fun pre x post heq hsmall => ?_⟩
    cases pre with
    | nil =>
      cases heq
      exact (h.2 (hsmall.first e rfl)).1
    | cons y pre =>
      rw [cons_append, cons.injEq] at heq
      obtain ⟨rfl, heq⟩ := heq
      rw [cons_append, holesTooSmall_cons (by simp)] at hsmall
      exact (h.2 hsmall.1).2 pre x post heq hsmall.2

private theorem findFreeRange_loop_returns (entries : List Entry)
    (he : ∀ e ∈ entries, e.range.Fits) (candidate : VirtualRange) (i : ℕ) (hfits : candidate.Fits) :
    Returns (findFreeRange.loop entries candidate i) ↔
      SearchFits candidate.address candidate.size entries := by
  induction entries generalizing candidate i with
  | nil => exact iff_of_true ⟨_, rfl⟩ (searchFits_nil.mpr hfits)
  | cons e entries ih =>
    rw [forall_mem_cons] at he
    have hstop := candidate.stop_eq
    rw [findFreeRange.loop, after_of_fits hfits, ok_bind, searchFits_cons]
    by_cases hle : candidate.stop ≤ e.range.address
    · rw [if_pos hle]
      refine iff_of_true ⟨_, rfl⟩ ⟨hfits, fun hlt => ?_⟩
      omega
    · rw [if_neg hle, after_of_fits he.1, ok_bind]
      have hlt : e.range.address < candidate.address + candidate.size := by omega
      by_cases hnext : Fits { candidate with address := e.range.stop }
      all_goals simp only
      · rw [after_of_fits hnext, ok_bind, ih he.2 _ _ hnext]
        exact ⟨fun h => ⟨hfits, fun _ => h⟩, fun h => h.2 hlt⟩
      · refine iff_of_false ?_ fun h => hnext (h.2 hlt).1
        rw [returns_bind]
        intro h
        obtain ⟨stop, hstop, _⟩ := h
        exact hnext (after_eq_ok.mp hstop).1

variable {free : FreeRange}

/-- The candidate that the search ends with has its end formed as well. -/
private theorem findFreeRange_loop_fits (entries : List Entry)
    (candidate : VirtualRange) (i : ℕ) (hfits : candidate.Fits)
    (h : findFreeRange.loop entries candidate i = .ok free) : free.range.Fits := by
  induction entries generalizing candidate i with
  | nil =>
    cases h
    exact hfits
  | cons e entries ih =>
    rw [findFreeRange.loop, after_of_fits hfits, ok_bind] at h
    split at h
    · cases h
      exact hfits
    · obtain ⟨stop, -, h⟩ := bind_eq_ok.mp h
      obtain ⟨stop', hstop', h⟩ := bind_eq_ok.mp h
      exact ih _ _ (after_eq_ok.mp hstop').1 h

theorem findFreeRange_returns_iff {space : AddressSpace} (hrange : space.range.Fits)
    (he : ∀ e ∈ space.entries, e.range.Fits) (size : ℕ) :
    Returns (space.findFreeRange size) ↔
      SearchFits space.range.address size space.entries := by
  by_cases hfits : Fits ⟨space.range.address, size⟩
  · rw [findFreeRange, after_of_fits hfits, ok_bind, returns_bind]
    have hloop := findFreeRange_loop_returns space.entries he _ 0 hfits
    rw [← hloop]
    constructor
    · intro h
      obtain ⟨free, hfree, _⟩ := h
      exact ⟨free, hfree⟩
    · intro h
      obtain ⟨free, hfree⟩ := h
      refine ⟨free, hfree, ?_⟩
      have hfound := findFreeRange_loop_fits space.entries _ 0 hfits hfree
      rw [after_of_fits hfound, after_of_fits hrange, ok_bind, ok_bind]
      split <;> exact ⟨_, rfl⟩
  · refine iff_of_false ?_ fun h => hfits h.1
    rw [findFreeRange, returns_bind]
    intro h
    obtain ⟨stop, hstop, _⟩ := h
    exact hfits (after_eq_ok.mp hstop).1

/-- A hole of `size` bytes at `address`, in the sense of `anyOverlap`. -/
def Gap (space : AddressSpace) (size address : ℕ) : Prop :=
  space.range.address ≤ address ∧ address + size ≤ space.range.stop ∧
    ∀ e ∈ space.entries, ¬ (VirtualRange.mk address size).Overlaps e.range

/-- The candidate never moves past a hole that is large enough. -/
private theorem findFreeRange_loop_le
    (candidate : VirtualRange) {i address : ℕ} (hle : candidate.address ≤ address)
    (hgap : ∀ e ∈ entries, ¬ (VirtualRange.mk address candidate.size).Overlaps e.range)
    (h : findFreeRange.loop entries candidate i = .ok free) : free.range.address ≤ address := by
  induction entries generalizing candidate i with
  | nil =>
    cases h
    exact hle
  | cons e entries ih =>
    rw [forall_mem_cons] at hgap
    simp only [findFreeRange.loop, bind_eq_ok, after_eq_ok] at h
    obtain ⟨_, ⟨-, rfl⟩, h⟩ := h
    split at h
    · cases h
      exact hle
    · rename_i hlt
      simp only [bind_eq_ok, after_eq_ok] at h
      obtain ⟨_, ⟨-, rfl⟩, _, -, h⟩ := h
      refine ih ⟨e.range.stop, candidate.size⟩ ?_ hgap.2 h
      -- the candidate reaches into the entry, so a hole after its start is behind the entry
      have hnot := hgap.1
      simp only [overlaps_iff, stop_eq] at hnot hlt ⊢
      omega

/-- The first-fit search is complete. -/
theorem findFreeRange_isLeast {space : AddressSpace} {size : ℕ} (hrange : space.range.Fits)
    (hord : space.entries.Pairwise fun x y => x.range.stop ≤ y.range.address)
    (hin : ∀ e ∈ space.entries,
      space.range.address ≤ e.range.address ∧ e.range.stop ≤ space.range.stop)
    (hfits : SearchFits space.range.address size space.entries) :
    ∃ found, space.findFreeRange size = .ok found ∧
      (found = none ↔ ∀ address, ¬ space.Gap size address) ∧
      ∀ free ∈ found, free.range.size = size ∧ space.Gap size free.range.address ∧
        (∀ address, space.Gap size address → free.range.address ≤ address) ∧
        ∃ pre post, space.entries = pre ++ post ∧ free.insertionIndex = pre.length ∧
          ∀ entry : Entry, entry.range = free.range →
            (pre ++ entry :: post).Pairwise fun x y => x.range.stop ≤ y.range.address := by
  have he : ∀ e ∈ space.entries, e.range.Fits := fun e he => lt_of_le_of_lt (hin e he).2 hrange
  obtain ⟨found, hfound⟩ := (findFreeRange_returns_iff hrange he size).mpr hfits
  refine ⟨found, hfound, ?_⟩
  have h := hfound
  simp only [findFreeRange, bind_eq_ok, after_of_fits hrange, ok_bind, after_eq_ok] at h
  obtain ⟨_, -, free, hloop, _, ⟨-, rfl⟩, h⟩ := h
  have hleast (address : ℕ) (hgap : space.Gap size address) : free.range.address ≤ address :=
    findFreeRange_loop_le ⟨space.range.address, size⟩ hgap.1 hgap.2.2 hloop
  obtain ⟨hsize, pre, post, hindex, hfit⟩ := findFreeRange_loop_spec _ _ _ hord hloop
  split at h
  · rename_i hstop
    cases h
    have hgap : space.Gap size free.range.address := by
      refine ⟨?_, by simpa only [stop_eq, hsize] using hstop, fun e he hover => ?_⟩
      · rcases hfit.last with ⟨-, heq⟩ | ⟨x, hx, heq⟩
        · exact heq.ge
        · have hx := (hin x (by rw [hfit.cut]; simp [hx])).1
          exact heq ▸ Nat.le_trans hx (Nat.le_add_right _ _)
      · rw [hfit.cut, mem_append] at he
        rcases he with he | he
        · exact absurd hover.1 (not_lt.mpr (hfit.before e he))
        · exact absurd hover.2 (not_lt.mpr (hfit.behind e he))
    refine ⟨by simpa using ⟨_, hgap⟩, fun other hother => ?_⟩
    cases hother
    refine ⟨hsize, hgap, hleast, pre, post, hfit.cut, by simpa using hindex, fun entry hentry => ?_⟩
    rw [hfit.cut, pairwise_append] at hord
    have hbehind : ∀ y ∈ post, entry.range.stop ≤ y.range.address := by
      rw [hentry, stop_eq, hsize]
      exact hfit.behind
    refine pairwise_append.mpr ⟨hord.1, .cons hbehind hord.2.1, fun x hx => ?_⟩
    exact forall_mem_cons.mpr ⟨hentry ▸ hfit.before x hx, hord.2.2 x hx⟩
  · rename_i hlt
    cases h
    refine ⟨iff_of_true rfl fun address hgap => hlt ?_, by simp⟩
    have hle := hleast address hgap
    rw [stop_eq, hsize]
    exact Nat.le_trans (Nat.add_le_add_right hle size) hgap.2.1

/-- Two free pages behind a mapped one, in a space whose first page is too small a hole. -/
theorem findFreeRange_isLeast_behind_entry :
    let entry : Entry :=
      { range := ⟨0x2000, 0x1000⟩, protection := .none, maxProtection := .none,
        copyOnWrite := false, needsCopy := false }
    let space : AddressSpace := { range := ⟨0x1000, 0x4000⟩, context := .user, entries := [entry] }
    space.findFreeRange 0x2000 = .ok (some ⟨⟨0x3000, 0x2000⟩, 1⟩) ∧ space.Gap 0x2000 0x3000 := by
  intro entry space
  have hfits : SearchFits 0x1000 0x2000 [entry] := by
    rw [searchFits_cons, searchFits_nil]
    decide
  obtain ⟨found, hfound, -, hfree⟩ := @findFreeRange_isLeast space 0x2000 (by decide)
    (pairwise_singleton _ _) (by decide) hfits
  have heq : space.findFreeRange 0x2000 = .ok (some ⟨⟨0x3000, 0x2000⟩, 1⟩) := by decide
  cases heq.symm.trans hfound
  exact ⟨heq, (hfree _ rfl).2.1⟩

end

section

variable {limit : ℕ} {heap : Heap} {pre post rest : List Entry} {entry : Entry} {merges : ℕ}

theorem last_of_adjacent (h : Consistent limit heap (pre ++ entry :: post)) {x : Entry}
    (hx : x ∈ pre ++ entry :: post) (hadj : x.range.stop = entry.range.address) :
    pre.getLast? = some x := by
  have hord := h.ordered
  have hpos {e : Entry} (he : e ∈ pre ++ entry :: post) : e.range.address < e.range.stop :=
    Nat.lt_add_of_pos_right (h.entry e he).nonempty
  rw [pairwise_append, pairwise_cons] at hord
  obtain ⟨hpre, ⟨hpost, -⟩, hacross⟩ := hord
  have hxpos := hpos hx
  rw [mem_append, mem_cons] at hx
  cases hx with
  | inl hx =>
    cases eq_nil_or_concat pre with
    | inl hnil =>
      rw [hnil] at hx
      cases hx
    | inr hconcat =>
      obtain ⟨front, z, rfl⟩ := hconcat
      rw [concat_eq_append] at *
      rw [getLast?_concat]
      rw [mem_append, mem_singleton] at hx
      cases hx with
      | inl hx =>
        -- `z` would have to fit between the two
        have h1 := ((pairwise_append.mp hpre).2.2 x hx z (by simp)).ranges
        have h2 := (hacross z (by simp) entry (by simp)).ranges
        have h3 := hpos (show z ∈ front ++ [z] ++ entry :: post by simp)
        omega
      | inr hx => rw [hx]
  | inr hx =>
    cases hx with
    | inl hx =>
      rw [hx] at hadj hxpos
      omega
    | inr hx =>
      have h1 := (hpost x hx).ranges
      have h2 := hpos (show entry ∈ pre ++ entry :: post by simp)
      omega

theorem mergePreceding_returns_iff (h : Consistent limit heap (pre ++ [entry] ++ post))
    (hl : limit < 2 ^ 64) :
    Returns (mergePreceding heap (pre ++ rest) pre.length entry merges) ↔
      ∀ x ∈ pre.getLast?, Mergeable heap x entry → CountFits heap x entry := by
  by_cases hex : ∃ x ∈ pre.getLast?, Mergeable heap x entry
  · obtain ⟨x, hlast, hm⟩ := hex
    obtain ⟨pre, rfl⟩ : ∃ pre', pre = pre' ++ [x] := getLast?_eq_some_iff.mp hlast
    have h' : Consistent limit heap (pre ++ [x, entry] ++ post) := by simpa using h
    rw [mergePreceding_merged h' hl hm, returns_bind]
    constructor
    · intro h y hy _
      obtain ⟨merged, hmerged, _⟩ := h
      obtain rfl : x = y := Option.some.inj (hlast.symm.trans hy)
      exact h'.countFits_of_merge_returns ⟨merged, hmerged⟩
    · intro hfit
      exact ⟨_, h'.merge_eq hm hl (hfit x hlast hm), _, rfl⟩
  · rw [mergePreceding_unmerged h hl fun x hx hm => hex ⟨x, hx, hm⟩]
    exact iff_of_true ⟨_, rfl⟩ fun x hx hm => absurd ⟨x, hx, hm⟩ hex

end

section

variable {self : AddressSpace} {options : MapOptions} {free : FreeRange} {pre post : List Entry}
  {allocation : Allocation}

/-- The counts of pages stay 32-bit numbers when the new entry, with the entry behind it if that is
absorbed first, is merged with the one before it. -/
def MergeFits (space : AddressSpace) (options : MapOptions) : Prop :=
  ∀ free x, space.freeRange options = .ok (some free) → x ∈ space.entries →
    Mergeable space.heap x (localEntry options free.range) →
    CountFits space.heap x (localEntry options free.range) ∧
      ∀ y ∈ space.entries, Mergeable space.heap (localEntry options free.range) y →
        CountFits space.heap x ((localEntry options free.range).join y)

variable {entry : Entry}

/-- After the merge with the following entry only the merge with the preceding one can trap. -/
private theorem insertEntry_returns_of_follow (hfree : self.FreeAt free pre post)
    (htype : options.type = .zeroFill) {rest : List Entry} {merges : ℕ}
    (hfollow : mergeFollowing self.heap (pre ++ post) pre.length (localEntry options free.range) =
      .ok (self.heap, pre ++ rest, entry, merges)) :
    Returns (insertEntry allocation self options free) ↔
      Returns (mergePreceding self.heap (pre ++ rest) pre.length entry merges) := by
  simp only [insertEntry, hfree.cut, hfree.index, hfollow, ok_bind, returns_bind]
  constructor
  · intro h
    obtain ⟨merged, hmerged, _⟩ := h
    exact ⟨merged, hmerged⟩
  · intro h
    obtain ⟨merged, hmerged⟩ := h
    refine ⟨merged, hmerged, ?_⟩
    simp only [referenceObject, htype]
    split
    · split <;> exact ⟨_, rfl⟩
    · exact ⟨_, rfl⟩

variable {heap : Heap}

private theorem mergeable_join {x y : Entry} :
    Mergeable heap x (entry.join y) ↔ Mergeable heap x entry :=
  ⟨fun h => ⟨h.protection, h.maxProtection, h.copyOnWrite, h.wiredCount, h.adjacent, h.maps⟩,
    fun h => ⟨h.protection, h.maxProtection, h.copyOnWrite, h.wiredCount, h.adjacent, h.maps⟩⟩

private theorem countFits_of_join {x y : Entry}
    (h : CountFits heap x (entry.join y)) : CountFits heap x entry := by
  intro id map hid hnone hmap
  have hlt := h id map hid hnone hmap
  have hle : entry.range.size / standardPageSize ≤ (entry.join y).range.size / standardPageSize :=
    Nat.div_le_div_right (Nat.le_add_right _ _)
  omega

/-- In a valid space the insertion at a free range traps only when a count of pages overflows. -/
theorem insertEntry_returns_iff (hv : self.Valid) (hacc : options.Accepted)
    (htype : options.type = .zeroFill) (hfound : FoundFree self options free pre post) :
    Returns (insertEntry allocation self options free) ↔
      ∀ x ∈ self.entries, Mergeable self.heap x (localEntry options free.range) →
        CountFits self.heap x (localEntry options free.range) ∧
          ∀ y ∈ self.entries, Mergeable self.heap (localEntry options free.range) y →
            CountFits self.heap x ((localEntry options free.range).join y) := by
  obtain ⟨entry, hentry⟩ : ∃ entry, entry = localEntry options free.range := ⟨_, rfl⟩
  have hfree := hfound.freeAt
  have hl : self.range.stop < 2 ^ 64 := hv.fits
  have hnone : entry.anonymousMap = none := by rw [hentry]; rfl
  have hg : entry.Good self.range.stop self.heap := by
    rw [hentry]
    exact localEntry_good hacc hfound (by simp [localEntry, htype])
  have hrange : entry.range = free.range := by rw [hentry]; rfl
  have hc := hv.consistent
  rw [hfree.cut] at hc
  have hins := hc.insert hg hnone (hrange ▸ hfree.before) (hrange ▸ hfree.behind)
  have hins' : Consistent self.range.stop self.heap (pre ++ entry :: post) := by simpa using hins
  have hmem {e : Entry} (he : e ∈ self.entries) : e ∈ pre ++ entry :: post := by
    rw [hfree.cut, mem_append] at he
    exact mem_append.mpr (he.imp_right (mem_cons_of_mem _))
  have hlast {x : Entry} (hx : x ∈ self.entries) (hm : Mergeable self.heap x entry) :
      x ∈ pre.getLast? := last_of_adjacent hins' (hmem hx) hm.adjacent
  have hhead {y : Entry} (hy : y ∈ self.entries) (hm : Mergeable self.heap entry y) :
      y ∈ post.head? := head_of_adjacent hins' (hmem hy) hm.adjacent
  have hpre {x : Entry} (hx : x ∈ pre.getLast?) : x ∈ self.entries := by
    rw [hfree.cut]
    exact mem_append_left _ (mem_of_getLast? hx)
  rw [← hentry]
  by_cases hex : ∃ y ∈ post.head?, Mergeable self.heap entry y
  · obtain ⟨y, hy, hm⟩ := hex
    obtain ⟨post', rfl⟩ : ∃ post', post = y :: post' := head?_eq_some_iff.mp hy
    have hpair : Consistent self.range.stop self.heap (pre ++ [entry, y] ++ post') := by
      simpa using hins
    have hjoin := hpair.merge hm fun id map hid => by simp [hnone] at hid
    rw [show self.heap.mergeReferences entry y = self.heap by
      simp only [Heap.mergeReferences, hnone]] at hjoin
    have hfollow := mergeFollowing_merged hpair hl hnone hm
    rw [hentry] at hfollow
    rw [insertEntry_returns_of_follow hfree htype hfollow, ← hentry,
      mergePreceding_returns_iff hjoin hl]
    have hyin : y ∈ self.entries := by rw [hfree.cut]; simp
    constructor
    · intro h x hx hmx
      have hfit := h x (hlast hx hmx) (mergeable_join.mpr hmx)
      refine ⟨countFits_of_join hfit, fun z hz hmz => ?_⟩
      obtain rfl : y = z := Option.some.inj (hy.symm.trans (hhead hz hmz))
      exact hfit
    · intro h x hx hmx
      exact (h x (hpre hx) (mergeable_join.mp hmx)).2 y hyin hm
  · have hfollow := mergeFollowing_unmerged hins hl fun y hy hm => hex ⟨y, hy, hm⟩
    rw [hentry] at hfollow
    rw [insertEntry_returns_of_follow hfree htype hfollow, ← hentry,
      mergePreceding_returns_iff hins hl]
    constructor
    · intro h x hx hmx
      exact ⟨h x (hlast hx hmx) hmx, fun y hy hmy => absurd ⟨y, hhead hy hmy, hmy⟩ hex⟩
    · intro h x hx hmx
      exact (h x (hpre hx) hmx).1

theorem map_returns_iff (hv : self.Valid) (hvalid : validateMapOptions options = .ok ())
    (hbase : options.base = none) (htype : options.type = .zeroFill) (allocation : Allocation) :
    Returns (map allocation self options) ↔
      SearchFits self.range.address options.size self.entries ∧ MergeFits self options := by
  have hacc := validateMapOptions_accepted hvalid
  have hsearch : self.freeRange options = self.findFreeRange options.size := by
    rw [freeRange, hbase]
  have hfits : ∀ e ∈ self.entries, e.range.Fits := fun e he =>
    (hv.consistent.entry e he).fits hv.fits
  rw [map, hvalid, returns_bind, ← findFreeRange_returns_iff hv.fits hfits, ← hsearch]
  constructor
  · intro h
    obtain ⟨found, hfree, hrest⟩ := h
    refine ⟨⟨found, hfree⟩, fun free x hfree' => ?_⟩
    rw [hfree, Except.ok.injEq] at hfree'
    subst hfree'
    obtain ⟨pre, post, hfound⟩ := freeRange_spec hv hacc hfree
    exact (insertEntry_returns_iff hv hacc htype hfound).mp hrest x
  · intro h
    obtain ⟨⟨found, hfree⟩, hfit⟩ := h
    refine ⟨found, hfree, ?_⟩
    cases found with
    | none => exact ⟨_, rfl⟩
    | some free =>
      obtain ⟨pre, post, hfound⟩ := freeRange_spec hv hacc hfree
      exact (insertEntry_returns_iff hv hacc htype hfound).mpr fun x => hfit free x hfree

end

end Innigkeit.Memory.AddressSpace

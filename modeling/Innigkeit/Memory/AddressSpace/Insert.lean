import Innigkeit.Memory.AddressSpace.FreeRange
import Innigkeit.Memory.AddressSpace.Merge
import Innigkeit.Memory.AddressSpace.Release
import Innigkeit.Library.Surgery

/-!
The insertion of a new entry by `map`. Whatever it is merged with, the result
shows the pages of the entries with the new one put between them; the range
that is returned is the new entry's own only if the entry that follows was not
merged into it.
-/

namespace Innigkeit.Memory

open Zig List Except VirtualRange Entry Surgery Option Page

theorem Page.Keeps.trans {heap : Heap} {first second third : Page}
    (h1 : Keeps heap first second) (h2 : Keeps heap second third) :
    Keeps heap first third where
  protection := h2.protection.trans h1.protection
  maxProtection := h2.maxProtection.trans h1.maxProtection
  objectOffset := h2.objectOffset.trans h1.objectOffset
  slot slot h := h2.slot slot (h1.slot slot h)
  fresh slot hnone hslot := by
    cases hmid : second.anonymousSlot with
    | none => exact h2.fresh slot hmid hslot
    | some slot' =>
      have heq := h2.slot slot' hmid
      rw [hslot, some.injEq] at heq
      exact h1.fresh slot hnone (heq ▸ hmid)

variable {R : Page → Page → Prop} {address : ℕ}

theorem pageAt_congr (hrefl : ∀ p, R p p) {pre mid mid' post : List Entry}
    (h : Rel R (pageAt mid address) (pageAt mid' address)) :
    Rel R (pageAt (pre ++ mid ++ post) address) (pageAt (pre ++ mid' ++ post) address) := by
  have hself (o : Option Page) : Rel R o o := rel_refl hrefl o
  simp only [pageAt_append]
  generalize pageAt mid address = x at h
  generalize pageAt mid' address = y at h
  cases pageAt pre address with
  | some p => exact hself _
  | none =>
    simp only [none_or]
    cases h with
    | none => exact hself _
    | some hR => exact .some hR

theorem Mapped.iff_of_rel {xs ys : List Entry}
    (h : Rel R (pageAt xs address) (pageAt ys address)) :
    Mapped ys address ↔ Mapped xs address := by
  rw [← not_iff_not, ← pageAt_eq_none, ← pageAt_eq_none]
  generalize pageAt xs address = x at h
  generalize pageAt ys address = y at h
  cases h <;> simp

theorem Entry.anyOverlap_of_precedes {limit : ℕ} {heap : Heap} {first second : Entry}
    (hf : first.Good limit heap) (hs : second.Good limit heap) (hl : limit < 2 ^ 64)
    (h : first.range.stop ≤ second.range.address) :
    first.anyOverlap second = .ok false ∧ second.anyOverlap first = .ok false := by
  have h1 : first.range.Fits := lt_of_le_of_lt hf.below hl
  have h2 : second.range.Fits := lt_of_le_of_lt hs.below hl
  constructor
  · rw [anyOverlap, anyOverlap_of_fits h1 h2]
    simp only [overlaps_iff, ok.injEq, decide_eq_false_iff_not]
    omega
  · rw [anyOverlap, anyOverlap_of_fits h2 h1]
    simp only [overlaps_iff, ok.injEq, decide_eq_false_iff_not]
    omega

namespace AddressSpace

section

variable {limit : ℕ} {heap : Heap} {pre post : List Entry} {entry : Entry}

theorem mergeFollowing_unmerged (h : Consistent limit heap (pre ++ [entry] ++ post))
    (hl : limit < 2 ^ 64) (hno : ∀ y ∈ post.head?, ¬ Mergeable heap entry y) :
    mergeFollowing heap (pre ++ post) pre.length entry = .ok (heap, pre ++ post, entry, 0) := by
  cases post with
  | nil => simp [mergeFollowing]
  | cons y post =>
    have he := h.entry entry (by simp)
    have hy := h.entry y (by simp)
    have hord := h.ordered
    simp only [pairwise_append, mem_append, mem_singleton] at hord
    have hprec := (hord.2.2 entry (.inr rfl) y (by simp)).ranges
    have hget : (pre ++ y :: post)[pre.length]? = some y := by simp
    have hne : pre.length ≠ (pre ++ y :: post).length := by simp
    obtain ⟨b, hb, hiff⟩ := canMerge_eq he hy h.heap hl
    have hfalse : b = false := by
      have := hno y (by simp)
      rw [← hiff] at this
      simpa using this
    simp only [mergeFollowing, hne, if_false, index_of hget, ok_bind,
      (anyOverlap_of_precedes he hy hl hprec).1, assert_true, hb, hfalse,
      Bool.false_eq_true, pure_eq_ok]

theorem mergeFollowing_merged {y : Entry} (h : Consistent limit heap (pre ++ [entry, y] ++ post))
    (hl : limit < 2 ^ 64) (hnone : entry.anonymousMap = none) (hm : Mergeable heap entry y) :
    mergeFollowing heap (pre ++ y :: post) pre.length entry =
      .ok (heap, pre ++ entry.join y :: post, entry.join y, 1) := by
  have he := h.entry entry (by simp)
  have hy := h.entry y (by simp)
  have hget : (pre ++ y :: post)[pre.length]? = some y := by simp
  have hne : pre.length ≠ (pre ++ y :: post).length := by simp
  obtain ⟨b, hb, hiff⟩ := canMerge_eq he hy h.heap hl
  have htrue : b = true := hiff.mpr hm
  have hmerge := h.merge_eq hm hl (fun id map hid => by simp [hnone] at hid)
  have hheap : heap.mergeReferences entry y = heap := by simp only [Heap.mergeReferences, hnone]
  simp only [mergeFollowing, hne, if_false, index_of hget, ok_bind,
    (anyOverlap_of_precedes he hy hl (le_of_eq hm.adjacent)).1, assert_true, hb, htrue,
    if_true, hmerge, hheap, pure_eq_ok]
  simp

theorem mergePreceding_unmerged (h : Consistent limit heap (pre ++ [entry] ++ post))
    (hl : limit < 2 ^ 64) (hno : ∀ x ∈ pre.getLast?, ¬ Mergeable heap x entry)
    (rest : List Entry) (merges : ℕ) :
    mergePreceding heap (pre ++ rest) pre.length entry merges =
      .ok (heap, pre ++ rest, merges) := by
  rcases eq_nil_or_concat pre with rfl | ⟨pre', x, rfl⟩
  · simp [mergePreceding]
  · rw [concat_eq_append] at *
    have hx := h.entry x (by simp)
    have he := h.entry entry (by simp)
    have hord := h.ordered
    simp only [pairwise_append, mem_append, mem_singleton] at hord
    have hprec := (hord.1.2.2 x (.inr rfl) entry rfl).ranges
    have hget : (pre' ++ [x] ++ rest)[(pre' ++ [x]).length - 1]? = some x := by simp
    have hne : (pre' ++ [x]).length ≠ 0 := by simp
    obtain ⟨b, hb, hiff⟩ := canMerge_eq hx he h.heap hl
    have hfalse : b = false := by
      have := hno x (by simp)
      rw [← hiff] at this
      simpa using this
    simp only [mergePreceding, hne, if_false, index_of hget, ok_bind,
      (anyOverlap_of_precedes hx he hl hprec).2, assert_true, hb, hfalse,
      Bool.false_eq_true, pure_eq_ok]

theorem mergePreceding_merged {x : Entry} (h : Consistent limit heap (pre ++ [x, entry] ++ post))
    (hl : limit < 2 ^ 64) (hm : Mergeable heap x entry) (rest : List Entry) (merges : ℕ) :
    mergePreceding heap (pre ++ [x] ++ rest) (pre ++ [x]).length entry merges = (do
      let (heap, merged) ← x.merge heap entry
      return (heap, pre ++ [merged] ++ (if merges ≠ 0 then rest.tail else rest), merges + 1)) := by
  have hx := h.entry x (by simp)
  have he := h.entry entry (by simp)
  have hget : (pre ++ [x] ++ rest)[(pre ++ [x]).length - 1]? = some x := by simp
  have hne : (pre ++ [x]).length ≠ 0 := by simp
  obtain ⟨b, hb, hiff⟩ := canMerge_eq hx he h.heap hl
  have htrue : b = true := hiff.mpr hm
  simp only [mergePreceding, hne, if_false, index_of hget, ok_bind,
    (anyOverlap_of_precedes hx he hl (le_of_eq hm.adjacent)).2, assert_true, hb, htrue, if_true]
  cases x.merge heap entry with
  | error t => rfl
  | ok result =>
    simp only [ok_bind, pure_eq_ok]
    by_cases hmerges : merges = 0
    · simp [hmerges]
    · cases rest <;> simp [hmerges, eraseIdx_append_of_length_le]

end

def placeEntry (entries : List Entry) (i : ℕ) (entry : Entry) (merges : ℕ) : List Entry :=
  if merges = 0 then entries.insertIdx i entry else entries

/-- The second half of the insertion, from an entry that may have absorbed the one behind it. -/
private theorem mergePreceding_spec {limit : ℕ} {heap heap' : Heap}
    {pre post rest entries : List Entry} {entry : Entry} {merges merges' : ℕ}
    (h : Consistent limit heap (pre ++ [entry] ++ post)) (hl : limit < 2 ^ 64)
    (hrest : merges = 0 ∧ rest = post ∨ merges = 1 ∧ rest = entry :: post)
    (hres : mergePreceding heap (pre ++ rest) pre.length entry merges =
      .ok (heap', entries, merges')) :
    Consistent limit heap' (placeEntry entries pre.length entry merges') ∧
      (∀ a, Rel (Keeps heap) (pageAt (pre ++ [entry] ++ post) a)
        (pageAt (placeEntry entries pre.length entry merges') a)) ∧
      ∀ a, ¬ entry.range.Contains a → pageAt (placeEntry entries pre.length entry merges') a =
        pageAt (pre ++ [entry] ++ post) a := by
  by_cases hex : ∃ x ∈ pre.getLast?, Mergeable heap x entry
  · obtain ⟨x, hlast, hm⟩ := hex
    obtain ⟨pre, rfl⟩ : ∃ pre', pre = pre' ++ [x] := getLast?_eq_some_iff.mp hlast
    have h' : Consistent limit heap (pre ++ [x, entry] ++ post) := by simpa using h
    rw [mergePreceding_merged h' hl hm] at hres
    have hfit : CountFits heap x entry := h'.countFits_of_merge_returns (by
      rw [bind_eq_ok] at hres
      obtain ⟨merged, hmerged, -⟩ := hres
      exact ⟨merged, hmerged⟩)
    rw [h'.merge_eq hm hl hfit] at hres
    simp only [ok_bind, pure_eq_ok, ok.injEq, Prod.mk.injEq] at hres
    obtain ⟨rfl, rfl, rfl⟩ := hres
    have hplace : placeEntry (pre ++ [x.join entry] ++ if merges ≠ 0 then rest.tail else rest)
        (pre ++ [x]).length entry (merges + 1) = pre ++ [x.join entry] ++ post := by
      rcases hrest with ⟨rfl, rfl⟩ | ⟨rfl, rfl⟩ <;> simp [placeEntry]
    rw [hplace]
    rw [show pre ++ [x] ++ [entry] ++ post = pre ++ [x, entry] ++ post by simp]
    refine ⟨h'.merge hm hfit, fun a => ?_, fun a ha => ?_⟩
    · exact pageAt_congr (Keeps.refl heap) (pageAt_join hm (h'.entry x (by simp)).noObject
        (h'.entry entry (by simp)).noObject)
    · simp only [pageAt_append, pageAt_join_outside hm ha]
  · rw [mergePreceding_unmerged h hl (fun x hx hm => hex ⟨x, hx, hm⟩)] at hres
    simp only [ok.injEq, Prod.mk.injEq] at hres
    obtain ⟨rfl, rfl, rfl⟩ := hres
    have hplace : placeEntry (pre ++ rest) pre.length entry merges = pre ++ [entry] ++ post := by
      rcases hrest with ⟨rfl, rfl⟩ | ⟨rfl, rfl⟩
      · simp [placeEntry]
      · simp [placeEntry]
    rw [hplace]
    exact ⟨h, fun a => rel_refl (Keeps.refl heap) _, fun _ _ => rfl⟩

structure Inserted (space : AddressSpace) (entry : Entry) (pre post : List Entry)
    (returned : VirtualRange) (space' : AddressSpace) : Prop where
  range : space'.range = space.range
  context : space'.context = space.context
  consistent : Consistent space.range.stop space'.heap space'.entries
  pages : ∀ a, Rel (Keeps space.heap) (pageAt (pre ++ [entry] ++ post) a)
    (pageAt space'.entries a)
  others : (∀ y ∈ post.head?, ¬ Mergeable space.heap entry y) → ∀ a, ¬ entry.range.Contains a →
    pageAt space'.entries a = pageAt (pre ++ [entry] ++ post) a
  returned :
    (∀ y ∈ post.head?, ¬ Mergeable space.heap entry y) ∧ returned = entry.range ∨
      ∃ y ∈ post.head?, Mergeable space.heap entry y ∧ returned = (entry.join y).range

section

variable {self space : AddressSpace} {options : MapOptions} {free : FreeRange}
  {pre post : List Entry} {allocation : Allocation} {result : Except MapError VirtualRange}

private theorem referenceObject_eq {limit : ℕ} {heap' : Heap} {range : VirtualRange}
    (hg : (localEntry options range).Good limit heap') (heap : Heap) :
    referenceObject heap options = .ok heap := by
  have hno := hg.noObject
  unfold referenceObject
  split
  · rename_i id offset heq
    simp [localEntry, heq] at hno
  · rfl

private theorem insertEntry_result (hfree : self.FreeAt free pre post)
    (hg : (localEntry options free.range).Good self.range.stop self.heap) {entry : Entry}
    {rest : List Entry} {merges : ℕ}
    (hfollow : mergeFollowing self.heap (pre ++ post) pre.length (localEntry options free.range) =
      .ok (self.heap, pre ++ rest, entry, merges))
    (h : insertEntry allocation self options free = .ok (result, space)) :
    result = .error .outOfMemory ∧ space = self ∨
      ∃ heap entries merges',
        mergePreceding self.heap (pre ++ rest) pre.length entry merges =
          .ok (heap, entries, merges') ∧
        result = .ok entry.range ∧ space = { self with
          heap, entries := placeEntry entries pre.length entry merges'
          entriesVersion := (self.entriesVersion + 1) % 2 ^ 32 } := by
  simp only [insertEntry, hfree.cut, hfree.index, hfollow, ok_bind, bind_eq_ok] at h
  obtain ⟨⟨heap, entries, merges'⟩, hprec, h⟩ := h
  by_cases hzero : merges' = 0
  · simp only [hzero, if_true, referenceObject_eq hg, ok_bind] at h
    split at h
    · simp only [pure_eq_ok, ok.injEq, Prod.mk.injEq] at h
      exact .inl ⟨h.1.symm, h.2.symm⟩
    · simp only [pure_eq_ok, ok.injEq, Prod.mk.injEq] at h
      refine .inr ⟨heap, entries, merges', hprec, h.1.symm, ?_⟩
      rw [← h.2, placeEntry, if_pos hzero]
  · simp only [hzero, if_false, pure_eq_ok, ok.injEq, Prod.mk.injEq] at h
    refine .inr ⟨heap, entries, merges', hprec, h.1.symm, ?_⟩
    rw [← h.2, placeEntry, if_neg hzero]

theorem insertEntry_spec (hv : self.Valid) (hfree : self.FreeAt free pre post)
    (hg : (localEntry options free.range).Good self.range.stop self.heap)
    (h : insertEntry allocation self options free = .ok (result, space)) :
    result = .error .outOfMemory ∧ space = self ∨
      ∃ returned, result = .ok returned ∧
        Inserted self (localEntry options free.range) pre post returned space := by
  have hl : self.range.stop < 2 ^ 64 := hv.fits
  have hc := hv.consistent
  rw [hfree.cut] at hc
  have hnone : (localEntry options free.range).anonymousMap = none := rfl
  have hins := hc.insert hg hnone hfree.before hfree.behind
  by_cases hex : ∃ y ∈ post.head?, Mergeable self.heap (localEntry options free.range) y
  · obtain ⟨y, hy, hm⟩ := hex
    obtain ⟨post', rfl⟩ : ∃ post', post = y :: post' := head?_eq_some_iff.mp hy
    have hins' : Consistent self.range.stop self.heap
        (pre ++ [localEntry options free.range, y] ++ post') := by simpa using hins
    have hjoin := hins'.merge hm (fun id map hid => by simp [hnone] at hid)
    rw [show self.heap.mergeReferences (localEntry options free.range) y = self.heap by
      simp only [Heap.mergeReferences, hnone]] at hjoin
    rcases insertEntry_result hfree hg (mergeFollowing_merged hins' hl hnone hm) h with
      hfail | ⟨heap, entries, merges, hprec, hresult, hspace⟩
    · exact .inl hfail
    · obtain ⟨hcons, hpages, -⟩ := mergePreceding_spec hjoin hl (.inr ⟨rfl, rfl⟩) hprec
      refine .inr ⟨_, hresult, ?_⟩
      subst hspace
      refine ⟨rfl, rfl, hcons, fun a => ?_, fun hno => absurd hm (hno y hy),
        .inr ⟨y, hy, hm, rfl⟩⟩
      have hfirst : Rel (Keeps self.heap)
          (pageAt (pre ++ [localEntry options free.range, y] ++ post') a)
          (pageAt (pre ++ [(localEntry options free.range).join y] ++ post') a) :=
        pageAt_congr (Keeps.refl self.heap)
          (pageAt_join hm hg.noObject (hins'.entry y (by simp)).noObject)
      rw [show pre ++ [localEntry options free.range] ++ y :: post' =
        pre ++ [localEntry options free.range, y] ++ post' by simp]
      exact rel_trans (R := Keeps self.heap) (fun _ _ _ => .trans) hfirst (hpages a)
  · have hno : ∀ y ∈ post.head?,
        ¬ Mergeable self.heap (localEntry options free.range) y :=
      fun y hy hm => hex ⟨y, hy, hm⟩
    rcases insertEntry_result hfree hg (mergeFollowing_unmerged hins hl hno) h with
      hfail | ⟨heap, entries, merges, hprec, hresult, hspace⟩
    · exact .inl hfail
    · obtain ⟨hcons, hpages, hothers⟩ := mergePreceding_spec hins hl (.inl ⟨rfl, rfl⟩) hprec
      refine .inr ⟨_, hresult, ?_⟩
      subst hspace
      exact ⟨rfl, rfl, hcons, hpages, fun _ => hothers, .inl ⟨hno, rfl⟩⟩

end

end AddressSpace

end Innigkeit.Memory

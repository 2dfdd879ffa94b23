import Innigkeit.Library.Counting
import Innigkeit.Memory.AddressSpace.Reachable

/-!
The reference counts of memory objects over the runs of `map`, `unmap` and
`changeProtection` in address spaces that share the objects. A split, a merge and
a removal of entries move the count of an object together with the number of
entries that name it. A `map` that merges its new entry does not: the merge drops
a reference that the new entry never took.
-/

namespace Innigkeit.Memory

open Zig Transition Counting AddressSpace Heap Entry AnonMap

def Heap.refs (heap : Heap) (id : ObjectId) : ℕ := (heap.objects id).elim 0 (·.referenceCount)

def named (entries : List Entry) (id : ObjectId) : ℕ :=
  entries.countP fun entry => entry.objectReference.object = some id

/-- The counts and the entries change together. -/
def Keeps (heap : Heap) (entries : List Entry) (heap' : Heap) (entries' : List Entry) : Prop :=
  ∀ id, heap'.refs id + named entries id = heap.refs id + named entries' id

section

variable {heap heap' heap'' : Heap} {entries entries' entries'' : List Entry} {e e' a b : Entry}
  {i size : ℕ} {oid : ObjectId} {o : Object} {pages pages' : List PhysicalPage}

theorem Keeps.trans (h : Keeps heap entries heap' entries')
    (h' : Keeps heap' entries' heap'' entries'') : Keeps heap entries heap'' entries'' := by
  intro id
  have h1 := h id
  have h2 := h' id
  omega

theorem named_cons (id : ObjectId) : named (e :: entries) id = named [e] id + named entries id := by
  simp [named, List.countP_cons, Nat.add_comm]

theorem named_congr (h : e'.objectReference.object = e.objectReference.object) :
    named [e'] = named [e] := by
  simp [named, h, funext_iff]

theorem named_plain (h : e.objectReference.object = none) (id : ObjectId) : named [e] id = 0 := by
  simp [named, h]

theorem named_eraseIdx (h : index entries i = .ok e) (id : ObjectId) :
    named (entries.eraseIdx i) id + named [e] id = named entries id := by
  obtain ⟨hi, rfl⟩ := List.getElem?_eq_some_iff.mp (index_eq_ok.mp h)
  have hperm : named _ id = named _ id := (List.getElem_cons_eraseIdx_perm hi).countP_eq _
  rw [named_cons] at hperm
  omega

theorem named_set (h : index entries i = .ok e) (e' : Entry) (id : ObjectId) :
    named (entries.set i e') id + named [e] id = named entries id + named [e'] id := by
  have herase := named_eraseIdx h id
  obtain ⟨hi, rfl⟩ := List.getElem?_eq_some_iff.mp (index_eq_ok.mp h)
  have hperm : named _ id = named _ id := (List.set_perm_cons_eraseIdx hi e').countP_eq _
  rw [named_cons] at hperm
  omega

theorem named_insertIdx (h : i ≤ entries.length) (e : Entry) (id : ObjectId) :
    named (entries.insertIdx i e) id = named entries id + named [e] id := by
  have hperm : named _ id = named _ id := (List.perm_insertIdx e entries h).countP_eq _
  rw [named_cons] at hperm
  omega

theorem index_set_ne {j : ℕ} (h : index entries j = .ok e) (hne : i ≠ j) :
    index (entries.set i a) j = .ok e := by
  rw [index_eq_ok, List.getElem?_set_ne hne, index_eq_ok.mp h]

theorem keeps_set (h : index entries i = .ok e) (heq : named [e'] = named [e]) :
    Keeps heap entries heap (entries.set i e') := by
  intro id
  have hset := named_set h e' id
  rw [heq] at hset
  omega

theorem refs_take (ho : heap.object oid = .ok o) (he : e.objectReference.object = some oid)
    (id : ObjectId) :
    (heap.setObject oid ⟨o.referenceCount + 1⟩).refs id = heap.refs id + named [e] id := by
  by_cases hid : id = oid
  · simp [named, he, refs, setObject, unwrap_eq_ok.mp ho, hid]
  · simp [named, he, refs, setObject, hid, Ne.symm hid]

theorem refs_drop (ho : heap.object oid = .ok o) (he : e.objectReference.object = some oid)
    (hpos : 0 < o.referenceCount) (id : ObjectId) :
    (heap.setObject oid ⟨o.referenceCount - 1⟩).refs id + named [e] id = heap.refs id := by
  by_cases hid : id = oid
  · simp [named, he, refs, setObject, unwrap_eq_ok.mp ho, hid]
    omega
  · simp [named, he, refs, setObject, hid, Ne.symm hid]

theorem mergeObjects_refs (h : mergeObjects heap a b = .ok heap') :
    named [b] = named [a] ∧ ∀ id, heap'.refs id + named [b] id = heap.refs id := by
  unfold mergeObjects at h
  split at h
  · rename_i ha
    simp only [bind_eq_ok, assert_eq_ok] at h
    obtain ⟨_, hb, h⟩ := h
    cases h
    exact ⟨named_congr (hb.trans ha.symm), by simp [named_plain hb]⟩
  · rename_i ha
    simp only [bind_eq_ok, assert_eq_ok, unwrap_eq_ok] at h
    obtain ⟨_, hb, _, rfl, o, ho, _, hle, h⟩ := h
    cases h
    exact ⟨named_congr (hb.trans ha.symm), refs_drop ho hb (by omega)⟩

theorem mergeAnonymousMaps_objects (h : mergeAnonymousMaps heap a b = .ok heap') :
    heap'.objects = heap.objects := by
  unfold mergeAnonymousMaps at h
  grind [bind_eq_ok, pure_eq_ok, setAnonymousMap_objects]

theorem merge_refs (h : merge heap a b = .ok (heap', e)) : named [e] = named [a] ∧
    named [b] = named [a] ∧ ∀ id, heap'.refs id + named [b] id = heap.refs id := by
  simp only [merge, bind_eq_ok] at h
  obtain ⟨heap₁, hobjects, heap₂, hmaps, size, -, h⟩ := h
  cases h
  obtain ⟨hsame, hrefs⟩ := mergeObjects_refs hobjects
  refine ⟨rfl, hsame, fun id => ?_⟩
  rw [← hrefs id, refs, mergeAnonymousMaps_objects hmaps]
  rfl

theorem split_refs (h : split heap e size = .ok (heap', a, b)) : named [a] = named [e] ∧
    named [b] = named [e] ∧ ∀ id, heap'.refs id = heap.refs id + named [e] id := by
  simp only [split, bind_eq_ok] at h
  obtain ⟨_, -, _, -, _, -, address, -, rest, -, h⟩ := h
  -- the code looks at the anonymous map first, and at the object in each of its branches
  cases he : e.objectReference.object <;> simp only [he] at h <;> split at h <;>
    simp only [pure_eq_ok, ok_bind, bind_eq_ok, add_eq_ok] at h
  · cases h
    exact ⟨rfl, rfl, by simp [named_plain he]⟩
  · obtain ⟨_, -, map, -, _, -, h⟩ := h
    cases h
    exact ⟨rfl, rfl, fun id => (named_plain he id).symm ▸ rfl⟩
  · obtain ⟨_, -, o, ho, _, ⟨-, rfl⟩, h⟩ := h
    cases h
    exact ⟨rfl, rfl, refs_take ho he⟩
  · obtain ⟨_, -, map, -, _, -, _, -, o, ho, _, ⟨-, rfl⟩, h⟩ := h
    cases h
    exact ⟨rfl, rfl, refs_take ho he⟩

theorem advanceReferences_named (h : e.advanceReferences size = .ok a) : named [a] = named [e] := by
  refine named_congr ?_
  unfold advanceReferences at h
  grind [bind_eq_ok, pure_eq_ok]

theorem shrink_named {direction : ShrinkDirection} (h : e.shrink direction size = .ok a) :
    named [a] = named [e] := by
  simp only [shrink, bind_eq_ok] at h
  obtain ⟨_, -, _, -, _, -, rest, -, h⟩ := h
  cases direction with
  | beginning =>
    simp only [bind_eq_ok] at h
    obtain ⟨_, -, _, hadvance, h⟩ := h
    cases h
    exact (advanceReferences_named hadvance :)
  | end_ =>
    cases h
    rfl

theorem releasePages_objects {slots : List (ℕ × AnonPageId)}
    (h : releasePages slots heap pages = .ok (heap', pages')) :
    heap'.objects = heap.objects := by
  induction slots generalizing heap pages with
  | nil =>
    cases h
    rfl
  | cons slot slots ih =>
    simp only [releasePages, bind_eq_ok] at h
    obtain ⟨⟨heap₁, pages₁⟩, hpage, h⟩ := h
    rw [ih h]
    simp only [AnonPage.decrementReferenceCount, bind_eq_ok] at hpage
    obtain ⟨_, -, _, -, hpage⟩ := hpage
    split at hpage <;> cases hpage <;> rfl

theorem decrementReferenceCount_objects {id : AnonMapId}
    (h : decrementReferenceCount heap id pages = .ok (heap', pages')) :
    heap'.objects = heap.objects := by
  unfold decrementReferenceCount at h
  grind [bind_eq_ok, pure_eq_ok, releasePages_objects, setAnonymousMap_objects]

namespace AddressSpace

variable {entryRange : EntryRange} {range : VirtualRange} {request : ChangeProtection.Request}
  {self space : AddressSpace} {did : Bool} {n n' : ℕ} {options : MapOptions}
  {allocation : Allocation}

theorem decrementObject_refs (h : Object.decrementReferenceCount heap oid = .ok heap')
    (he : e.objectReference.object = some oid) (id : ObjectId) :
    heap'.refs id + named [e] id = heap.refs id := by
  simp only [Object.decrementReferenceCount, bind_eq_ok, assert_eq_ok] at h
  obtain ⟨o, ho, _, hpos, h⟩ := h
  split at h <;> cases h
  exact refs_drop ho he (Nat.pos_of_ne_zero hpos) id

theorem releaseEntry_refs (h : releaseEntry heap e pages = .ok (heap', pages')) (id : ObjectId) :
    heap'.refs id + named [e] id = heap.refs id := by
  unfold releaseEntry at h
  cases he : e.objectReference.object <;> simp only [he] at h <;> split at h
  · cases h
    simp [named_plain he]
  · obtain ⟨⟨heap₁, pages₁⟩, hmap, h⟩ := bind_eq_ok.mp h
    cases h
    simp [named_plain he, refs, decrementReferenceCount_objects hmap]
  · rw [pure_eq_ok, ok_bind] at h
    obtain ⟨heap₁, hdrop, h⟩ := bind_eq_ok.mp h
    cases h
    exact decrementObject_refs hdrop he id
  · obtain ⟨⟨heap₁, pages₁⟩, hmap, h⟩ := bind_eq_ok.mp h
    obtain ⟨heap₂, hdrop, h⟩ := bind_eq_ok.mp h
    cases h
    rw [decrementObject_refs hdrop he id, refs, decrementReferenceCount_objects hmap, refs]

theorem removeEntries_keeps {first count : ℕ}
    (h : removeEntries first count heap entries pages = .ok (heap', entries', pages')) :
    Keeps heap entries heap' entries' := by
  induction count generalizing heap entries pages with
  | zero =>
    cases h
    exact fun id => rfl
  | succ n ih =>
    simp only [removeEntries, bind_eq_ok] at h
    obtain ⟨entry, hentry, ⟨heap₁, pages₁⟩, hrelease, h⟩ := h
    refine Keeps.trans (fun id => ?_) (ih h)
    have hrefs := releaseEntry_refs hrelease id
    have herase := named_eraseIdx hentry id
    simp only
    omega

/-- The halves of an entry in its place; the second may be changed before it is inserted. -/
theorem split_keeps (h : index entries i = .ok e) (hsplit : e.split heap size = .ok (heap', a, b))
    (heq : named [e'] = named [b]) :
    Keeps heap entries heap' ((entries.set i a).insertIdx (i + 1) e') := by
  obtain ⟨ha, hb, hrefs⟩ := split_refs hsplit
  intro id
  have hi := (List.getElem?_eq_some_iff.mp (index_eq_ok.mp h)).1
  have hset := named_set h a id
  rw [named_insertIdx (by simp; omega), hrefs id, heq, hb]
  rw [ha] at hset
  omega

theorem shrinkFirstIfNeeded_keeps {first length : ℕ}
    (h : shrinkFirstIfNeeded entryRange range entries = .ok (entries', first, length)) :
    Keeps heap entries heap entries' := by
  have hsame : Keeps heap entries heap entries := fun id => rfl
  unfold shrinkFirstIfNeeded shrinkFirst at h
  grind [bind_eq_ok, pure_eq_ok, keeps_set, shrink_named]

theorem shrinkLastIfNeeded_keeps {first length length' : ℕ}
    (h : shrinkLastIfNeeded entryRange range entries first length = .ok (entries', length')) :
    Keeps heap entries heap entries' := by
  unfold shrinkLastIfNeeded at h
  split at h
  · simp only [shrinkLast, bind_eq_ok] at h
    obtain ⟨_, -, _, ⟨last, hlast, _, -, _, -, size, -, second, hsecond, hset⟩, _, -, h⟩ := h
    cases h
    cases hset
    exact keeps_set hlast (shrink_named hsecond)
  · cases h
    exact fun id => rfl

theorem performUnmap_keeps (h : performUnmap self entryRange range = .ok space) :
    Keeps self.heap self.entries space.heap space.entries := by
  unfold performUnmap at h
  split at h
  · simp only [bind_eq_ok, splitAround] at h
    obtain ⟨_, ⟨first, hfirst, size, -, ⟨heap₁, a, b⟩, hsplit, _, -, _, -, _, -, second, hsecond,
      haround⟩, h⟩ := h
    cases h
    cases haround
    exact split_keeps hfirst hsplit (shrink_named hsecond)
  · simp only [bind_eq_ok] at h
    obtain ⟨⟨entries₁, first, length⟩, hfirst, ⟨entries₂, length'⟩, hlast,
      ⟨heap₁, entries₃, pages₁⟩, hremove, h⟩ := h
    cases h
    have hkeeps : Keeps self.heap self.entries heap₁ entries₃ :=
      ((shrinkFirstIfNeeded_keeps hfirst).trans (shrinkLastIfNeeded_keeps hlast)).trans
        (removeEntries_keeps hremove)
    exact fun id => hkeeps id

theorem unmap_keeps (hrun : (·.2) <$> unmap allocation self range = .ok space) :
    Keeps self.heap self.entries space.heap space.entries := by
  have hsame : Keeps self.heap self.entries self.heap self.entries := fun id => rfl
  have hperform : ∀ v r s, performUnmap { self with entriesVersion := v } r range = .ok s →
      Keeps self.heap self.entries s.heap s.entries := fun v r s h => (performUnmap_keeps h :)
  obtain ⟨outcome, h, rfl⟩ := exists_of_snd_map hrun
  clear hrun
  unfold unmap at h
  grind [bind_eq_ok, pure_eq_ok]

theorem splitEntry_keeps {address : ℕ}
    (h : splitEntry request heap entries i address = .ok (heap', entries', did)) :
    Keeps heap entries heap' entries' := by
  simp only [splitEntry, bind_eq_ok] at h
  obtain ⟨entry, hentry, h⟩ := h
  split at h
  · cases h
    exact fun id => rfl
  · simp only [bind_eq_ok] at h
    obtain ⟨size, -, ⟨heap₁, a, b⟩, hsplit, h⟩ := h
    cases h
    exact split_keeps hentry hsplit rfl

theorem mergeAt_keeps (h : mergeAt heap entries i = .ok (heap', entries', did)) :
    Keeps heap entries heap' entries' := by
  unfold mergeAt at h
  split at h
  · simp only [bind_eq_ok] at h
    obtain ⟨entry, hentry, following, hfollowing, can, -, h⟩ := h
    split at h
    · simp only [bind_eq_ok] at h
      obtain ⟨⟨heap₁, merged⟩, hmerge, h⟩ := h
      cases h
      obtain ⟨hsame, -, hrefs⟩ := merge_refs hmerge
      refine (keeps_set hentry hsame).trans fun id => ?_
      rw [← named_eraseIdx (index_set_ne hfollowing (by omega)) id, ← hrefs id]
      dsimp only
      omega
    · cases h
      exact fun id => rfl
  · cases h
    exact fun id => rfl

theorem modifyEntries_keeps {first count : ℕ} {result result' : ChangeProtectionResult}
    (h : modifyEntries request first count heap entries result = .ok (heap', entries', result')) :
    Keeps heap entries heap' entries' := by
  induction count generalizing heap entries result with
  | zero =>
    cases h
    exact fun id => rfl
  | succ n ih =>
    simp only [modifyEntries, bind_eq_ok] at h
    obtain ⟨entry, hentry, ⟨heap₁, entries₁, merged⟩, hmerge, h⟩ := h
    have hset : Keeps heap entries heap (entries.set (first + n) (request.apply entry)) :=
      keeps_set hentry rfl
    exact (hset.trans (mergeAt_keeps hmerge)).trans (ih h)

theorem performChangeProtection_keeps {result : ChangeProtectionResult}
    (h : performChangeProtection self entryRange range request = .ok (result, space)) :
    Keeps self.heap self.entries space.heap space.entries := by
  simp only [performChangeProtection, bind_eq_ok] at h
  obtain ⟨⟨heap₁, entries₁, did⟩, hfirst, ⟨heap₂, entries₂, did'⟩, hlast, ⟨heap₃, entries₃, result₁⟩,
    hmodify, ⟨heap₄, entries₄, result₂⟩, hmerge, h⟩ := h
  cases h
  have hsame : ∀ heap entries, Keeps heap entries heap entries := fun _ _ _ => rfl
  have hfirst : Keeps self.heap self.entries heap₁ entries₁ := by
    unfold splitFirstIfNeeded at hfirst
    grind [splitEntry_keeps]
  have hlast : Keeps heap₁ entries₁ heap₂ entries₂ := by
    unfold splitLastIfNeeded at hlast
    grind [bind_eq_ok, splitEntry_keeps]
  have hmerge : Keeps heap₃ entries₃ heap₄ entries₄ := by
    unfold mergeFirstIfPossible at hmerge
    grind [bind_eq_ok, pure_eq_ok, mergeAt_keeps]
  exact ((hfirst.trans hlast).trans (modifyEntries_keeps hmodify)).trans hmerge

theorem changeProtection_keeps {change : ChangeProtection}
    (hrun : (·.2) <$> changeProtection allocation self range change = .ok space) :
    Keeps self.heap self.entries space.heap space.entries := by
  have hsame : Keeps self.heap self.entries self.heap self.entries := fun id => rfl
  have hperform : ∀ v r result s, performChangeProtection { self with entriesVersion := v } r range
      change.toRequest = .ok (result, s) → Keeps self.heap self.entries s.heap s.entries :=
    fun v r result s h => (performChangeProtection_keeps h :)
  obtain ⟨outcome, h, rfl⟩ := exists_of_snd_map hrun
  clear hrun
  simp only [changeProtection] at h
  iterate 3
    split at h
    · cases h
      exact hsame
  obtain ⟨found, -, h⟩ := bind_eq_ok.mp h
  cases found with
  | none =>
    cases h
    exact hsame
  | some r =>
    obtain ⟨_, -, h⟩ := bind_eq_ok.mp h
    grind [bind_eq_ok, pure_eq_ok]

theorem mergeFollowing_cases (h : mergeFollowing heap entries i e = .ok (heap', entries', e', n)) :
    i ≤ entries.length ∧ ((heap', entries', e', n) = (heap, entries, e, 0) ∨
      n ≠ 0 ∧ index entries' i = .ok e' ∧ named [e'] = named [e] ∧
      (∃ x, index entries i = .ok x ∧ e.canMerge heap x = .ok true) ∧
      (named [e] = 0 → Keeps heap entries heap' entries')) := by
  unfold mergeFollowing at h
  split at h
  · cases h
    exact ⟨by omega, .inl rfl⟩
  simp only [bind_eq_ok] at h
  obtain ⟨x, hx, _, -, _, -, can, hcan, h⟩ := h
  obtain ⟨hi, -⟩ := List.getElem?_eq_some_iff.mp (index_eq_ok.mp hx)
  refine ⟨by omega, ?_⟩
  split at h
  case isFalse =>
    cases h
    exact .inl rfl
  case isTrue htrue =>
    simp only [bind_eq_ok] at h
    obtain ⟨⟨heap₁, merged⟩, hmerge, h⟩ := h
    cases h
    obtain ⟨hsame, hnext, hrefs⟩ := merge_refs hmerge
    refine .inr ⟨by simp, by simp [hi], hsame, ⟨x, hx, htrue ▸ hcan⟩, fun hzero => ?_⟩
    refine .trans (fun id => ?_) (keeps_set hx (hsame.trans hnext.symm))
    rw [← hrefs id, hnext, hzero]
    rfl

theorem mergePreceding_cases (hn : n ≠ 0 → index entries i = .ok e)
    (h : mergePreceding heap entries i e n = .ok (heap', entries', n')) :
    (heap', entries', n') = (heap, entries, n) ∨ n' ≠ 0 ∧
      (∃ x, i ≠ 0 ∧ index entries (i - 1) = .ok x ∧ x.canMerge heap e = .ok true) ∧
      (named [e] = 0 → Keeps heap entries heap' entries') := by
  unfold mergePreceding at h
  split at h
  · cases h
    exact .inl rfl
  rename_i hi
  simp only [bind_eq_ok] at h
  obtain ⟨x, hx, _, -, _, -, can, hcan, h⟩ := h
  split at h
  case isFalse =>
    cases h
    exact .inl rfl
  case isTrue htrue =>
    simp only [bind_eq_ok] at h
    obtain ⟨⟨heap₁, merged⟩, hmerge, h⟩ := h
    cases h
    obtain ⟨hsame, -, hrefs⟩ := merge_refs hmerge
    refine .inr ⟨by omega, ⟨x, hi, hx, htrue ▸ hcan⟩, fun hzero => ?_⟩
    have hheap : Keeps heap entries heap₁ entries := fun id => by rw [← hrefs id, hzero]; rfl
    refine (hheap.trans (keeps_set hx hsame)).trans fun id => ?_
    split
    case isFalse => rfl
    case isTrue hne =>
      rw [← named_eraseIdx (index_set_ne (hn hne) (by omega)) id, hzero]
      rfl

theorem referenceObject_refs (h : referenceObject heap options = .ok heap') (id : ObjectId) :
    heap'.refs id = heap.refs id + named [localEntry options range] id := by
  rcases htype : options.type with _ | ⟨_ | oid, offset⟩ <;> simp only [referenceObject, htype] at h
  iterate 2
    cases h
    simp [named, localEntry, htype]
  simp only [Object.incrementReferenceCount, bind_eq_ok, add_eq_ok] at h
  obtain ⟨o, ho, _, -, _, ⟨-, rfl⟩, h⟩ := h
  cases h
  exact refs_take ho (by simp [localEntry, htype]) id

/-- The new entry names no object, or it can be merged with neither neighbour. -/
def Unmerged (space : AddressSpace) (options : MapOptions) : Prop :=
  ∀ free, space.freeRange options = .ok (some free) →
    (localEntry options free.range).objectReference.object = none ∨
    (∀ x, index space.entries free.insertionIndex = .ok x →
      (localEntry options free.range).canMerge space.heap x ≠ .ok true) ∧
    ∀ x, free.insertionIndex ≠ 0 → index space.entries (free.insertionIndex - 1) = .ok x →
      x.canMerge space.heap (localEntry options free.range) ≠ .ok true

theorem map_keeps (hcond : Unmerged self options)
    (hrun : (·.2) <$> map allocation self options = .ok space) :
    Keeps self.heap self.entries space.heap space.entries := by
  obtain ⟨outcome, h, rfl⟩ := exists_of_snd_map hrun
  clear hrun
  unfold map at h
  split at h
  · cases h
    exact fun id => rfl
  obtain ⟨found, hfree, h⟩ := bind_eq_ok.mp h
  cases found with
  | none =>
    cases h
    exact fun id => rfl
  | some free =>
    simp only [insertEntry, bind_eq_ok] at h
    obtain ⟨⟨heap₁, entries₁, e₁, n₁⟩, hfollowing, ⟨heap₂, entries₂, n₂⟩, hpreceding, h⟩ := h
    dsimp only at hpreceding h
    have hplain := fun hmerged => funext (named_plain ((hcond free hfree).resolve_right hmerged))
    obtain ⟨hle, heq | ⟨hn, hindex, hsame, ⟨x, hx, hcan⟩, hkeeps⟩⟩ := mergeFollowing_cases hfollowing
    · cases heq
      obtain heq | ⟨hne, ⟨x, hi, hx, hcan⟩, hkeeps⟩ := mergePreceding_cases (by simp) hpreceding
      · cases heq
        rw [if_pos rfl] at h
        split at h
        · cases h
          exact fun id => rfl
        · simp only [bind_eq_ok] at h
          obtain ⟨heap₃, htake, h⟩ := h
          cases h
          intro id
          have htaken := @referenceObject_refs _ _ free.range _ htake id
          simp only [named_insertIdx hle]
          omega
      · rw [if_neg hne] at h
        cases h
        exact hkeeps (hplain fun hc => hc.2 x hi hx hcan)
    · have hzero := hplain fun hc => hc.1 x hx hcan
      obtain heq | ⟨hne, -, hkeeps'⟩ := mergePreceding_cases (fun _ => hindex) hpreceding
      · cases heq
        rw [if_neg hn] at h
        cases h
        exact hkeeps hzero
      · rw [if_neg hne] at h
        cases h
        exact (hkeeps hzero).trans (hkeeps' (hsame.trans hzero))

end AddressSpace

end

structure Spaces (Space : Type) where
  heap : Heap
  spaces : Space → AddressSpace

namespace Spaces

variable {Space : Type} [DecidableEq Space]

/-- The space as its operations see it, over the shared heap. -/
def space (s : Spaces Space) (i : Space) : AddressSpace := { s.spaces i with heap := s.heap }

def next (s : Spaces Space) (l : Space × Operation) : Option (Spaces Space) :=
  (l.2.run (s.space l.1)).toOption.map fun space =>
    ⟨space.heap, Function.update s.spaces l.1 space⟩

/-- Any objects, and no entries yet. -/
def system (heap : Heap) : System (Spaces Space) (Space × Operation) :=
  System.ofNext (fun s => s.heap = heap ∧ ∀ i, (s.spaces i).entries = []) next

/-- The three operations; a `map` of an object is not merged. -/
def Allowed (s : Spaces Space) : Space × Operation → Prop
  | (i, .map _ options) => (s.space i).Unmerged options
  | (_, .unmap _ _) => True
  | (_, .changeProtection _ _ _) => True
  | _ => False

variable [Fintype Space]

def entriesOf (s : Spaces Space) (id : ObjectId) : ℕ := total (named ·.entries id) s.spaces

theorem next_refs {s s' : Spaces Space} {l : Space × Operation}
    (hl : s.Allowed l) (h : s.next l = some s') (id : ObjectId) :
    s'.heap.refs id + s.entriesOf id = s.heap.refs id + s'.entriesOf id := by
  obtain ⟨i, operation⟩ := l
  simp only [next, Option.map_eq_some_iff, toOption_eq_some] at h
  obtain ⟨space, hrun, rfl⟩ := h
  have hkeeps : Keeps s.heap (s.spaces i).entries space.heap space.entries := by
    cases operation with
    | map => exact map_keeps hl hrun
    | unmap => exact unmap_keeps hrun
    | changeProtection => exact changeProtection_keeps hrun
    | anonymousMapCopy => exact hl.elim
    | serviceFault => exact hl.elim
  have hmove := total_update (named ·.entries id) s.spaces i space
  have hone := hkeeps id
  simp only [entriesOf]
  omega

/-- As long as no map of an object is merged, the count of an object is its first count and one
for every entry that names it. -/
theorem refs_eq_entries {heap : Heap} {s : Spaces Space} (h : (system heap).Reachable Allowed s)
    (id : ObjectId) : s.heap.refs id = heap.refs id + s.entriesOf id := by
  induction h with
  | init hi => simp [entriesOf, total, named, hi.1, hi.2]
  | step _ hl hstep ih =>
    have hmove := next_refs hl hstep id
    omega

/-- One object with a count of one, and one space without entries. -/
def oneObject : Spaces Unit where
  heap := { objects := fun id => if id = 0 then some {} else none }
  spaces _ := { range := ⟨0x1000, 0x10000⟩, context := .user }

/-- Map a page of the object at the given place; the space starts with the object. -/
def mapPage (base : ℕ) : Unit × Operation :=
  ((), .map {} { base := some base, size := 0x1000, protection := { read := true },
                 type := .object ⟨some 0, base⟩ })

theorem refs_eq_entries_one : ∃ s : Spaces Unit, oneObject.next (mapPage 0x1000) = some s ∧
    s.heap.refs 0 = oneObject.heap.refs 0 + s.entriesOf 0 := by
  obtain ⟨s, hs⟩ : ∃ s, oneObject.next (mapPage 0x1000) = some s :=
    Option.isSome_iff_exists.mp (by decide +kernel)
  have hallowed : oneObject.Allowed (mapPage 0x1000) :=
    fun free _ => .inr ⟨by simp [space, oneObject], by simp [space, oneObject]⟩
  exact ⟨s, hs, refs_eq_entries (.step (.init ⟨rfl, fun _ => rfl⟩) hallowed hs) 0⟩

/-- Two pages of the object side by side: one entry, and no reference for it. -/
theorem adjacent_maps_lose_reference : (System.runNext next oneObject
      [mapPage 0x1000, mapPage 0x2000]).map (fun s => (s.heap.refs 0, s.entriesOf 0)) =
    some (oneObject.heap.refs 0, 1) := by
  decide +kernel

end Spaces

end Innigkeit.Memory

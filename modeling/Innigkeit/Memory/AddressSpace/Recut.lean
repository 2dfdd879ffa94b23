import Innigkeit.Memory.AddressSpace.ModifyEntries
import Innigkeit.Memory.AddressSpace.UnmapSpec

/-!
The splits of `performChangeProtection`. They cut the entries that straddle an
end of the range where something is to be changed, and leave alone both the
page view and what the request wants of the entries.
-/

namespace Innigkeit.Memory.AddressSpace

open Zig List Option VirtualRange Heap Entry ChangeProtection Request

def SamePageCounts (heap heap' : Heap) : Prop :=
  ∀ id, (heap.anonymousMaps id).map (·.numberOfPages) =
    (heap'.anonymousMaps id).map (·.numberOfPages)

theorem SamePageCounts.trans {heap heap' heap'' : Heap} (h : SamePageCounts heap heap')
    (h' : SamePageCounts heap' heap'') : SamePageCounts heap heap'' :=
  fun id => (h id).trans (h' id)

theorem samePageCounts_addReference (heap : Heap) (id : Option AnonMapId) :
    SamePageCounts heap (heap.addReference id) := by
  intro id'
  cases id with
  | none => rfl
  | some id =>
    cases hmap : heap.anonymousMaps id with
    | none => simp [addReference, hmap]
    | some map =>
      rw [addReference_some hmap]
      by_cases heq : id' = id
      · subst heq
        rw [setAnonymousMap_anonymousMaps_self, hmap]
        rfl
      · rw [setAnonymousMap_anonymousMaps_of_ne heq]

section

variable {heap heap' : Heap} {range : VirtualRange} {entries : List Entry} {first second : Entry}

section

variable (h : SamePageCounts heap heap')
include h

theorem SamePageCounts.mergeable
    (hm : Mergeable heap first second) : Mergeable heap' first second := by
  refine { hm with maps := ?_ }
  have hmaps := hm.maps
  unfold MapsMergeable at hmaps ⊢
  cases hid : first.anonymousMap with
  | none => simpa only [hid] using hmaps
  | some id =>
    cases hid' : second.anonymousMap with
    | some id' => simpa only [hid, hid'] using hmaps
    | none =>
      simp only [hid, hid'] at hmaps ⊢
      obtain ⟨map, hmap, hend⟩ := hmaps
      have heq := h id
      rw [hmap, map_some, eq_comm, map_eq_some_iff] at heq
      obtain ⟨map', hmap', hcount⟩ := heq
      exact ⟨map', hmap', by rw [hcount, hend]⟩

theorem SamePageCounts.symm : SamePageCounts heap' heap :=
  fun id => (h id).symm

theorem SamePageCounts.mergeable_iff :
    Mergeable heap first second ↔ Mergeable heap' first second :=
  ⟨h.mergeable, h.symm.mergeable⟩

theorem SamePageCounts.absorbs {stop : ℕ}
    (ha : Absorbs heap range entries first stop) : Absorbs heap' range entries first stop := by
  induction ha with
  | next hn ht hm => exact .next hn ht (h.mergeable hm)
  | more hn ht hm _ ih => exact .more hn ht (h.mergeable hm) ih

theorem SamePageCounts.windowFits_iff :
    WindowFits heap range entries first ↔ WindowFits heap' range entries first :=
  ⟨fun hw hsome stop hstop => hw hsome stop (h.symm.absorbs hstop),
    fun hw hsome stop hstop => hw hsome stop (h.absorbs hstop)⟩

theorem SamePageCounts.grown (id : AnonMapId) (map : AnonMap)
    (hmap : heap'.anonymousMaps id = some map) :
    ∃ map₀, heap.anonymousMaps id = some map₀ ∧ map₀.numberOfPages ≤ map.numberOfPages := by
  have heq := h id
  rw [hmap, map_some, map_eq_some_iff] at heq
  obtain ⟨map₀, hmap₀, hcount⟩ := heq
  exact ⟨map₀, hmap₀, le_of_eq hcount⟩

end

end

/-- The entries have been cut anew, with the range between them, and nothing else has changed. -/
structure Recut (limit : ℕ) (range : VirtualRange) (request : Request)
    (heap : Heap) (entries : List Entry) (heap' : Heap) (pre mid post : List Entry) : Prop where
  cut : RangeCut range (pre ++ mid ++ post) pre mid post
  consistent : Consistent limit heap' (pre ++ mid ++ post)
  counts : SamePageCounts heap heap'
  desired : request.desired range (pre ++ mid ++ post) = request.desired range entries
  changed : request.changed range (pre ++ mid ++ post) = request.changed range entries
  pages : ∀ a, pageAt (pre ++ mid ++ post) a = pageAt entries a

section

variable {limit : ℕ} {range : VirtualRange} {request : Request}
  {heap heap' : Heap} {entries pre post mid : List Entry} {entry last : Entry}

theorem splitEntry_satisfied (h : request.satisfied entry = true) (address : ℕ) :
    splitEntry request heap (pre ++ [entry] ++ post) pre.length address =
      .ok (heap, pre ++ [entry] ++ post, false) := by
  have hget : (pre ++ [entry] ++ post)[pre.length]? = some entry := by simp
  simp only [splitEntry, index_of hget, ok_bind, h, if_true, pure_eq_ok]

theorem splitEntry_cut (h : Consistent limit heap (pre ++ [entry] ++ post)) (hl : limit < 2 ^ 64)
    (hs : request.satisfied entry = false) {address size : ℕ} (ha : PageAligned address)
    (hlo : entry.range.address < address) (hhi : address < entry.range.stop)
    (hsize : size = address - entry.range.address) :
    splitEntry request heap (pre ++ [entry] ++ post) pre.length address =
        .ok (heap.addReference entry.anonymousMap,
          pre ++ [entry.front size, entry.rest size] ++ post, true) ∧
      Consistent limit (heap.addReference entry.anonymousMap)
        (pre ++ [entry.front size, entry.rest size] ++ post) := by
  have hg := h.entry entry (by simp)
  have hstop := entry.range.stop_eq
  have h1 := pageAligned_iff.mp hg.alignedAddress
  rw [pageAligned_iff] at ha
  have hsa : PageAligned size := by
    rw [pageAligned_iff]
    omega
  have hget : (pre ++ [entry] ++ post)[pre.length]? = some entry := by simp
  refine ⟨?_, h.split (by omega) (by omega) hsa⟩
  simp only [splitEntry, index_of hget, ok_bind, hs, Bool.false_eq_true, if_false,
    VirtualAddress.difference_of_le (le_of_lt hlo), ← hsize,
    h.split_eq (show 0 < size by omega) (show size < entry.range.size by omega) hsa hl, pure_eq_ok]
  simp [Surgery.insertIdx_length_add_one]

/-- A cut that keeps the pieces of the entry keeps what the request wants. -/
private theorem Recut.split {left right pre' mid' post' : List Entry} {size : ℕ}
    (h : Recut limit range request heap entries heap' pre mid post)
    (hlist : pre ++ mid ++ post = left ++ [entry] ++ right)
    (hlist' : pre' ++ mid' ++ post' = left ++ [entry.front size, entry.rest size] ++ right)
    (hcons : Consistent limit (heap'.addReference entry.anonymousMap) (pre' ++ mid' ++ post'))
    (hcut : RangeCut range (pre' ++ mid' ++ post') pre' mid' post')
    (hle : size ≤ entry.range.size)
    (hp : request.pieces range entry =
      request.pieces range (entry.front size) ++ request.pieces range (entry.rest size))
    (hc : request.changedPart range entry =
      request.changedPart range (entry.front size) ++ request.changedPart range (entry.rest size)) :
    Recut limit range request heap entries (heap'.addReference entry.anonymousMap) pre' mid'
      post' where
  cut := hcut
  consistent := hcons
  counts := h.counts.trans (samePageCounts_addReference _ _)
  desired := by
    rw [← h.desired, hlist, hlist']
    simp [Request.desired, hp]
  changed := by
    rw [← h.changed, hlist, hlist']
    simp [Request.changed, hc]
  pages a := by
    have hobj := (h.consistent.entry entry (by rw [hlist]; simp)).noObject
    rw [← h.pages, hlist', hlist]
    exact pageAt_congr_mid (pageAt_cut hobj hle)

def StartBlocked (range : VirtualRange) (request : Request) (pre : List Entry)
    (first : Entry) : Prop :=
  first.range.address < range.address ∨ ∃ x, pre.getLast? = some x ∧
    ((request.apply first).protection ≠ x.protection ∨
      (request.apply first).maxProtection ≠ x.maxProtection)

theorem splitFirstIfNeeded_spec {first : Entry} {ms : List Entry}
    (h : Recut limit range request heap entries heap' pre (first :: ms) post)
    (hl : limit < 2 ^ 64) (hpos : 0 < range.size) (ha : PageAligned range.address) :
    ∃ heap₁ pre₁ first₁ split,
      splitFirstIfNeeded (rangeOf range pre (first :: ms) first last) range request heap'
        (pre ++ (first :: ms) ++ post) = .ok (heap₁, pre₁ ++ (first₁ :: ms) ++ post, split) ∧
      pre₁.length = pre.length + split.toNat ∧
      Recut limit range request heap entries heap₁ pre₁ (first₁ :: ms) post ∧
      first₁.range.stop = first.range.stop ∧
      (request.satisfied first₁ = true ∨ range.address ≤ first₁.range.address) ∧
      if first.range.address < range.address then StartBlocked range request pre₁ first₁
      else pre₁ = pre ∧ first₁ = first := by
  by_cases hso : first.range.address < range.address
  case neg =>
    refine ⟨heap', pre, first, false, ?_, rfl, h, rfl, .inr (by omega), ?_⟩
    · simp [splitFirstIfNeeded, rangeOf, hso]
    · rw [if_neg hso]
      exact ⟨rfl, rfl⟩
  have hlist : pre ++ (first :: ms) ++ post = pre ++ [first] ++ (ms ++ post) := by simp
  cases hs : request.satisfied first with
  | true =>
    refine ⟨heap', pre, first, false, ?_, rfl, h, rfl, .inl hs, ?_⟩
    · simp only [splitFirstIfNeeded, rangeOf, hso, decide_true, if_true]
      rw [hlist, splitEntry_satisfied hs]
    · rw [if_pos hso]
      exact .inl hso
  | false =>
    obtain ⟨size, hsize⟩ : ∃ size, size = range.address - first.range.address := ⟨_, rfl⟩
    have hcons := h.consistent
    rw [hlist] at hcons
    have hover : first.range.Overlaps range :=
      ⟨h.cut.stop first (by simp), h.cut.start first (by simp)⟩
    have hfs := first.range.stop_eq
    have hstart := h.cut.start first (by simp)
    have hstop := h.cut.stop first (by simp)
    obtain ⟨heq, hcons'⟩ := splitEntry_cut hcons hl hs ha hso hstart hsize
    have hlist' : pre ++ [first.front size, first.rest size] ++ (ms ++ post) =
        (pre ++ [first.front size]) ++ (first.rest size :: ms) ++ post := by simp
    have hfstop : (first.front size).range.stop = range.address := by
      simp only [front, stop_eq]
      omega
    have hraddr : (first.rest size).range.address = range.address := by
      simp only [rest]
      omega
    have hrstop : (first.rest size).range.stop = first.range.stop := by
      simp only [rest, stop_eq]
      omega
    have hnot : ¬ (first.front size).range.Overlaps range := by
      rw [overlaps_iff, hfstop]
      omega
    have hrs := range.stop_eq
    obtain ⟨hp, hc⟩ := pieces_cut_start hpos hover hs hso hsize
    obtain ⟨hp', hc'⟩ := pieces_of_not_overlaps request hnot
    rw [hlist'] at heq hcons'
    refine ⟨heap'.addReference first.anonymousMap, pre ++ [first.front size], first.rest size,
      true, ?_, by simp, ?_, hrstop, .inr (le_of_eq hraddr.symm), ?_⟩
    · simp only [splitFirstIfNeeded, rangeOf, hso, decide_true, if_true]
      rw [hlist, heq]
    · refine h.split hlist hlist'.symm hcons' ⟨rfl, ?_, ?_, ?_, h.cut.behind⟩ (by omega)
        (by rw [hp, hp']; rfl) (by rw [hc, hc']; rfl)
      · simp only [mem_append, mem_singleton]
        rintro x (hx | rfl)
        · exact h.cut.before x hx
        · exact le_of_eq hfstop
      · simp only [forall_mem_cons]
        exact ⟨by omega, fun x hx => h.cut.start x (by simp [hx])⟩
      · simp only [forall_mem_cons]
        exact ⟨by omega, fun x hx => h.cut.stop x (by simp [hx])⟩
    · rw [if_pos hso]
      exact .inr ⟨first.front size, by simp,
        apply_ne_of_not_satisfied hs⟩

theorem splitLastIfNeeded_spec (entryRange : EntryRange) {init : List Entry}
    (h : Recut limit range request heap entries heap' pre (init ++ [last]) post)
    (hl : limit < 2 ^ 64) (hpos : 0 < range.size) (hfits : range.Fits) (ha : PageAligned range.stop)
    (hlen : entryRange.length = (init ++ [last]).length)
    (hend : entryRange.endOverlap = decide (range.stop < last.range.stop))
    (hstart : request.satisfied last = true ∨ range.address ≤ last.range.address) :
    ∃ heap₁ last₁ post₁ split,
      splitLastIfNeeded entryRange range request pre.length heap' (pre ++ (init ++ [last]) ++ post) =
        .ok (heap₁, pre ++ (init ++ [last₁]) ++ post₁, split) ∧
      Recut limit range request heap entries heap₁ pre (init ++ [last₁]) post₁ ∧
      (request.satisfied last₁ = true ∨
        range.address ≤ last₁.range.address ∧ last₁.range.stop ≤ range.stop) ∧
      ∃ size, last₁ = last.front size := by
  by_cases heo : range.stop < last.range.stop
  case neg =>
    refine ⟨heap', last, post, false, ?_, h, ?_, last.range.size, rfl⟩
    · simp [splitLastIfNeeded, hend, heo]
    · exact hstart.imp_right fun hle => ⟨hle, by omega⟩
  have hlist : pre ++ (init ++ [last]) ++ post = (pre ++ init) ++ [last] ++ post := by simp
  have hindex : pre.length + (init ++ [last]).length - 1 = (pre ++ init).length := by
    simp only [length_append, length_singleton]
    omega
  have hone : 1 ≤ pre.length + (init ++ [last]).length := by
    simp only [length_append, length_singleton]
    omega
  cases hs : request.satisfied last with
  | true =>
    refine ⟨heap', last, post, false, ?_, h, .inl hs, last.range.size, rfl⟩
    simp only [splitLastIfNeeded, hend, heo, decide_true, if_true, hlen, sub_of_le hone, hindex,
      ok_bind, after_of_fits hfits]
    rw [hlist, splitEntry_satisfied hs]
  | false =>
    obtain ⟨size, hsize⟩ : ∃ size, size = range.stop - last.range.address := ⟨_, rfl⟩
    have hlo : range.address ≤ last.range.address := by simpa [hs] using hstart
    have hcons := h.consistent
    rw [hlist] at hcons
    have hover : last.range.Overlaps range :=
      ⟨h.cut.stop last (by simp), h.cut.start last (by simp)⟩
    have hls := last.range.stop_eq
    have hstop := h.cut.stop last (by simp)
    obtain ⟨heq, hcons'⟩ := splitEntry_cut hcons hl hs ha hstop heo hsize
    have hlist' : (pre ++ init) ++ [last.front size, last.rest size] ++ post =
        pre ++ (init ++ [last.front size]) ++ (last.rest size :: post) := by simp
    have hfaddr : (last.front size).range.address = last.range.address := rfl
    have hfstop : (last.front size).range.stop = range.stop := by
      rw [stop_eq, hfaddr, show (last.front size).range.size = size from rfl]
      omega
    have hraddr : (last.rest size).range.address = range.stop := by
      simp only [rest]
      omega
    have hrs := range.stop_eq
    have hrsize := (hcons'.entry (last.rest size) (by simp)).nonempty
    have hnot : ¬ (last.rest size).range.Overlaps range := by
      rw [overlaps_iff, hraddr]
      omega
    obtain ⟨hp, hc⟩ := pieces_cut_end hpos hover hs hlo heo hsize
    obtain ⟨hp', hc'⟩ := pieces_of_not_overlaps request hnot
    rw [hlist'] at heq hcons'
    refine ⟨heap'.addReference last.anonymousMap, last.front size, last.rest size :: post, true,
      ?_, ?_, .inr ⟨hlo, le_of_eq hfstop⟩, size, rfl⟩
    · simp only [splitLastIfNeeded, hend, heo, decide_true, if_true, hlen, sub_of_le hone, hindex,
        ok_bind, after_of_fits hfits]
      rw [hlist, heq]
    · refine h.split hlist hlist'.symm hcons' ⟨rfl, h.cut.before, ?_, ?_, ?_⟩ (by omega)
        (by rw [hp, hp']) (by rw [hc, hc', append_nil])
      · simp only [forall_mem_append, mem_singleton, forall_eq]
        exact ⟨fun x hx => h.cut.start x (by simp [hx]), by omega⟩
      · simp only [forall_mem_append, mem_singleton, forall_eq]
        exact ⟨fun x hx => h.cut.stop x (by simp [hx]), hstop⟩
      · simp only [forall_mem_cons]
        exact ⟨le_of_eq hraddr.symm, h.cut.behind⟩

end

end Innigkeit.Memory.AddressSpace

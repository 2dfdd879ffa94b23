import Innigkeit.Memory.AddressSpace.Insert

/-!
The merges of `changeProtection`. The code goes through the entries of the range
from the last to the first and merges each with what stands behind it by then.
Whether it merges two neighbours, and how far the merged entry reaches, is
already decided by the entries before any merge: an entry that absorbs the one
behind it has the window that ends its map, so no earlier entry can see the map
grow.
-/

namespace Innigkeit.Memory

open Zig List Option Entry Heap Surgery Page

theorem mergeReferences_inv {heap : Heap} {first second : Entry} {id : AnonMapId} {map : AnonMap}
    (h : (heap.mergeReferences first second).anonymousMaps id = some map) :
    ∃ old, heap.anonymousMaps id = some old ∧ (map.numberOfPages = old.numberOfPages ∨
      old.numberOfPages ≤ map.numberOfPages ∧ first.anonymousMap = some id ∧
        second.anonymousMap = none) := by
  unfold mergeReferences at h
  cases hid : first.anonymousMap with
  | none =>
    simp only [hid] at h
    exact ⟨map, h, .inl rfl⟩
  | some id1 =>
    cases hmap : heap.anonymousMaps id1 with
    | none =>
      simp only [hid, hmap] at h
      exact ⟨map, h, .inl rfl⟩
    | some old =>
      by_cases heq : id = id1
      · subst heq
        cases hid' : second.anonymousMap <;>
          simp only [hid, hmap, hid', setAnonymousMap_anonymousMaps_self,
            some.injEq] at h <;> subst h
        · exact ⟨old, hmap, .inr ⟨Nat.le_add_right _ _, rfl, rfl⟩⟩
        · exact ⟨old, hmap, .inl rfl⟩
      · cases hid' : second.anonymousMap <;>
          simp only [hid, hmap, hid', setAnonymousMap_anonymousMaps_of_ne heq] at h <;>
          exact ⟨map, h, .inl rfl⟩

theorem Page.Keeps.of_grown {heap₀ heap : Heap} {old new : Page} (h : Keeps heap old new)
    (hmaps : ∀ id map, heap.anonymousMaps id = some map →
      ∃ map₀, heap₀.anonymousMaps id = some map₀ ∧ map₀.numberOfPages ≤ map.numberOfPages) :
    Keeps heap₀ old new :=
  { h with
    fresh := fun slot hnone hslot => by
      obtain ⟨map, hmap, hle⟩ := h.fresh slot hnone hslot
      obtain ⟨map₀, hmap₀, hcount⟩ := hmaps slot.1 map hmap
      exact ⟨map₀, hmap₀, le_trans (Nat.mul_le_mul_right _ hcount) hle⟩ }

namespace AddressSpace

/-- The neighbours that the rewriting tries to merge: an entry of the range with the one behind it,
and the entry before the range with the first one of the range. -/
def Tried (range : VirtualRange) (first second : Entry) : Prop :=
  first.range.Overlaps range ∨ second.range.address = range.address

/-- Merging neighbours from the last to the first, an entry takes in what is behind it up to `stop`.
-/
inductive Absorbs (heap : Heap) (range : VirtualRange) (entries : List Entry) : Entry → ℕ → Prop
  | next {first second : Entry} : second ∈ entries → Tried range first second →
      Mergeable heap first second → Absorbs heap range entries first second.range.stop
  | more {first second : Entry} {stop : ℕ} : second ∈ entries → Tried range first second →
      Mergeable heap first second → Absorbs heap range entries second stop →
      Absorbs heap range entries first stop

/-- The window of the entry stays below the page count of a map when it absorbs what it can. -/
def WindowFits (heap : Heap) (range : VirtualRange) (entries : List Entry) (entry : Entry) : Prop :=
  entry.anonymousMap ≠ none → ∀ stop, Absorbs heap range entries entry stop →
    entry.windowStart + (stop - entry.range.address) < 2 ^ 32 * standardPageSize

/-- The list `merged`, over `heap`, is what the merges have made of `rest`, a last part of
`entries`. -/
structure Coalesced (heap₀ : Heap) (range : VirtualRange) (entries rest : List Entry) (heap : Heap)
    (merged : List Entry) : Prop where
  pages : ∀ address, Option.Rel (Keeps heap₀) (pageAt rest address) (pageAt merged address)
  empty : rest = [] → merged = []
  head : ∀ g ∈ rest.head?, ∃ size tail, merged = g.front size :: tail ∧ g.range.size ≤ size ∧
    (size = g.range.size ∨ Absorbs heap₀ range entries g (g.range.address + size)) ∧
    ∀ stop, Absorbs heap₀ range entries g stop → stop ≤ g.range.address + size
  maps : ∀ id map, heap.anonymousMaps id = some map →
    ∃ map₀, heap₀.anonymousMaps id = some map₀ ∧ (map.numberOfPages = map₀.numberOfPages ∨
      map₀.numberOfPages ≤ map.numberOfPages ∧ ∃ e ∈ rest, e.anonymousMap = some id ∧
        e.windowStop = map₀.numberOfPages * standardPageSize)

theorem Coalesced.grown {heap₀ heap : Heap} {range : VirtualRange}
    {entries rest merged : List Entry} (h : Coalesced heap₀ range entries rest heap merged)
    (id : AnonMapId) (map : AnonMap) (hmap : heap.anonymousMaps id = some map) :
    ∃ map₀, heap₀.anonymousMaps id = some map₀ ∧ map₀.numberOfPages ≤ map.numberOfPages := by
  obtain ⟨map₀, hmap₀, heq | ⟨hle, -⟩⟩ := h.maps id map hmap
  · exact ⟨map₀, hmap₀, le_of_eq heq.symm⟩
  · exact ⟨map₀, hmap₀, hle⟩

section

variable {limit size : ℕ} {heap₀ heap : Heap} {range : VirtualRange}
  {entries before rest tail : List Entry} {f g n : Entry}

theorem Coalesced.refl (hnone : ∀ g ∈ rest.head?, ∀ stop, ¬ Absorbs heap range entries g stop) :
    Coalesced heap range entries rest heap rest where
  pages _ := Surgery.rel_refl (Keeps.refl heap) _
  empty h := h
  head g hg := by
    obtain ⟨tail, rfl⟩ : ∃ tail, rest = g :: tail := by
      cases rest with
      | nil => simp at hg
      | cons y tail => exact ⟨tail, by simp_all⟩
    exact ⟨g.range.size, tail, rfl, le_rfl, .inl rfl,
      fun stop h => absurd h (hnone g hg stop)⟩
  maps _ map hmap := ⟨map, hmap, .inl rfl⟩

theorem head_of_adjacent (h : Consistent limit heap (before ++ f :: rest))
    (hn : n ∈ before ++ f :: rest) (hadj : f.range.stop = n.range.address) :
    rest.head? = some n := by
  have hord := h.ordered
  rw [pairwise_append, pairwise_cons] at hord
  obtain ⟨-, ⟨hf, hrest⟩, hbefore⟩ := hord
  have hpos := (h.entry n hn).nonempty
  have hposf := (h.entry f (by simp)).nonempty
  have hns := n.range.stop_eq
  have hfs := f.range.stop_eq
  simp only [mem_append, mem_cons] at hn
  rcases hn with hn | rfl | hn
  · have := (hbefore n hn f (by simp)).ranges
    omega
  · omega
  · cases rest with
    | nil => simp at hn
    | cons y rest =>
      rcases mem_cons.mp hn with rfl | hn
      · rfl
      · rw [pairwise_cons] at hrest
        have h1 := (hrest.1 n hn).ranges
        have h2 := (hf y (by simp)).ranges
        have h3 := (h.entry y (by simp)).nonempty
        have hys := y.range.stop_eq
        omega

theorem absorbs_head (h : Consistent limit heap (before ++ f :: rest)) {stop : ℕ}
    (ha : Absorbs heap range (before ++ f :: rest) f stop) :
    ∃ g, rest.head? = some g ∧ Mergeable heap f g ∧
      (stop = g.range.stop ∨ Absorbs heap range (before ++ f :: rest) g stop) := by
  cases ha with
  | next hn _ hm => exact ⟨_, head_of_adjacent h hn hm.adjacent, hm, .inl rfl⟩
  | more hn _ hm hmore => exact ⟨_, head_of_adjacent h hn hm.adjacent, hm, .inr hmore⟩

private theorem countFits_iff (hg : (g.front size).Good limit heap) (hh : heap.Good)
    (hm : Mergeable heap f (g.front size))
    (hreach : Absorbs heap₀ range entries f (g.range.address + size))
    (hmax : ∀ stop, Absorbs heap₀ range entries f stop → stop ≤ g.range.address + size) :
    CountFits heap f (g.front size) ↔
      WindowFits heap₀ range entries f := by
  have hadj : f.range.stop = g.range.address := hm.adjacent
  have hfs := f.range.stop_eq
  have hws : f.windowStop = f.windowStart + f.range.size := rfl
  have hmaps := hm.maps
  have halign : size % 4096 = 0 := pageAligned_iff.mp hg.alignedSize
  have hsize : (g.front size).range.size = size := rfl
  constructor
  · intro hcount hsome stop hstop
    obtain ⟨id, hid⟩ := ne_none_iff_exists'.mp hsome
    have hle := hmax stop hstop
    cases hid' : g.anonymousMap with
    | none =>
      simp only [MapsMergeable, hid, front_anonymousMap, hid'] at hmaps
      obtain ⟨map, hmap, hend⟩ := hmaps
      have hlt := hcount id map hid hid' hmap
      rw [hsize] at hlt
      simp only [standardPageSize] at hend hlt ⊢
      omega
    | some id' =>
      simp only [MapsMergeable, hid, front_anonymousMap, hid'] at hmaps
      obtain ⟨-, map, hmap, hwin⟩ := hg.window id' hid'
      have hlt := (hh.maps id' map hmap).pageCount
      have h1 : (g.front size).windowStop = (g.front size).windowStart + size := rfl
      simp only [standardPageSize] at hwin ⊢
      omega
  · intro hfits id map hid hid' hmap
    have hlt := hfits (by simp [hid]) _ hreach
    simp only [MapsMergeable, hid, hid'] at hmaps
    obtain ⟨map', hmap', hend⟩ := hmaps
    rw [hmap, some.injEq] at hmap'
    subst hmap'
    rw [hsize]
    simp only [standardPageSize] at hend hlt ⊢
    omega

private theorem mergeAt_next {front : List Entry} {g : Entry}
    (h : Consistent limit heap (front ++ f :: g :: tail)) (hl : limit < 2 ^ 64) :
    (Mergeable heap f g → mergeAt heap (front ++ f :: g :: tail) front.length = do
      let (heap, merged) ← f.merge heap g
      return (heap, front ++ merged :: tail, true)) ∧
    (¬ Mergeable heap f g → mergeAt heap (front ++ f :: g :: tail) front.length =
      .ok (heap, front ++ f :: g :: tail, false)) := by
  have hget1 : (front ++ f :: g :: tail)[front.length]? = some f := by simp
  have hget2 : (front ++ f :: g :: tail)[front.length + 1]? = some g := by simp
  have hlt : front.length + 1 < (front ++ f :: g :: tail).length := by simp
  obtain ⟨b, hb, hiff⟩ := canMerge_eq (h.entry f (by simp)) (h.entry g (by simp)) h.heap hl
  simp only [mergeAt, hlt, if_true, index_of hget1, index_of hget2, ok_bind, hb]
  constructor
  · intro hm
    simp only [hiff.mpr hm, if_true, set_length, eraseIdx_length_add_one]
  · intro hm
    simp only [Bool.eq_false_iff.mpr (mt hiff.mp hm), Bool.false_eq_true, if_false, pure_eq_ok]

variable (h₀ : Consistent limit heap₀ (before ++ f :: rest))
  (hc : Coalesced heap₀ range (before ++ f :: rest) rest heap tail)
  (hf : f.Good limit heap)

include h₀ hc hf

/-- The merges so far do not change whether the entry before them ends its map. -/
private theorem ends_iff {id : AnonMapId} (hid : f.anonymousMap = some id) :
    (∃ map, heap.anonymousMaps id = some map ∧
      map.numberOfPages * standardPageSize = f.windowStop) ↔
    ∃ map, heap₀.anonymousMaps id = some map ∧
      map.numberOfPages * standardPageSize = f.windowStop := by
  obtain ⟨-, map, hmap, -⟩ := hf.window id hid
  obtain ⟨map₀, hmap₀, hcount⟩ := hc.maps id map hmap
  have hord := h₀.ordered
  rw [pairwise_append, pairwise_cons] at hord
  simp only [hmap, hmap₀, some.injEq, exists_eq_left']
  rcases hcount with heq | ⟨hle, e, he, hide, hstop⟩
  · rw [heq]
  · -- the window of `e` lies behind that of `f` and ended the map
    have h1 := (hord.2.1.1 e he).windows id hid hide
    have h2 := (h₀.entry e (by simp [he])).nonempty
    have h3 : map₀.numberOfPages * standardPageSize ≤ map.numberOfPages * standardPageSize :=
      Nat.mul_le_mul_right _ hle
    simp only [windowStop] at hstop h1
    constructor <;> intro h4 <;> simp only [windowStop] at h4 <;> omega

private theorem mergeable_front_iff :
    Mergeable heap f (g.front size) ↔ Mergeable heap₀ f g := by
  have hmaps : MapsMergeable heap f (g.front size) ↔ MapsMergeable heap₀ f g := by
    unfold MapsMergeable
    rw [front_anonymousMap]
    cases hid : f.anonymousMap with
    | none => simp
    | some id =>
      cases g.anonymousMap with
      | none => exact ends_iff h₀ hc hf hid
      | some id' => exact Iff.rfl
  constructor
  · intro hm
    exact { hm with maps := hmaps.mp hm.maps }
  · intro hm
    exact { hm with maps := hmaps.mpr hm.maps }

private theorem mergeAt_unmerged {front : List Entry}
    (h : Consistent limit heap (front ++ f :: tail)) (hl : limit < 2 ^ 64)
    (hno : ¬ ∃ n ∈ before ++ f :: rest, Mergeable heap₀ f n) :
    mergeAt heap (front ++ f :: tail) front.length = .ok (heap, front ++ f :: tail, false) ∧
      Coalesced heap₀ range (before ++ f :: rest) (f :: rest) heap (f :: tail) := by
  constructor
  · cases hrest : rest with
    | nil =>
      rw [hc.empty hrest]
      simp [mergeAt]
    | cons g rest' =>
      obtain ⟨size, tail', rfl, -⟩ := hc.head g (by simp [hrest])
      refine (mergeAt_next h hl).2 fun hm => hno ⟨g, by simp [hrest], ?_⟩
      exact (mergeable_front_iff h₀ hc hf).mp hm
  · constructor
    case pages =>
      intro address
      have hcons : Option.Rel (Keeps heap₀) (pageAt ([f] ++ rest ++ []) address)
          (pageAt ([f] ++ tail ++ []) address) :=
        pageAt_congr (Keeps.refl heap₀) (hc.pages address)
      simpa using hcons
    case empty => simp
    case head =>
      rintro g ⟨⟩
      refine ⟨f.range.size, tail, rfl, le_rfl, .inl rfl, fun stop hstop => ?_⟩
      obtain ⟨n, hn, hm, -⟩ := absorbs_head h₀ hstop
      exact absurd ⟨n, by simp [mem_of_mem_head? hn], hm⟩ hno
    case maps =>
      intro id map hmap
      obtain ⟨map₀, hmap₀, hcount⟩ := hc.maps id map hmap
      refine ⟨map₀, hmap₀, hcount.imp_right fun ⟨hle, e, he, hrest⟩ => ?_⟩
      exact ⟨hle, e, mem_cons_of_mem _ he, hrest⟩

section

variable {front : List Entry} (h : Consistent limit heap (front ++ f :: tail))
  (hl : limit < 2 ^ 64) (hyes : ∃ n ∈ before ++ f :: rest, Mergeable heap₀ f n)
  (htried : ∀ g ∈ rest.head?, f.range.stop = g.range.address → Tried range f g)

include h hl hyes htried

/-- The entry behind one that can be merged, as it is by now, and how far the two reach. -/
private theorem merged_next : ∃ g size tail', rest.head? = some g ∧ tail = g.front size :: tail' ∧
    Mergeable heap f (g.front size) ∧
    Absorbs heap₀ range (before ++ f :: rest) f (g.range.address + size) ∧
    (∀ stop, Absorbs heap₀ range (before ++ f :: rest) f stop → stop ≤ g.range.address + size) ∧
    mergeAt heap (front ++ f :: tail) front.length = do
      let (heap, merged) ← f.merge heap (g.front size)
      return (heap, front ++ merged :: tail', true) := by
  obtain ⟨g, hn, hm⟩ := hyes
  have hhead := head_of_adjacent h₀ hn hm.adjacent
  obtain ⟨size, tail', rfl, hle, hsize, hmax⟩ := hc.head g hhead
  have hm' : Mergeable heap f (g.front size) := (mergeable_front_iff h₀ hc hf).mpr hm
  refine ⟨g, size, tail', hhead, rfl, hm', ?_, fun stop hstop => ?_, ?_⟩
  · rcases hsize with rfl | hmore
    · exact .next hn (htried g hhead hm.adjacent) hm
    · exact .more hn (htried g hhead hm.adjacent) hm hmore
  · obtain ⟨g', hg', -, hor⟩ := absorbs_head h₀ hstop
    rw [hhead, some.injEq] at hg'
    subst hg'
    rcases hor with rfl | hmore
    · exact Nat.add_le_add_left hle _
    · exact hmax stop hmore
  · exact (mergeAt_next h hl).1 hm'

private theorem windowFits_of_mergeAt_returns
    (hret : Checked.Returns (mergeAt heap (front ++ f :: tail) front.length)) :
    WindowFits heap₀ range (before ++ f :: rest) f := by
  obtain ⟨g, size, tail', -, rfl, hm, hreach, hmax, heq⟩ :=
    merged_next h₀ hc hf h hl hyes htried
  rw [heq, returns_bind] at hret
  obtain ⟨r, hr, -⟩ := hret
  have hcons : Consistent limit heap (front ++ [f, g.front size] ++ tail') := by simpa using h
  exact (countFits_iff (h.entry _ (by simp)) h.heap hm hreach hmax).mp
    (hcons.countFits_of_merge_returns ⟨r, hr⟩)

private theorem mergeAt_merged (hfits : WindowFits heap₀ range (before ++ f :: rest) f) :
    ∃ heap' tail', mergeAt heap (front ++ f :: tail) front.length =
        .ok (heap', front ++ tail', true) ∧
      Consistent limit heap' (front ++ tail') ∧
      Coalesced heap₀ range (before ++ f :: rest) (f :: rest) heap' tail' := by
  obtain ⟨g, size, tail', hhead, rfl, hm, hreach, hmax, heq⟩ :=
    merged_next h₀ hc hf h hl hyes htried
  have hcons : Consistent limit heap (front ++ [f, g.front size] ++ tail') := by simpa using h
  have hcount := (countFits_iff (h.entry _ (by simp)) h.heap hm hreach hmax).mpr hfits
  have hadj : f.range.stop = g.range.address := hm.adjacent
  have hfs := f.range.stop_eq
  refine ⟨heap.mergeReferences f (g.front size), f.join (g.front size) :: tail', ?_, ?_, ?_⟩
  · rw [heq, hcons.merge_eq hm hl hcount]
    rfl
  · simpa using hcons.merge hm hcount
  constructor
  case pages =>
    intro address
    have h1 : Option.Rel (Keeps heap₀) (pageAt ([f] ++ rest ++ []) address)
        (pageAt ([f] ++ (g.front size :: tail') ++ []) address) :=
      pageAt_congr (Keeps.refl heap₀) (hc.pages address)
    have h2 : Option.Rel (Keeps heap) (pageAt ([] ++ [f, g.front size] ++ tail') address)
        (pageAt ([] ++ [f.join (g.front size)] ++ tail') address) :=
      pageAt_congr (Keeps.refl heap) (pageAt_join hm (h.entry f (by simp)).noObject
        (h.entry (g.front size) (by simp)).noObject)
    rw [append_nil, append_nil] at h1
    refine rel_trans (R := Keeps heap₀) (fun _ _ _ h1 h2 => h1.trans h2) h1 ?_
    exact rel_mono (fun _ _ hkeeps => hkeeps.of_grown hc.grown) h2
  case empty => simp
  case head =>
    rintro _ ⟨⟩
    refine ⟨f.range.size + size, tail', rfl, Nat.le_add_right _ _, .inr ?_, fun stop hstop => ?_⟩
    · rwa [← add_assoc, ← hfs, hadj]
    · rw [← add_assoc, ← hfs, hadj]
      exact hmax stop hstop
  case maps =>
    intro id map hmap
    obtain ⟨old, hold, hor⟩ := mergeReferences_inv hmap
    obtain ⟨map₀, hmap₀, hor₀⟩ := hc.maps id old hold
    refine ⟨map₀, hmap₀, ?_⟩
    rcases hor with heq | ⟨hle, hid, hid'⟩
    · rw [heq]
      refine hor₀.imp_right fun ⟨hle, e, he, hrest⟩ => ?_
      exact ⟨hle, e, mem_cons_of_mem _ he, hrest⟩
    · -- the map that grows here is the one that `f` ended from the start
      have hmaps := ((mergeable_front_iff h₀ hc hf).mp hm).maps
      rw [front_anonymousMap] at hid'
      simp only [MapsMergeable, hid, hid'] at hmaps
      obtain ⟨map', hmap', hend⟩ := hmaps
      rw [hmap₀, some.injEq] at hmap'
      subst hmap'
      refine .inr ⟨?_, f, by simp, hid, hend.symm⟩
      rcases hor₀ with heq | ⟨hle₀, -⟩ <;> omega

end

theorem mergeAt_step {front : List Entry} (h : Consistent limit heap (front ++ f :: tail))
    (hl : limit < 2 ^ 64)
    (htried : ∀ g ∈ rest.head?, f.range.stop = g.range.address → Tried range f g) :
    (∃ heap' tail' merged,
      mergeAt heap (front ++ f :: tail) front.length = .ok (heap', front ++ tail', merged) ∧
      Consistent limit heap' (front ++ tail') ∧
      Coalesced heap₀ range (before ++ f :: rest) (f :: rest) heap' tail' ∧
      (merged = true ↔ ∃ n ∈ before ++ f :: rest, Mergeable heap₀ f n) ∧
      WindowFits heap₀ range (before ++ f :: rest) f) ∨
    (∃ trap, mergeAt heap (front ++ f :: tail) front.length = .error trap) ∧
      ¬ WindowFits heap₀ range (before ++ f :: rest) f := by
  by_cases hm : ∃ n ∈ before ++ f :: rest, Mergeable heap₀ f n
  case neg =>
    obtain ⟨heq, hc'⟩ := mergeAt_unmerged h₀ hc hf h hl hm
    refine .inl ⟨heap, _, false, heq, h, hc', by simpa using hm, fun _ stop hstop => ?_⟩
    obtain ⟨n, hn, hmerge, -⟩ := absorbs_head h₀ hstop
    exact absurd ⟨n, by simp [mem_of_mem_head? hn], hmerge⟩ hm
  case pos =>
    by_cases hfits : WindowFits heap₀ range (before ++ f :: rest) f
    case neg =>
      refine .inr ⟨?_, hfits⟩
      cases heq : mergeAt heap (front ++ f :: tail) front.length with
      | error trap => exact ⟨trap, rfl⟩
      | ok r =>
        exact absurd (windowFits_of_mergeAt_returns h₀ hc hf h hl hm htried ⟨r, heq⟩) hfits
    case pos =>
      obtain ⟨heap', tail', heq, hcons', hc'⟩ := mergeAt_merged h₀ hc hf h hl hm htried hfits
      exact .inl ⟨heap', tail', true, heq, hcons', hc', by simpa using hm, hfits⟩

end

end AddressSpace

end Innigkeit.Memory

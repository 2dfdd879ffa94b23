import Innigkeit.Memory.AddressSpace.Recut

/-!
`performChangeProtection` in a valid address space. It returns exactly if no
window outgrows its map and the counter of modified entries is not decremented
at zero, and then the pages of the range are what was asked for.
-/

namespace Innigkeit.Memory.AddressSpace

open Zig List Option VirtualRange ChangeProtection Request Page Entry

/-- No entry outgrows the page count of its map when it absorbs those behind it. -/
def PageCountsFit (heap : Heap) (range : VirtualRange) (request : Request)
    (entries : List Entry) : Prop :=
  ∀ e ∈ request.desired range entries, WindowFits heap range (request.desired range entries) e

/-- The entry before the range is merged with the first one of the range, but every entry that was
changed has been merged with the one behind it, and none was counted as modified. -/
def CounterUnderflows (heap : Heap) (range : VirtualRange) (request : Request)
    (entries : List Entry) : Prop :=
  (∃ x ∈ request.desired range entries, ∃ f ∈ request.desired range entries,
    f.range.address = range.address ∧ Mergeable heap x f) ∧
  ∀ c ∈ request.changed range entries,
    MergesBehind heap request (request.desired range entries) c

def changedPage (request : Request) (range : VirtualRange) (entries : List Entry)
    (address : ℕ) : Option Page :=
  if range.Contains address then (pageAt entries address).map request.applyPage
  else pageAt entries address

section

variable {limit : ℕ} {range : VirtualRange} {request : Request}
  {heap heap' : Heap} {entries pre mid post : List Entry}
  (h : Recut limit range request heap entries heap' pre mid post)
  (hin : ∀ m ∈ mid, request.satisfied m = true ∨
    range.address ≤ m.range.address ∧ m.range.stop ≤ range.stop)
variable {xs : List Entry}
variable (request) in
theorem flatMap_of_not_overlaps (h : ∀ x ∈ xs, ¬ x.range.Overlaps range) :
    request.desired range xs = xs ∧ request.changed range xs = [] := by
  induction xs with
  | nil => exact ⟨rfl, rfl⟩
  | cons x xs ih =>
    simp only [forall_mem_cons] at h
    obtain ⟨hp, hc⟩ := pieces_of_not_overlaps request h.1
    obtain ⟨hd, hch⟩ := ih h.2
    rw [desired, changed] at *
    simp [hp, hc, hd, hch]

theorem flatMap_of_inside (h : ∀ x ∈ xs, x.range.Overlaps range)
    (hin : ∀ m ∈ xs, request.satisfied m = true ∨
      range.address ≤ m.range.address ∧ m.range.stop ≤ range.stop) :
    request.desired range xs = xs.map request.apply ∧
      request.changed range xs = xs.filter fun x => !request.satisfied x := by
  induction xs with
  | nil => exact ⟨rfl, rfl⟩
  | cons x xs ih =>
    simp only [forall_mem_cons] at h hin
    obtain ⟨hd, hch⟩ := ih h.2 hin.2
    rw [desired, changed] at *
    cases hs : request.satisfied x with
    | true =>
      obtain ⟨hp, hc⟩ := pieces_of_satisfied range hs
      simp [hp, hc, hd, hch, hs]
    | false =>
      obtain ⟨hlo, hhi⟩ := by simpa [hs] using hin.1
      obtain ⟨hp, hc⟩ := pieces_of_inside h.1 hs hlo hhi
      simp [hp, hc, hd, hch, hs]

theorem pageAt_apply (address : ℕ) (xs : List Entry) :
    pageAt (xs.map request.apply) address = (pageAt xs address).map request.applyPage := by
  induction xs with
  | nil => rfl
  | cons x xs ih =>
    rw [map_cons, pageAt_cons, pageAt_cons, ih]
    by_cases hx : x.range.Contains address
    · rw [if_pos hx, if_pos (by exact hx), map_some, apply_page]
    · rw [if_neg hx, if_neg (by exact hx)]

theorem pageAt_apply_of_outside {address : ℕ} (ha : ¬ range.Contains address)
    (hin : ∀ m ∈ xs, request.satisfied m = true ∨
      range.address ≤ m.range.address ∧ m.range.stop ≤ range.stop) :
    pageAt (xs.map request.apply) address = pageAt xs address := by
  induction xs with
  | nil => rfl
  | cons x xs ih =>
    simp only [forall_mem_cons] at hin
    rw [map_cons, pageAt_cons, pageAt_cons, ih hin.2]
    by_cases hx : x.range.Contains address
    · have hs : request.satisfied x = true := by
        refine hin.1.resolve_right fun hinside => ha ?_
        rw [contains_iff] at hx ⊢
        omega
      rw [apply_of_satisfied hs]
    · rw [if_neg hx, if_neg (by exact hx)]

include h

private theorem Recut.outside : (∀ x ∈ pre, ¬ x.range.Overlaps range) ∧
    (∀ x ∈ mid, x.range.Overlaps range) ∧ ∀ x ∈ post, ¬ x.range.Overlaps range := by
  refine ⟨fun x hx ho => ?_, fun x hx => ?_, fun x hx ho => ?_⟩
  · have h1 := h.cut.before x hx
    rw [overlaps_iff] at ho
    omega
  · exact ⟨h.cut.stop x hx, h.cut.start x hx⟩
  · have h1 := h.cut.behind x hx
    rw [overlaps_iff] at ho
    omega

include hin

theorem Recut.desired_eq :
    request.desired range entries = pre ++ mid.map request.apply ++ post := by
  obtain ⟨h1, h2, h3⟩ := h.outside
  have hpre := (flatMap_of_not_overlaps request h1).1
  have hmid := (flatMap_of_inside h2 hin).1
  have hpost := (flatMap_of_not_overlaps request h3).1
  rw [← h.desired]
  rw [Request.desired] at *
  rw [flatMap_append, flatMap_append, hpre, hmid, hpost]

theorem Recut.mem_changed {c : Entry} :
    c ∈ request.changed range entries ↔ c ∈ mid ∧ request.satisfied c = false := by
  obtain ⟨h1, h2, h3⟩ := h.outside
  have hpre := (flatMap_of_not_overlaps request h1).2
  have hmid := (flatMap_of_inside h2 hin).2
  have hpost := (flatMap_of_not_overlaps request h3).2
  rw [← h.changed]
  rw [Request.changed] at *
  rw [flatMap_append, flatMap_append, hpre, hmid, hpost]
  simp

theorem Recut.pageAt_desired (address : ℕ) :
    pageAt (request.desired range entries) address = changedPage request range entries address := by
  rw [h.desired_eq hin, changedPage, ← h.pages]
  simp only [pageAt_append]
  by_cases ha : range.Contains address
  · have hnone (xs : List Entry) (hxs : ∀ x ∈ xs, ¬ x.range.Overlaps range) :
        pageAt xs address = none := pageAt_of_mem_none fun x hx hc => hxs x hx (by
      rw [contains_iff] at ha hc
      exact ⟨lt_of_le_of_lt hc.1 ha.2, lt_of_le_of_lt ha.1 hc.2⟩)
    obtain ⟨h1, -, h3⟩ := h.outside
    rw [if_pos ha, hnone pre h1, hnone post h3, pageAt_apply]
    simp
  · rw [if_neg ha, pageAt_apply_of_outside ha hin]

end

def StartMerges (range : VirtualRange) (request : Request) (heap : Heap)
    (pre : List Entry) (m e : Entry) : Prop :=
  pre.getLast? = some e ∧ m.range.address = range.address ∧
    Mergeable heap e (request.apply m)

variable {stop : ℕ}

theorem Absorbs.tried {heap : Heap} {range : VirtualRange} {entries : List Entry} {first : Entry}
    (h : Absorbs heap range entries first stop) :
    ∃ n ∈ entries, Tried range first n ∧ Mergeable heap first n := by
  cases h with
  | next hn ht hm => exact ⟨_, hn, ht, hm⟩
  | more hn ht hm _ => exact ⟨_, hn, ht, hm⟩

section

variable {limit : ℕ} {range : VirtualRange} {request : Request}
  {heap heap' : Heap} {entries pre ms post : List Entry} {m : Entry}
  (h : Recut limit range request heap entries heap' pre (m :: ms) post) (hpos : 0 < range.size)

include h

theorem Recut.desired_consistent :
    Consistent limit heap' (pre ++ (m :: ms).map request.apply ++ post) := by
  refine h.consistent.refine ?_ ?_ ?_ fun id => ?_
  · intro y hy
    obtain ⟨x, hx, rfl⟩ := List.mem_map.mp hy
    exact apply_good (h.consistent.entry x (by
      rw [append_assoc]
      exact mem_append_right _ (mem_append_left _ hx)))
  · rw [pairwise_map]
    exact (h.cut.ordered h.consistent).imp fun hp => ⟨hp.ranges, hp.windows⟩
  · intro y hy
    obtain ⟨x, hx, rfl⟩ := List.mem_map.mp hy
    exact ⟨x, hx, apply_within⟩
  · rw [countP_map]
    rfl

include hpos

private theorem Recut.first_of_address {f : Entry}
    (hf : f ∈ pre ++ (m :: ms).map request.apply ++ post) (ha : f.range.address = range.address) :
    f = request.apply m := by
  have hgood := h.desired_consistent.entry f hf
  have hfs := f.range.stop_eq
  have hrs := range.stop_eq
  have hnonempty := hgood.nonempty
  simp only [mem_append, map_cons, mem_cons, List.mem_map] at hf
  rcases hf with (hf | rfl | ⟨x, hx, rfl⟩) | hf
  · have := h.cut.before f hf
    omega
  · rfl
  · have h1 := ((pairwise_cons.mp (h.cut.ordered h.consistent)).1 x hx).ranges
    have h2 := h.cut.start m (by simp)
    rw [apply_range] at ha
    omega
  · have := h.cut.behind f hf
    omega

private theorem Recut.last_of_stop {x : Entry} (hx : x ∈ pre ++ (m :: ms).map request.apply ++ post)
    (ha : x.range.stop = range.address) : pre.getLast? = some x := by
  have hgood := h.desired_consistent.entry x hx
  have hxs := x.range.stop_eq
  have hrs := range.stop_eq
  simp only [mem_append, List.mem_map] at hx
  rcases hx with (hx | ⟨y, hy, rfl⟩) | hx
  · cases hlast : pre.getLast? with
    | none =>
      rw [getLast?_eq_none_iff] at hlast
      simp [hlast] at hx
    | some y =>
      obtain ⟨init, rfl⟩ := getLast?_eq_some_iff.mp hlast
      rcases mem_append.mp hx with hx | hx
      · have hord := h.consistent.ordered
        rw [pairwise_append, pairwise_append, pairwise_append] at hord
        have h1 := (hord.1.1.2.2 x hx y (by simp)).ranges
        have h2 := h.cut.before y (by simp)
        have h3 := (h.consistent.entry y (by simp)).nonempty
        have hys := y.range.stop_eq
        omega
      · rw [mem_singleton.mp hx]
  · have := h.cut.start y hy
    rw [apply_range] at ha
    omega
  · have := h.cut.behind x hx
    omega

variable {heap₁ : Heap}

theorem Recut.start_iff :
    (∃ x ∈ pre ++ (m :: ms).map request.apply ++ post,
      ∃ f ∈ pre ++ (m :: ms).map request.apply ++ post,
        f.range.address = range.address ∧ Mergeable heap₁ x f) ↔
    ∃ e, StartMerges range request heap₁ pre m e := by
  constructor
  · rintro ⟨x, hx, f, hf, haddr, hm⟩
    obtain rfl := h.first_of_address hpos hf haddr
    exact ⟨x, h.last_of_stop hpos hx (hm.adjacent.trans haddr), haddr, hm⟩
  · rintro ⟨x, hx, haddr, hm⟩
    exact ⟨x, by simp [mem_of_getLast? hx], request.apply m, by simp, haddr, hm⟩

theorem Recut.absorbs_cases {e : Entry} (he : e ∈ pre ++ (m :: ms).map request.apply ++ post)
    (ha : Absorbs heap₁ range (pre ++ (m :: ms).map request.apply ++ post) e stop) :
    (∃ x ∈ m :: ms, e = request.apply x) ∨ StartMerges range request heap₁ pre m e := by
  obtain ⟨n, hn, htried, hm⟩ := ha.tried
  rcases htried with hover | haddr
  · left
    simp only [mem_append, List.mem_map] at he
    rw [overlaps_iff] at hover
    rcases he with (he | ⟨x, hx, rfl⟩) | he
    · have := h.cut.before e he
      omega
    · exact ⟨x, hx, rfl⟩
    · have := h.cut.behind e he
      omega
  · right
    obtain rfl := h.first_of_address hpos hn haddr
    exact ⟨h.last_of_stop hpos he (hm.adjacent.trans haddr), haddr, hm⟩

theorem Recut.windowFits_iff :
    (∀ e ∈ pre ++ (m :: ms).map request.apply ++ post,
      WindowFits heap₁ range (pre ++ (m :: ms).map request.apply ++ post) e) ↔
    (∀ x ∈ m :: ms,
      WindowFits heap₁ range (pre ++ (m :: ms).map request.apply ++ post) (request.apply x)) ∧
    ∀ e, StartMerges range request heap₁ pre m e →
      WindowFits heap₁ range (pre ++ (m :: ms).map request.apply ++ post) e := by
  constructor
  · intro hall
    refine ⟨fun x hx => hall _ ?_, fun e he => hall e ?_⟩
    · simp only [mem_append, List.mem_map]
      exact .inl (.inr ⟨x, hx, rfl⟩)
    · simp [mem_of_getLast? he.1]
  · rintro ⟨hmid, hlast⟩ e he hsome stop hstop
    rcases h.absorbs_cases hpos he hstop with ⟨x, hx, rfl⟩ | hstart
    · exact hmid x hx hsome stop hstop
    · exact hlast e hstart hsome stop hstop

theorem Recut.coalesced_refl : Coalesced heap' range (pre ++ (m :: ms).map request.apply ++ post)
    post heap' post := by
  refine Coalesced.refl fun g hg stop hstop => ?_
  have hmem := mem_of_mem_head? hg
  have hbehind := h.cut.behind g hmem
  have hrs := range.stop_eq
  rcases h.absorbs_cases hpos (by simp [hmem]) hstop with ⟨x, hx, rfl⟩ | ⟨hget, -⟩
  · have := h.cut.stop x hx
    rw [apply_range] at hbehind
    omega
  · have h1 := h.cut.before g (mem_of_getLast? hget)
    have h2 := g.range.stop_eq
    omega

end

section

variable {limit : ℕ} {range : VirtualRange} {request : Request}
  {heap heap' heap₂ : Heap} {entries pre ms post merged : List Entry} {m : Entry}
  {entryRange : EntryRange} {result₀ result : ChangeProtectionResult}

/-- The last merge neither leaves the page count of a map nor the range of the counter. -/
def StartReturns (range : VirtualRange) (request : Request) (heap : Heap)
    (pre desired : List Entry) (m : Entry) (result : ChangeProtectionResult) : Prop :=
  (∀ e, StartMerges range request heap pre m e → WindowFits heap range desired e) ∧
    ¬ ((∃ e, StartMerges range request heap pre m e) ∧ result.entriesModified = 0)

private theorem not_startMerges_of_blocked (h : StartBlocked range request pre m) (e : Entry) :
    ¬ StartMerges range request heap pre m e := by
  rintro ⟨hlast, haddr, hm⟩
  rcases h with hlt | ⟨x, hx, hne⟩
  · omega
  · rw [hlast, some.injEq] at hx
    subst hx
    rcases hne with hne | hne
    · exact hne hm.protection.symm
    · exact hne hm.maxProtection.symm

theorem mergeFirst_spec (h : Recut limit range request heap entries heap' pre (m :: ms) post)
    (hl : limit < 2 ^ 64)
    (hstart : if entryRange.startOverlap then StartBlocked range request pre m
      else range.address ≤ m.range.address)
    (hmod : Modified limit heap' range request pre (m :: ms) post result₀ heap₂ merged result) :
    (∃ heap₃ merged' result',
      mergeFirstIfPossible entryRange pre.length heap₂ (pre ++ merged) result =
        .ok (heap₃, merged', result') ∧
      Consistent limit heap₃ merged' ∧
      (∀ a, Rel (Keeps heap')
        (pageAt (pre ++ (m :: ms).map request.apply ++ post) a) (pageAt merged' a)) ∧
      StartReturns range request heap' pre (pre ++ (m :: ms).map request.apply ++ post) m
        result) ∨
    (∃ trap, mergeFirstIfPossible entryRange pre.length heap₂ (pre ++ merged) result =
        .error trap) ∧
      ¬ StartReturns range request heap' pre (pre ++ (m :: ms).map request.apply ++ post) m
        result := by
  by_cases hcond : entryRange.startOverlap = false ∧ pre.length ≠ 0
  case neg =>
    have hnone (e : Entry) : ¬ StartMerges range request heap' pre m e := by
      cases hover : entryRange.startOverlap with
      | true =>
        rw [hover, if_pos rfl] at hstart
        exact not_startMerges_of_blocked hstart e
      | false =>
        have hnil : pre = [] := by simpa [hover] using hcond
        rintro ⟨hlast, -⟩
        simp [hnil] at hlast
    refine .inl ⟨heap₂, pre ++ merged, result, if_neg hcond, hmod.consistent, fun a => ?_,
      fun e he => absurd he (hnone e), fun ⟨⟨e, he⟩, _⟩ => hnone e he⟩
    have hcongr : Rel (Keeps heap')
        (pageAt (pre ++ ((m :: ms).map request.apply ++ post) ++ []) a)
        (pageAt (pre ++ merged ++ []) a) :=
      pageAt_congr (Keeps.refl heap') (hmod.coalesced.pages a)
    simpa using hcongr
  case pos =>
    rw [hcond.1, if_neg (by simp)] at hstart
    obtain ⟨init, x, rfl⟩ : ∃ init x, pre = init ++ [x] := by
      obtain ⟨init, x, hx⟩ := eq_nil_or_concat pre |>.resolve_left (by simpa using hcond.2)
      exact ⟨init, x, by simpa using hx⟩
    have hD : (init ++ [x]) ++ (m :: ms).map request.apply ++ post =
        init ++ x :: ((m :: ms).map request.apply ++ post) := by simp
    have hlist : (init ++ [x]) ++ merged = init ++ x :: merged := by simp
    have hcoal := hmod.coalesced
    have hcons := hmod.consistent
    have hcons₀ := h.desired_consistent
    have hbefore := h.cut.before x (by simp)
    rw [hD] at hcoal hcons₀ ⊢
    rw [hlist] at hcons ⊢
    have hmerges (e : Entry) : StartMerges range request heap' (init ++ [x]) m e ↔
        e = x ∧ ∃ n ∈ init ++ x :: ((m :: ms).map request.apply ++ post),
          Mergeable heap' x n := by
      constructor
      · rintro ⟨hlast, -, hm⟩
        obtain rfl : x = e := by simpa using hlast
        exact ⟨rfl, _, by simp, hm⟩
      · rintro ⟨rfl, n, hn, hm⟩
        obtain rfl : request.apply m = n := by
          simpa using head_of_adjacent hcons₀ hn hm.adjacent
        have hadj : e.range.stop = m.range.address := hm.adjacent
        exact ⟨by simp, by omega, hm⟩
    have hrun : mergeFirstIfPossible entryRange (init ++ [x]).length heap₂ (init ++ x :: merged)
        result = mergeAt heap₂ (init ++ x :: merged) init.length >>= fun r =>
          if r.2.2 then sub result.entriesModified 1 >>= fun entriesModified =>
            .ok (r.1, r.2.1,
              { result with entriesModified, entriesMerged := result.entriesMerged + 1 })
          else .ok (r.1, r.2.1, result) := by
      have hlen : (init ++ [x]).length - 1 = init.length := by simp
      rw [mergeFirstIfPossible, if_pos hcond, hlen]
      rfl
    have htried : ∀ g ∈ ((m :: ms).map request.apply ++ post).head?,
        x.range.stop = g.range.address → Tried range x g := by
      rintro g ⟨⟩ hadj
      rw [apply_range] at hadj
      exact .inr (by rw [apply_range]; omega)
    rw [hrun]
    rcases mergeAt_step hcons₀ hcoal (hcons.entry x (by simp)) hcons hl htried with
      ⟨heap₃, tail, b, heq, hcons₃, hcoal₃, hb, hfits⟩ | ⟨⟨trap, htrap⟩, hno⟩
    · have hpages (a : ℕ) : Rel (Keeps heap')
          (pageAt (init ++ x :: ((m :: ms).map request.apply ++ post)) a)
          (pageAt (init ++ tail) a) := by
        have hcongr : Rel (Keeps heap')
            (pageAt (init ++ (x :: ((m :: ms).map request.apply ++ post)) ++ []) a)
            (pageAt (init ++ tail ++ []) a) :=
          pageAt_congr (Keeps.refl heap') (hcoal₃.pages a)
        simpa using hcongr
      have hfits' (e : Entry) (he : StartMerges range request heap' (init ++ [x]) m e) :
          WindowFits heap' range (init ++ x :: ((m :: ms).map request.apply ++ post)) e := by
        rw [((hmerges e).mp he).1]
        exact hfits
      simp only [heq, ok_bind]
      cases b with
      | false =>
        refine .inl ⟨heap₃, init ++ tail, result, by simp, hcons₃, hpages, hfits', ?_⟩
        rintro ⟨⟨e, he⟩, -⟩
        exact absurd (hb.mpr ((hmerges e).mp he).2) (by simp)
      | true =>
        have hx : StartMerges range request heap' (init ++ [x]) m x :=
          (hmerges x).mpr ⟨rfl, hb.mp rfl⟩
        by_cases hzero : result.entriesModified = 0
        · refine .inr ⟨⟨.overflow, ?_⟩, fun hret => hret.2 ⟨⟨x, hx⟩, hzero⟩⟩
          simp only [if_true, hzero]
          rfl
        · have hsub := sub_of_le (Nat.one_le_iff_ne_zero.mpr hzero)
          exact .inl ⟨heap₃, init ++ tail,
            { result with
              entriesModified := result.entriesModified - 1
              entriesMerged := result.entriesMerged + 1 },
            by simp only [if_true, hsub, ok_bind], hcons₃, hpages, hfits',
            fun hboth => hzero hboth.2⟩
    · refine .inr ⟨⟨trap, by rw [htrap]; rfl⟩, fun hret => hno fun hsome stop hstop => ?_⟩
      obtain ⟨n, hn, hm, -⟩ := absorbs_head hcons₀ hstop
      refine hret.1 x ((hmerges x).mpr ⟨rfl, n, ?_, hm⟩) hsome stop hstop
      exact mem_append_right _ (mem_cons_of_mem _ (mem_of_mem_head? hn))

/-- The conditions on the entries as they were, read on the entries after the splits. -/
theorem Recut.returns_iff (h : Recut limit range request heap entries heap' pre (m :: ms) post)
    (hpos : 0 < range.size)
    (hin : ∀ x ∈ m :: ms, request.satisfied x = true ∨
      range.address ≤ x.range.address ∧ x.range.stop ≤ range.stop)
    (hcounter : result.entriesModified = 0 ↔ ∀ x ∈ m :: ms, request.satisfied x = false →
      MergesBehind heap' request (pre ++ (m :: ms).map request.apply ++ post) x) :
    PageCountsFit heap range request entries ∧ ¬ CounterUnderflows heap range request entries ↔
    (∀ x ∈ m :: ms, WindowFits heap' range (pre ++ (m :: ms).map request.apply ++ post)
      (request.apply x)) ∧
    StartReturns range request heap' pre (pre ++ (m :: ms).map request.apply ++ post) m result := by
  have hunder : CounterUnderflows heap range request entries ↔
      (∃ e, StartMerges range request heap' pre m e) ∧ result.entriesModified = 0 := by
    rw [CounterUnderflows, h.desired_eq hin, hcounter]
    simp only [h.counts.mergeable_iff, h.start_iff hpos, h.mem_changed hin, and_imp, MergesBehind]
  rw [hunder, PageCountsFit, h.desired_eq hin]
  simp only [h.counts.windowFits_iff]
  rw [h.windowFits_iff hpos, StartReturns, and_assoc]

end

structure ProtectionChanged (request : Request) (range : VirtualRange)
    (old new : AddressSpace) : Prop where
  bounds : new.range = old.range
  context : new.context = old.context
  consistent : Consistent old.range.stop new.heap new.entries
  pages : ∀ address, Rel (Keeps old.heap)
    (changedPage request range old.entries address) (pageAt new.entries address)

theorem performChangeProtection_spec {self : AddressSpace} {range : VirtualRange}
    (request : Request) {pre mid post : List Entry} {first last : Entry}
    (hv : self.Valid) (hfits : range.Fits) (hpos : 0 < range.size) (ha : PageAligned range.address)
    (hs : PageAligned range.size) (hcut : RangeCut range self.entries pre mid post)
    (hfirst : mid.head? = some first) (hlast : mid.getLast? = some last) :
    (∃ result space,
      performChangeProtection self (rangeOf range pre mid first last) range request =
        .ok (result, space) ∧
      ProtectionChanged request range self space ∧
      PageCountsFit self.heap range request self.entries ∧
      ¬ CounterUnderflows self.heap range request self.entries) ∨
    (∃ trap, performChangeProtection self (rangeOf range pre mid first last) range request =
        .error trap) ∧
      ¬ (PageCountsFit self.heap range request self.entries ∧
        ¬ CounterUnderflows self.heap range request self.entries) := by
  have hl : self.range.stop < 2 ^ 64 := hv.fits
  have hastop : PageAligned range.stop := by
    simp only [pageAligned_iff, stop_eq] at *
    omega
  obtain ⟨ms, rfl⟩ : ∃ ms, mid = first :: ms := head?_eq_some_iff.mp hfirst
  have hrefl : Recut self.range.stop range request self.heap self.entries self.heap pre
      (first :: ms) post := by
    rw [hcut.cut]
    exact ⟨hcut.cut ▸ hcut, hcut.cut ▸ hv.consistent, fun _ => rfl, rfl, rfl, fun _ => rfl⟩
  obtain ⟨heap₁, pre₁, first₁, split₁, hsplit₁, hlen₁, hr₁, hstop₁, hin₁, hstart₁⟩ :=
    splitFirstIfNeeded_spec hrefl hl hpos ha
  obtain ⟨init, last₁, hmid₁, hlast₁⟩ : ∃ init last₁, first₁ :: ms = init ++ [last₁] ∧
      last₁.range.stop = last.range.stop := by
    cases ms using List.reverseRecOn with
    | nil =>
      obtain rfl : first = last := by simpa using hlast
      exact ⟨[], first₁, rfl, hstop₁⟩
    | append_singleton ms y =>
      rw [← cons_append, getLast?_concat, some.injEq] at hlast
      subst hlast
      exact ⟨first₁ :: ms, y, rfl, rfl⟩
  have hlow : ∀ x ∈ first₁ :: ms, request.satisfied x = true ∨
      range.address ≤ x.range.address := by
    simp only [forall_mem_cons]
    exact ⟨hin₁, fun x hx => .inr (hr₁.cut.address_le hr₁.consistent x hx)⟩
  rw [hmid₁] at hr₁ hlow
  obtain ⟨heap₂, last₂, post₂, split₂, hsplit₂, hr₂, hin₂, size, hsize⟩ :=
    splitLastIfNeeded_spec (rangeOf range pre (first :: ms) first last) hr₁ hl hpos
      hfits hastop (by rw [← hmid₁]; simp) (by simp [rangeOf, hlast₁]) (hlow last₁ (by simp))
  have hin₃ : ∀ x ∈ init ++ [last₂], request.satisfied x = true ∨
      range.address ≤ x.range.address ∧ x.range.stop ≤ range.stop := by
    simp only [forall_mem_append, mem_singleton, forall_eq]
    exact ⟨fun x hx => (hlow x (by simp [hx])).imp_right fun hle =>
      ⟨hle, hr₁.cut.stop_le hr₁.consistent x hx⟩, hin₂⟩
  -- the first entry of the range may have been cut at both ends
  obtain ⟨m, ms₂, hmid₂, k, hm⟩ :
      ∃ m ms₂, init ++ [last₂] = m :: ms₂ ∧ ∃ k, m = first₁.front k := by
    cases init with
    | nil =>
      obtain ⟨rfl, -⟩ : first₁ = last₁ ∧ ms = [] := by simpa using hmid₁
      exact ⟨last₂, [], rfl, size, hsize⟩
    | cons y init =>
      obtain ⟨rfl, -⟩ : first₁ = y ∧ ms = init ++ [last₁] := by simpa using hmid₁
      exact ⟨first₁, init ++ [last₂], rfl, first₁.range.size, rfl⟩
  have hlen₂ : (first :: ms).length = (m :: ms₂).length := by
    have h1 := congrArg List.length hmid₁
    rw [← hmid₂]
    simpa using h1
  rw [hmid₁] at hsplit₁
  rw [hmid₂] at hr₂ hin₃ hsplit₂
  have hstart : if (rangeOf range pre (first :: ms) first last).startOverlap
      then StartBlocked range request pre₁ m else range.address ≤ m.range.address := by
    by_cases hso : first.range.address < range.address
    · rw [if_pos hso] at hstart₁
      simp only [rangeOf, hso, decide_true, if_true, hm]
      exact hstart₁
    · rw [if_neg hso] at hstart₁
      simp only [rangeOf, hso, decide_false, Bool.false_eq_true, if_false, hm, hstart₁.2]
      exact Nat.le_of_not_lt hso
  have hrun : performChangeProtection self (rangeOf range pre (first :: ms) first last) range
      request = modifyEntries request pre₁.length (m :: ms₂).length heap₂
        (pre₁ ++ (m :: ms₂) ++ post₂) { entriesSplit := split₁.toNat + split₂.toNat } >>= fun r =>
      mergeFirstIfPossible (rangeOf range pre (first :: ms) first last) pre₁.length r.1 r.2.1
        r.2.2 >>= fun r => .ok (r.2.2, { self with heap := r.1, entries := r.2.1 }) := by
    rw [performChangeProtection, hcut.cut, hsplit₁]
    simp only [ok_bind, rangeOf_start, ← hlen₁, hsplit₂, rangeOf_length, hlen₂]
    rfl
  rw [hrun]
  rcases modifyEntries_spec hl hr₂.desired_consistent
    (fun x hx => ⟨hr₂.cut.stop x hx, hr₂.cut.start x hx⟩) hr₂.consistent
    (hr₂.coalesced_refl hpos) { entriesSplit := split₁.toNat + split₂.toNat } with
    ⟨heap₃, merged, result, hmodify, hmod⟩ | ⟨⟨trap, htrap⟩, x, hx, hno⟩
  · have hiff := hr₂.returns_iff hpos hin₃ (by simpa using hmod.counter)
    simp only [hmodify, ok_bind]
    rcases mergeFirst_spec hr₂ hl hstart hmod with
      ⟨heap₄, entries', result', hmerge, hcons, hpages, hret⟩ | ⟨⟨trap, htrap⟩, hno⟩
    · left
      refine ⟨result', { self with heap := heap₄, entries := entries' }, by rw [hmerge]; rfl,
        ⟨rfl, rfl, hcons, fun a => ?_⟩, hiff.mpr ⟨hmod.fits, hret⟩⟩
      rw [← hr₂.pageAt_desired hin₃, hr₂.desired_eq hin₃]
      exact Surgery.rel_mono (fun _ _ hkeeps => hkeeps.of_grown hr₂.counts.grown) (hpages a)
    · exact .inr ⟨⟨trap, by rw [htrap]; rfl⟩, fun hboth => hno (hiff.mp hboth).2⟩
  · refine .inr ⟨⟨trap, by rw [htrap]; rfl⟩, fun hboth => hno ?_⟩
    have hall := hboth.1
    rw [PageCountsFit, hr₂.desired_eq hin₃] at hall
    rw [← hr₂.counts.windowFits_iff]
    exact hall _ (by
      simp only [mem_append, List.mem_map]
      exact .inl (.inr ⟨x, hx, rfl⟩))

end Innigkeit.Memory.AddressSpace

import Innigkeit.Memory.AddressSpace.Reachable

/-!
What the protections of the pages meet. An operation merges, splits and shrinks
entries, but what it does is known page by page. So a property of the pair of
protections at an address is kept by an operation if it holds of the pairs the
operation asks for. An entry shows its pair at its first page, so that a property
of all pages is one of all entries.
-/

namespace Innigkeit.Memory

open Zig Transition List Option VirtualRange

namespace AddressSpace

def PagesMeet (P : ℕ → Protection → Protection → Prop) (entries : List Entry) : Prop :=
  ∀ address page, pageAt entries address = some page →
    P address page.protection page.maxProtection

variable {e : Entry} {address : ℕ} {space : AddressSpace}

theorem pageAt_of_mem {limit : ℕ} {heap : Heap} {entries : List Entry}
    (h : Consistent limit heap entries) (he : e ∈ entries) (hin : e.range.Contains address) :
    pageAt entries address = some (e.page address) := by
  obtain ⟨pre, post, rfl⟩ := append_of_mem he
  rw [pageAt]
  cases hfind : (pre ++ e :: post).find? fun entry => decide (entry.range.Contains address) with
  | none =>
    rw [find?_eq_none] at hfind
    exact absurd hin (by simpa using hfind e he)
  | some x =>
    have hx : x.range.Contains address := by simpa using find?_some hfind
    rw [eq_of_contains h hin (mem_of_find?_eq_some hfind) hx, map_some]

theorem exists_of_pageAt {entries : List Entry} {page : Page}
    (h : pageAt entries address = some page) :
    ∃ e ∈ entries, e.range.Contains address ∧ page = e.page address := by
  rw [pageAt, map_eq_some_iff] at h
  obtain ⟨e, hfind, rfl⟩ := h
  exact ⟨e, mem_of_find?_eq_some hfind, by simpa using find?_some hfind, rfl⟩

section

variable {P Q : ℕ → Protection → Protection → Prop} {limit : ℕ} {heap : Heap}
  {entries : List Entry}

theorem PagesMeet.entry (h : PagesMeet P entries) (hc : Consistent limit heap entries) {e : Entry}
    (he : e ∈ entries) : P e.range.address e.protection e.maxProtection := by
  have hfirst : e.range.Contains e.range.address := by
    have hpos := (hc.entry e he).nonempty
    rw [contains_iff, stop_eq]
    omega
  exact h _ _ (pageAt_of_mem hc he hfirst)

/-- The property holds of what the pages were made of. -/
theorem PagesMeet.of_keeps {heap₀ : Heap} {old : ℕ → Option Page}
    (hpages : ∀ address, Option.Rel (Page.Keeps heap₀) (old address) (pageAt entries address))
    (h : ∀ address page, old address = some page → P address page.protection page.maxProtection) :
    PagesMeet P entries := by
  intro address page hpage
  have hrel := hpages address
  rw [hpage] at hrel
  cases hold : old address with
  | none =>
    rw [hold] at hrel
    cases hrel
  | some page₀ =>
    rw [hold] at hrel
    cases hrel with
    | some hkeeps =>
      rw [hkeeps.protection, hkeeps.maxProtection]
      exact h address page₀ hold

end

section

variable {P Q : ℕ → Protection → Protection → Prop} {self space : AddressSpace}
  {allocation : Allocation}

theorem map_meets {options : MapOptions} {result : Except MapError VirtualRange}
    (hv : self.Valid) (hP : PagesMeet P self.entries)
    (hnew : validateMapOptions options = .ok () → ∀ address,
      (∀ base ∈ options.base, VirtualRange.Contains ⟨base, options.size⟩ address) →
        P address options.protection (options.maxProtection.getD options.protection))
    (h : map allocation self options = .ok (result, space)) : PagesMeet P space.entries := by
  rcases map_spec hv h with ⟨-, rfl⟩ | ⟨returned, free, pre, post, hres, -, -, hfound, hgood, hins⟩
  · exact hP
  have hvalid : validateMapOptions options = .ok () := by
    cases hval : validateMapOptions options with
    | ok _ => rfl
    | error error =>
      rw [map, hval] at h
      cases h
      cases hres
  refine .of_keeps hins.pages fun address page hpage => ?_
  obtain ⟨e, he, hin, rfl⟩ := exists_of_pageAt hpage
  have hold (hmem : e ∈ self.entries) : P address e.protection e.maxProtection :=
    hP address _ (pageAt_of_mem hv.consistent hmem hin)
  rw [append_assoc, mem_append, singleton_append, mem_cons] at he
  rcases he with he | rfl | he
  · exact hold (by simp [hfound.freeAt.cut, he])
  · refine hnew hvalid address fun base hbase => ?_
    have haddress := hfound.base base hbase
    have hsize := hfound.size
    rw [contains_iff, stop_eq] at hin ⊢
    simp only [localEntry] at hin
    dsimp only
    omega
  · exact hold (by simp [hfound.freeAt.cut, he])

variable {range : VirtualRange} {entry : Entry} {info : FaultInfo}
  {outcome : Except HandlePageFaultError PageMapping × AddressSpace}

theorem unmap_meets {outcome : Except UnmapError (List VirtualRangeBatch) × AddressSpace}
    (hv : self.Valid) (hP : PagesMeet P self.entries)
    (h : unmap allocation self range = .ok outcome) : PagesMeet P outcome.2.entries := by
  obtain ⟨outcome', hrun, hout, -⟩ := unmap_outcome hv allocation
    ((unmap_returns_iff hv allocation).mp ⟨outcome, h⟩)
  rw [h, Except.ok.injEq] at hrun
  subst hrun
  cases hout with
  | misaligned => exact hP
  | outOfMemory => exact hP
  | done _ _ _ hcleared =>
    intro address page hpage
    by_cases hin : range.Contains address
    · rw [hcleared.inside address hin] at hpage
      cases hpage
    · rw [hcleared.outside address hin] at hpage
      exact hP address page hpage

theorem ProtectionChanged.meets {request : ChangeProtection.Request}
    (h : ProtectionChanged request range self space)
    (hout : ∀ address page, ¬ range.Contains address → pageAt self.entries address = some page →
      P address page.protection page.maxProtection)
    (hin : ∀ e ∈ self.entries, ∀ address, e.range.Contains address → range.Contains address →
      P address (request.protection.getD e.protection)
        (request.maxProtection.getD e.maxProtection)) :
    PagesMeet P space.entries := by
  refine .of_keeps h.pages fun address page hpage => ?_
  rw [changedPage] at hpage
  split at hpage
  case isFalse hnot => exact hout address page hnot hpage
  case isTrue hrange =>
    rw [map_eq_some_iff] at hpage
    obtain ⟨page₀, hpage₀, rfl⟩ := hpage
    obtain ⟨e, he, hcontains, rfl⟩ := exists_of_pageAt hpage₀
    exact hin e he address hcontains hrange

theorem changeProtection_meets {change : ChangeProtection}
    {outcome : Except ChangeProtectionError (List (ChangeProtectionBatch × MapType)) × AddressSpace}
    (hv : self.Valid) (hP : PagesMeet P self.entries)
    (hnew : ∀ e ∈ self.entries, ∀ address, range.Contains address → change.toRequest.Accepts e →
      P address (change.toRequest.protection.getD e.protection)
        (change.toRequest.maxProtection.getD e.maxProtection))
    (h : changeProtection allocation self range change = .ok outcome) :
    PagesMeet P outcome.2.entries := by
  rcases changeProtection_changed hv h with hself | ⟨haccepts, hchanged⟩
  · rw [hself]
    exact hP
  refine hchanged.meets (fun address page _ hpage => hP address page hpage)
    fun e he address hcontains hrange => hnew e he address hrange (haccepts e he ?_)
  rw [contains_iff] at hrange hcontains
  rw [overlaps_iff]
  omega

theorem copy_protections {heap heap' : Heap} {entry' : Entry}
    (h : AnonMap.copy allocation heap entry = .ok (some entry', heap')) :
    entry'.range = entry.range ∧ entry'.protection = entry.protection ∧
      entry'.maxProtection = entry.maxProtection := by
  unfold AnonMap.copy at h
  split at h
  · simp only [bind_eq_ok] at h
    obtain ⟨created, -, h⟩ := h
    cases created with
    | none => cases h
    | some created =>
      cases h
      exact ⟨rfl, rfl, rfl⟩
  · simp only [bind_eq_ok] at h
    obtain ⟨oldMap, -, h⟩ := h
    split at h
    · cases h
      exact ⟨rfl, rfl, rfl⟩
    simp only [bind_eq_ok] at h
    obtain ⟨created, -, h⟩ := h
    cases created with
    | none => cases h
    | some created =>
      simp only [bind_eq_ok] at h
      obtain ⟨_, -, _, -, ⟨copied, heap₁⟩, -, h⟩ := h
      cases copied with
      | false => cases h
      | true =>
        simp only [if_true, bind_eq_ok] at h
        obtain ⟨_, -, h⟩ := h
        cases h
        exact ⟨rfl, rfl, rfl⟩

theorem anonymousMapCopy_meets {address : ℕ}
    {outcome : Except HandlePageFaultError Unit × AddressSpace} (hv : self.Valid)
    (hP : PagesMeet P self.entries) (h : anonymousMapCopy allocation self address = .ok outcome) :
    PagesMeet P outcome.2.entries := by
  simp only [anonymousMapCopy, bind_eq_ok] at h
  obtain ⟨found, -, h⟩ := h
  cases found with
  | none =>
    cases h
    exact hP
  | some i =>
    simp only [bind_eq_ok, index_eq_ok] at h
    obtain ⟨entry, hget, h⟩ := h
    split at h
    · cases h
      exact hP
    rw [bind_eq_ok] at h
    obtain ⟨⟨copied, heap⟩, hcopy, h⟩ := h
    cases copied with
    | none =>
      cases h
      exact hP
    | some entry' =>
      cases h
      obtain ⟨hrange, hprotection, hmax⟩ := copy_protections hcopy
      intro a page hpage
      obtain ⟨e, he, hin, rfl⟩ := exists_of_pageAt hpage
      rcases mem_or_eq_of_mem_set he with he | rfl
      · exact hP a _ (pageAt_of_mem hv.consistent he hin)
      · rw [hrange] at hin
        have hentry := hP a _ (pageAt_of_mem hv.consistent (mem_of_getElem? hget) hin)
        simp only [Entry.page, hprotection, hmax] at hentry ⊢
        exact hentry

private theorem enterPage_space {page : PhysicalPage}
    (h : enterPage allocation self info page = .ok outcome) : outcome.2 = self := by
  simp only [enterPage, bind_eq_ok] at h
  obtain ⟨mapped, -, h⟩ := h
  cases mapped with
  | true =>
    cases h
    rfl
  | false =>
    cases h
    rfl

private theorem faultObjectOrZeroFill_entries
    (h : faultObjectOrZeroFill allocation self info entry = .ok outcome) :
    outcome.2.entries = self.entries := by
  rw [faultObjectOrZeroFill] at h
  by_cases hobject : entry.objectReference.object ≠ none
  · rw [if_pos hobject] at h
    cases h
  rw [if_neg hobject, bind_eq_ok] at h
  obtain ⟨_, -, h⟩ := h
  split at h
  · cases h
    rfl
  split at h
  · cases h
    rfl
  simp only [bind_eq_ok] at h
  obtain ⟨added, -, h⟩ := h
  cases added with
  | none =>
    cases h
    rfl
  | some heap =>
    simp only [bind_eq_ok] at h
    obtain ⟨result, hresult, h⟩ := h
    split at h
    · cases h
    · cases h
      rw [enterPage_space hresult]

private theorem faultUpper_entries {page : AnonPageId}
    (h : faultUpper allocation self info entry page = .ok outcome) :
    outcome.2.entries = self.entries := by
  simp only [faultUpper, bind_eq_ok] at h
  obtain ⟨anonymousPage, -, h⟩ := h
  split at h
  case isFalse => rw [enterPage_space h]
  split at h
  · cases h
    rfl
  split at h
  · cases h
    rfl
  simp only [bind_eq_ok] at h
  obtain ⟨⟨heap, pages⟩, -, added, -, h⟩ := h
  cases added with
  | none =>
    cases h
    rfl
  | some heap' => rw [enterPage_space h]

theorem faultSection_entries {address : ℕ} {accessType : AccessType}
    (h : faultSection allocation self address accessType = .ok space) :
    space.entries = self.entries := by
  simp only [faultSection, bind_eq_ok] at h
  obtain ⟨check, -, h⟩ := h
  cases check with
  | failed | needsCopy =>
    cases h
    rfl
  | ready info entry page =>
    simp only [bind_eq_ok] at h
    obtain ⟨outcome, hservice, h⟩ := h
    cases h
    cases page with
    | none => exact faultObjectOrZeroFill_entries hservice
    | some page => exact faultUpper_entries hservice

end

/-- The protection of a page stays below its maximum. -/
def Guarded (_ : ℕ) (protection maxProtection : Protection) : Prop :=
  protection.exceeds maxProtection = false

theorem guarded_of_validateMapOptions {options : MapOptions} (address : ℕ)
    (h : validateMapOptions options = .ok ()) :
    Guarded address options.protection (options.maxProtection.getD options.protection) := by
  cases hmax : options.maxProtection with
  | none => simp [Guarded, Protection.exceeds]
  | some max =>
    by_contra hexceeds
    have hex : ∃ max ∈ options.maxProtection, options.protection.exceeds max = true :=
      ⟨max, hmax, by simpa [Guarded, hmax] using hexceeds⟩
    rw [validateMapOptions, if_pos hex] at h
    repeat' split at h
    all_goals cases h

theorem Operation.run_guarded {space' : AddressSpace} {operation : Operation} (hv : space.Valid)
    (hg : PagesMeet Guarded space.entries) (h : operation.run space = .ok space') :
    PagesMeet Guarded space'.entries := by
  cases operation with
  | map allocation options =>
    obtain ⟨⟨result, s⟩, hrun, rfl⟩ := exists_of_snd_map h
    exact map_meets hv hg (fun hvalid address _ => guarded_of_validateMapOptions address hvalid)
      hrun
  | unmap allocation range =>
    obtain ⟨outcome, hrun, rfl⟩ := exists_of_snd_map h
    exact unmap_meets hv hg hrun
  | changeProtection allocation range change =>
    obtain ⟨outcome, hrun, rfl⟩ := exists_of_snd_map h
    exact changeProtection_meets hv hg (fun _ _ _ _ haccepts => haccepts.2) hrun
  | anonymousMapCopy allocation address =>
    obtain ⟨outcome, hrun, rfl⟩ := exists_of_snd_map h
    exact anonymousMapCopy_meets hv hg hrun
  | serviceFault allocation address accessType =>
    rw [faultSection_entries h]
    exact hg

theorem reachable_guarded {allowed : AddressSpace → Operation → Prop}
    (h : system.Reachable allowed space) (he : e ∈ space.entries) :
    e.protection.exceeds e.maxProtection = false := by
  have hboth : space.Valid ∧ PagesMeet Guarded space.entries := by
    refine @System.Reachable.invariant _ _ system allowed
      (fun s => s.Valid ∧ PagesMeet Guarded s.entries)
      (fun s (hi : Initial s) => ⟨hi.valid, ?_⟩) (fun s operation s' hinv _ hstep => ?_) space h
    · obtain ⟨range, context, rfl, -⟩ := hi
      intro address page hpage
      cases hpage
    · have hrun := toOption_eq_some.mp hstep
      exact ⟨Operation.run_valid hinv.1 hrun, Operation.run_guarded hinv.1 hinv.2 hrun⟩
  exact hboth.2.entry hboth.1.consistent he

/-- The entries of an address space, and what the search among them answers. -/
structure EntryList (space : AddressSpace) : Prop where
  aligned : ∀ e ∈ space.entries, PageAligned e.range.address ∧ PageAligned e.range.size
  nonempty : ∀ e ∈ space.entries, 0 < e.range.size
  sorted : space.entries.Pairwise fun first second => first.range.address < second.range.address
  disjoint : space.entries.Pairwise fun first second =>
    ∀ address, ¬ (first.range.Contains address ∧ second.range.Contains address)
  guarded : ∀ e ∈ space.entries, e.protection.exceeds e.maxProtection = false
  found : ∀ address i, space.entryIndexByAddress address = .ok (some i) ↔
    ∃ e, space.entries[i]? = some e ∧ e.range.Contains address
  absent : ∀ address, space.entryIndexByAddress address = .ok none ↔
    ∀ e ∈ space.entries, ¬ e.range.Contains address

theorem index_unique (hv : space.Valid) {i j : ℕ} {e' : Entry} (hi : space.entries[i]? = some e)
    (hin : e.range.Contains address) (hj : space.entries[j]? = some e')
    (hin' : e'.range.Contains address) : i = j := by
  have hord := hv.consistent.ordered
  rw [contains_iff] at hin hin'
  rw [List.getElem?_eq_some_iff] at hi hj
  obtain ⟨hilt, rfl⟩ := hi
  obtain ⟨hjlt, rfl⟩ := hj
  rw [pairwise_iff_getElem] at hord
  rcases Nat.lt_trichotomy i j with hlt | heq | hgt
  · have := (hord i j hilt hjlt hlt).ranges
    omega
  · exact heq
  · have := (hord j i hjlt hilt hgt).ranges
    omega

theorem entryIndexByAddress_found (hv : space.Valid) (address i : ℕ) :
    space.entryIndexByAddress address = .ok (some i) ↔
      ∃ e, space.entries[i]? = some e ∧ e.range.Contains address := by
  rcases entryIndexByAddress_spec hv address with
    ⟨pre, x, post, heq, hin, hindex⟩ | ⟨hindex, hnot⟩
  · have hget : space.entries[pre.length]? = some x := by
      rw [heq]
      simp
    rw [hindex, Except.ok.injEq, some.injEq]
    constructor
    · rintro rfl
      exact ⟨x, hget, hin⟩
    · rintro ⟨e, he, hcontains⟩
      exact index_unique hv hget hin he hcontains
  · rw [hindex]
    refine iff_of_false (by simp) ?_
    rintro ⟨e, he, hcontains⟩
    exact hnot ⟨e, mem_of_getElem? he, hcontains⟩

theorem entryIndexByAddress_absent (hv : space.Valid) (address : ℕ) :
    space.entryIndexByAddress address = .ok none ↔
      ∀ e ∈ space.entries, ¬ e.range.Contains address := by
  rcases entryIndexByAddress_spec hv address with
    ⟨pre, x, post, heq, hin, hindex⟩ | ⟨hindex, hnot⟩
  · rw [hindex]
    refine iff_of_false (by simp) fun h => h x ?_ hin
    rw [heq]
    simp
  · rw [hindex]
    exact iff_of_true rfl fun e he hin => hnot ⟨e, he, hin⟩

/-- The invariant of the entry list, in every state of every run. -/
theorem reachable_entryList {space : AddressSpace} (h : system.Reachable anyStep space) :
    EntryList space := by
  have hv := reachable_valid h
  refine ⟨fun e he => ?_, fun e he => (hv.consistent.entry e he).nonempty, ?_, ?_,
    fun e he => reachable_guarded h he, entryIndexByAddress_found hv, entryIndexByAddress_absent hv⟩
  · have hgood := hv.consistent.entry e he
    exact ⟨hgood.alignedAddress, hgood.alignedSize⟩
  · refine hv.consistent.ordered.imp_of_mem fun {first second} hfirst _ hlt => ?_
    have hpos := (hv.consistent.entry first hfirst).nonempty
    have hle := hlt.ranges
    rw [stop_eq] at hle
    omega
  · refine hv.consistent.ordered.imp fun {first second} hlt address hboth => ?_
    have hle := hlt.ranges
    have h1 := contains_iff.mp hboth.1
    have h2 := contains_iff.mp hboth.2
    omega

/-- Map three pages, make the middle one read-only, unmap the first. -/
def carve : List Operation :=
  [.map {} (readWriteAt 0x2000 0x3000),
    .changeProtection {} ⟨0x3000, 0x1000⟩ (.protection { read := true }),
    .unmap {} ⟨0x2000, 0x1000⟩]

theorem reachable_entryList_carved : ∃ space : AddressSpace,
    space.entries.map Entry.range = [⟨0x3000, 0x1000⟩, ⟨0x4000, 0x1000⟩] ∧ EntryList space := by
  let next := fun space operation => (Operation.run space operation).toOption
  have hranges : (System.runNext next userSpace carve).map (·.entries.map Entry.range) =
      some [⟨0x3000, 0x1000⟩, ⟨0x4000, 0x1000⟩] := by decide
  obtain ⟨space, hrun, hspace⟩ := map_eq_some_iff.mp hranges
  exact ⟨space, hspace, reachable_entryList (reachable_of_run carve hrun)⟩

end AddressSpace

end Innigkeit.Memory

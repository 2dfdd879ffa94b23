import Innigkeit.Memory.AddressSpace.PerformChange

/-!
`changeProtection` in a valid address space: which requests pass the validation,
what the page table is asked for, and when the call returns. It does not return
for a range whose end is no machine address, for a protection without
permissions that changes an entry, and where `performChangeProtection` traps.
-/

namespace Innigkeit.Memory

open Zig List Option Except VirtualRange Checked ChangeProtectionBatch

namespace AddressSpace

namespace ChangeProtection.Request

def Accepts (request : Request) (entry : Entry) : Prop :=
  (∀ newMax ∈ request.maxProtection, newMax.exceeds entry.maxProtection = false) ∧
    (request.protection.getD entry.protection).exceeds
      (request.maxProtection.getD entry.maxProtection) = false
  deriving Decidable

def ChangesProtection (request : Request) (entry : Entry) : Prop :=
  ∃ protection ∈ request.protection, protection ≠ entry.protection
  deriving Decidable

end ChangeProtection.Request

section

variable {request : ChangeProtection.Request} {result : ValidateChangeProtection} {entry : Entry}

theorem validateEntry_of_accepts (h : request.Accepts entry) :
    validateEntry request result entry = .ok
      { noOp := result.noOp && request.satisfied entry
        updatePageTable :=
          result.updatePageTable || decide (request.ChangesProtection entry) } := by
  obtain ⟨protection, maxProtection⟩ := request
  obtain ⟨hmax, hprot⟩ := h
  unfold validateEntry ChangeProtection.Request.satisfied ChangeProtection.Request.ChangesProtection
  have hsymm (p q : Protection) : (p == q) = decide (q = p) := by
    rw [Bool.eq_iff_iff, beq_iff_eq, decide_eq_true_iff, eq_comm]
  cases maxProtection with
  | none | some newMax =>
    cases protection with
    | none => simp_all [pure, Except.pure, bind, Except.bind]
    | some p =>
      by_cases hp : entry.protection = p
      · simp_all [pure, Except.pure, bind, Except.bind]
      · simp_all [pure, Except.pure, bind, Except.bind, Ne.symm hp]

variable (result) in
theorem validateEntry_of_not_accepts (h : ¬ request.Accepts entry) :
    ∃ error, validateEntry request result entry = .error error := by
  obtain ⟨protection, maxProtection⟩ := request
  unfold validateEntry
  cases maxProtection with
  | none =>
    cases protection <;> simp_all [ChangeProtection.Request.Accepts, pure, Except.pure, bind,
      Except.bind, throw, throwThe, MonadExceptOf.throw]
  | some newMax =>
    by_cases hmax : newMax.exceeds entry.maxProtection = true
    · exact ⟨.maxProtectionIncreased, by simp [hmax, bind, Except.bind, throw, throwThe,
        MonadExceptOf.throw]⟩
    · cases protection <;> simp_all [ChangeProtection.Request.Accepts, pure, Except.pure, bind,
        Except.bind, throw, throwThe, MonadExceptOf.throw]

theorem validate_of_accepts {entries : List Entry} (h : ∀ e ∈ entries, request.Accepts e) :
    entries.foldlM (validateEntry request) result = .ok
      { noOp := result.noOp && entries.all request.satisfied
        updatePageTable := result.updatePageTable ||
          entries.any fun e => decide (request.ChangesProtection e) } := by
  induction entries generalizing result with
  | nil => simp [pure, Except.pure]
  | cons e entries ih =>
    simp only [forall_mem_cons] at h
    rw [foldlM_cons, validateEntry_of_accepts h.1]
    simp only [bind, Except.bind, ih h.2, all_cons, any_cons, Bool.and_assoc, Bool.or_assoc]

variable (result) in
theorem validate_of_not_accepts {entries : List Entry} (h : ∃ e ∈ entries, ¬ request.Accepts e) :
    ∃ error, entries.foldlM (validateEntry request) result = .error error := by
  induction entries generalizing result with
  | nil => simp at h
  | cons e entries ih =>
    rw [foldlM_cons]
    by_cases he : request.Accepts e
    · rw [validateEntry_of_accepts he]
      exact ih _ (by simpa [he] using h)
    · obtain ⟨error, herror⟩ := validateEntry_of_not_accepts result he
      exact ⟨error, by rw [herror]; rfl⟩

end

section

theorem ChangeProtectionBatch.append_returns (batch : ChangeProtectionBatch)
    (range : VirtualRangeWithMapType) (ha : PageAligned range.virtualRange.address)
    (hs : PageAligned range.virtualRange.size) (hfits : range.virtualRange.Fits)
    (hhead : ∀ last ∈ batch.head?, last.virtualRange.stop ≤ range.virtualRange.address) :
    ∃ batch', batch.append range = .ok batch' ∧ (batch = [] → batch' = some [range]) ∧
      ∀ b ∈ batch', ∃ last, b.head? = some last ∧
        last.virtualRange.stop ≤ range.virtualRange.stop := by
  have haligned : range.virtualRange.pageAligned = true := by
    simp [pageAligned, ha, hs]
  cases batch with
  | nil =>
    refine ⟨some [range], ?_, fun _ => rfl, ?_⟩
    · simp only [append, assert_of haligned, ok_bind, pure_eq_ok]
    · rintro b ⟨⟩
      exact ⟨range, rfl, le_rfl⟩
  | cons last rest =>
    have hle := hhead last rfl
    have hlast : last.virtualRange.Fits := by
      have h1 : range.virtualRange.stop < 2 ^ 64 := hfits
      have h2 : range.virtualRange.stop =
        range.virtualRange.address + range.virtualRange.size := rfl
      exact lt_of_le_of_lt hle (by omega)
    have hhull : (last.virtualRange.hull range.virtualRange).stop = range.virtualRange.stop :=
      hull_stop hle
    simp only [append, assert_of haligned, ok_bind, after_of_fits hlast,
      assert_of hle, VirtualAddress.difference_of_le hle, extendOver_eq hle hfits, pure_eq_ok]
    split
    · refine ⟨_, rfl, by simp, ?_⟩
      rintro b ⟨⟩
      exact ⟨_, rfl, le_of_eq hhull⟩
    · split
      · exact ⟨none, rfl, by simp, by simp⟩
      · refine ⟨_, rfl, by simp, ?_⟩
        rintro b ⟨⟩
        exact ⟨range, rfl, le_rfl⟩

variable {limit : ℕ} {heap : Heap} {range : VirtualRange} {entries pre mid post : List Entry}
  {first last : Entry} {context : Context} {newMapType : MapType}

variable (context newMapType) in
/-- The page table is asked for the change unless the new protection has no permissions. -/
theorem changeProtectionBatches_spec (hc : Consistent limit heap entries) (hl : limit < 2 ^ 64)
    (hfits : range.Fits) (hpos : 0 < range.size) (ha : PageAligned range.address)
    (hs : PageAligned range.size) (hcut : RangeCut range entries pre mid post)
    (hfirst : mid.head? = some first) (hlast : mid.getLast? = some last)
    (done rest : List Entry) (hmid : mid = done ++ rest) (batch : ChangeProtectionBatch)
    (hnext : ∀ r ∈ batch.head?, ∀ x ∈ rest, r.virtualRange.stop ≤ (clip range x.range).address)
    (hsome : batch ≠ [] ∨ rest ≠ []) :
    Returns (changeProtectionBatches context newMapType (rangeOf range pre mid first last)
      range entries (List.range' (pre.length + done.length) rest.length) batch) ↔
      newMapType.protection ≠ .none := by
  have hsubmit (b : ChangeProtectionBatch) : Returns (submitChangeProtection b newMapType) ↔
      newMapType.protection ≠ .none := by
    by_cases hnone : newMapType.protection = .none <;> simp [submitChangeProtection, hnone, assert]
  induction rest generalizing done batch with
  | nil =>
    have hne : batch.isEmpty = false := by simpa using hsome
    rw [← hsubmit batch, length_nil, range'_zero, changeProtectionBatches,
      if_neg (by simp [hne]), returns_bind]
    simp [Returns]
  | cons x rest ih =>
    obtain ⟨hca, hcs, -, -, hcstop⟩ := clip_good (x := x) hc hcut hpos ha hs
      (by rw [hmid]; simp)
    have hcfits : (clip range x.range).Fits := lt_of_le_of_lt hcstop hfits
    have hat := rangeAt_eq hc hl hfits hcut hfirst hlast hmid
    have hord := clip_ordered hc hcut hmid
    have hmid' : mid = (done ++ [x]) ++ rest := by rw [hmid]; simp
    have hlen : pre.length + done.length + 1 = pre.length + (done ++ [x]).length := by
      simp only [length_append, length_singleton]
      omega
    rw [length_cons, range'_succ, hlen]
    obtain ⟨r, hr⟩ : ∃ r : VirtualRangeWithMapType,
      r = ⟨clip range x.range, { type := context, protection := x.protection }⟩ := ⟨_, rfl⟩
    obtain ⟨batch', happ, -, hhead⟩ := ChangeProtectionBatch.append_returns
      batch r (hr ▸ hca) (hr ▸ hcs) (hr ▸ hcfits)
      (fun y hy => by rw [hr]; exact hnext y hy x (by simp))
    obtain ⟨batch₁, hone, hsingle, hhead₁⟩ := ChangeProtectionBatch.append_returns
      [] r (hr ▸ hca) (hr ▸ hcs) (hr ▸ hcfits) (by simp)
    -- what has been appended ends before the parts that are still to come
    have hstep (b : ChangeProtectionBatch) (hb : ∃ y, b.head? = some y ∧
        y.virtualRange.stop ≤ r.virtualRange.stop) :
        Returns (changeProtectionBatches context newMapType
          (rangeOf range pre mid first last) range entries
          (List.range' (pre.length + (done ++ [x]).length) rest.length) b) ↔
          newMapType.protection ≠ .none := by
      obtain ⟨y, hy, hystop⟩ := hb
      refine ih (done ++ [x]) hmid' b (fun z hz w hw => ?_) (.inl ?_)
      · obtain rfl : y = z := by simpa [hy] using hz
        refine le_trans hystop ?_
        rw [hr]
        exact hord w hw
      · rintro rfl
        simp at hy
    simp only [changeProtectionBatches, hat, index_of (hcut.getElem?_eq hmid), ok_bind, ← hr, happ]
    cases batch' with
    | some b => exact hstep b (hhead b rfl)
    | none =>
      obtain rfl := hsingle rfl
      simp only [hone, ok_bind, getD_some, returns_bind, pure_eq_ok, returns_ok, and_true]
      rw [← Returns, hstep _ (hhead₁ _ rfl)]
      constructor
      · rintro ⟨-, -, hne⟩
        exact hne
      · intro hne
        obtain ⟨a, ha⟩ := (hsubmit batch).mpr hne
        exact ⟨a, ha, hne⟩

end

/-- The call gets past its checks and has something to change. -/
structure Proceeds (allocation : Allocation) (space : AddressSpace) (range : VirtualRange)
    (request : ChangeProtection.Request) : Prop where
  accepted : ∀ e ∈ space.entries, e.range.Overlaps range → request.Accepts e
  changes : ∃ e ∈ space.entries, e.range.Overlaps range ∧ request.satisfied e = false
  allocated : allocation.entryAvailable = true ∨ ∀ e ∈ space.entries, e.range.Overlaps range →
    range.address ≤ e.range.address ∧ e.range.stop ≤ range.stop

def ChangeReturns (allocation : Allocation) (self : AddressSpace) (range : VirtualRange)
    (request : ChangeProtection.Request) : Prop :=
  request.maxProtection = some .none ∨ range.size = 0 ∨
    range.Fits ∧ (Proceeds allocation self range request →
      ((∃ e ∈ self.entries, e.range.Overlaps range ∧ request.ChangesProtection e) →
        request.protection ≠ some .none) ∧
      PageCountsFit self.heap range request self.entries ∧
      ¬ CounterUnderflows self.heap range request self.entries)

inductive ChangeOutcome (request : ChangeProtection.Request) (range : VirtualRange)
    (self : AddressSpace) :
    Except ChangeProtectionError (List (ChangeProtectionBatch × MapType)) × AddressSpace → Prop
  | refused (error : ChangeProtectionError) : ChangeOutcome request range self (.error error, self)
  | done {batches : List (ChangeProtectionBatch × MapType)} {space : AddressSpace}
      (h : ProtectionChanged request range self space) :
      ChangeOutcome request range self (.ok batches, space)

section

variable {self : AddressSpace} {range : VirtualRange} {allocation : Allocation}
  {change : ChangeProtection}

theorem ProtectionChanged.of_satisfied {request : ChangeProtection.Request} (hv : self.Valid)
    (h : ∀ e ∈ self.entries, ∀ a, range.Contains a → e.range.Contains a →
      request.satisfied e = true) :
    ProtectionChanged request range self self where
  bounds := rfl
  context := rfl
  consistent := hv.consistent
  pages address := by
    have heq : changedPage request range self.entries address = pageAt self.entries address := by
      rw [changedPage]
      split
      case isFalse => rfl
      case isTrue hin =>
        rw [pageAt]
        cases hfind : self.entries.find? fun e => decide (e.range.Contains address) with
        | none => rfl
        | some e =>
          have hc := find?_some hfind
          have hs := h e (mem_of_find?_eq_some hfind) address hin (by simpa using hc)
          simp only [map_some, ← ChangeProtection.Request.apply_page,
            ChangeProtection.Request.apply_of_satisfied hs]
    rw [heq]
    exact Surgery.rel_refl (Page.Keeps.refl _) _

variable {pre mid post : List Entry} {first last : Entry}
  {outcome : Except ChangeProtectionError (List (ChangeProtectionBatch × MapType)) × AddressSpace}

private theorem inside_of_ends (hv : self.Valid)
    (hcut : RangeCut range self.entries pre mid post) (hfirst : mid.head? = some first)
    (hlast : mid.getLast? = some last) (hlo : range.address ≤ first.range.address)
    (hhi : last.range.stop ≤ range.stop) {e : Entry} (he : e ∈ mid) :
    range.address ≤ e.range.address ∧ e.range.stop ≤ range.stop := by
  constructor
  · obtain ⟨ms, rfl⟩ := head?_eq_some_iff.mp hfirst
    rcases mem_cons.mp he with rfl | he
    · exact hlo
    · exact hcut.address_le hv.consistent e he
  · obtain ⟨init, rfl⟩ := getLast?_eq_some_iff.mp hlast
    rcases mem_append.mp he with he | he
    · exact hcut.stop_le hv.consistent e he
    · rw [mem_singleton.mp he]
      exact hhi

private theorem worseCaseNewEntries_eq_zero :
    worseCaseNewEntries (rangeOf range pre mid first last) = 0 ↔
      range.address ≤ first.range.address ∧ last.range.stop ≤ range.stop := by
  simp [worseCaseNewEntries, rangeOf, Bool.toNat_eq_zero]

private theorem updatePageTable_returns (request : ChangeProtection.Request) (noOp : Bool)
    (hv : self.Valid) (ha : PageAligned range.address) (hs : PageAligned range.size)
    (hpos : 0 < range.size) (hfits : range.Fits) (hcut : RangeCut range self.entries pre mid post)
    (hfirst : mid.head? = some first) (hlast : mid.getLast? = some last) :
    Returns (self.updatePageTable (rangeOf range pre mid first last) range request
      ⟨noOp, mid.any fun e => decide (request.ChangesProtection e)⟩) ↔
      ((∃ e ∈ mid, request.ChangesProtection e) → request.protection ≠ some .none) := by
  by_cases hex : ∃ e ∈ mid, request.ChangesProtection e
  case neg =>
    have hany : (mid.any fun e => decide (request.ChangesProtection e)) = false := by
      simpa using hex
    simp [updatePageTable, hany, hex]
  case pos =>
    have hany : (mid.any fun e => decide (request.ChangesProtection e)) = true := by
      simpa using hex
    obtain ⟨p, hp⟩ : ∃ p, request.protection = some p := by
      obtain ⟨-, -, p, hp, -⟩ := hex
      exact ⟨p, hp⟩
    have hbatches := changeProtectionBatches_spec self.context
      { type := self.context, protection := p } hv.consistent hv.fits hfits hpos ha
      hs hcut hfirst hlast [] mid rfl [] (by simp)
      (.inr (ne_nil_of_mem (mem_of_head? hfirst)))
    rw [updatePageTable, if_pos hany, hp, unwrap, ok_bind]
    simp only [ne_eq, some.injEq] at hbatches ⊢
    rw [show (rangeOf range pre mid first last).indices =
      List.range' (pre.length + ([] : List Entry).length) mid.length from rfl, hbatches]
    exact ⟨fun h _ => h, fun h => h hex⟩

variable (allocation change) in
/-- What is left of the call once the entries of the range are known. -/
private theorem changeProtection_run (hv : self.Valid) (ha : PageAligned range.address)
    (hs : PageAligned range.size) (hmax : change.toRequest.maxProtection ≠ some .none)
    (hzero : range.size ≠ 0) (hfits : range.Fits) (hcut : RangeCut range self.entries pre mid post)
    (hfirst : mid.head? = some first) (hlast : mid.getLast? = some last) :
    (∀ error, mid.foldlM (validateEntry change.toRequest) {} = .error error →
      changeProtection allocation self range change = .ok (.error error, self)) ∧
    ∀ validated, mid.foldlM (validateEntry change.toRequest) {} = .ok validated →
      changeProtection allocation self range change =
        if validated.noOp then .ok (.ok [], self)
        else if worseCaseNewEntries (rangeOf range pre mid first last) ≠ 0 ∧
            allocation.entryAvailable = false then .ok (.error .outOfMemory, self)
        else self.updatePageTable (rangeOf range pre mid first last) range change.toRequest
            validated >>= fun batches => performChangeProtection
          { self with entriesVersion := (self.entriesVersion + 1) % 2 ^ 32 }
          (rangeOf range pre mid first last) range change.toRequest >>= fun r =>
            .ok (.ok batches, r.2) := by
  have halign : ¬ range.pageAligned = false := by
    simp [pageAligned, ha, hs]
  have hlen : (rangeOf range pre mid first last).length ≠ 0 := by
    simpa using ne_nil_of_mem (mem_of_head? hfirst)
  have hslice : self.validateChangeProtection (rangeOf range pre mid first last) change.toRequest =
      mid.foldlM (validateEntry change.toRequest) {} := by
    rw [validateChangeProtection, rangeOf_start, rangeOf_length, hcut.cut, append_assoc,
      drop_left, take_left]
  rw [changeProtection, if_neg halign, if_neg hmax, if_neg hzero]
  simp only [entryRange_some hv hfits hcut hfirst hlast, ok_bind, assert_of hlen, hslice,
    pure_eq_ok]
  constructor
  · intro error herror
    rw [herror]
  · intro validated hok
    rw [hok]

section

variable (hv : self.Valid)
include hv

variable (allocation change) in
theorem changeProtection_outcome (ha : PageAligned range.address)
    (hs : PageAligned range.size) (hover : ∃ e ∈ self.entries, e.range.Overlaps range) :
    (∃ outcome, changeProtection allocation self range change = .ok outcome ∧
      ChangeOutcome change.toRequest range self outcome ∧
      (outcome.2 = self ∨
        ∀ e ∈ self.entries, e.range.Overlaps range → change.toRequest.Accepts e) ∧
      ChangeReturns allocation self range change.toRequest) ∨
    ¬ Returns (changeProtection allocation self range change) ∧
      ¬ ChangeReturns allocation self range change.toRequest := by
  have halign : ¬ range.pageAligned = false := by
    simp [pageAligned, ha, hs]
  obtain ⟨request, hrequest⟩ : ∃ request, request = change.toRequest := ⟨_, rfl⟩
  rw [← hrequest]
  by_cases hmax : request.maxProtection = some .none
  · refine .inl ⟨(.error .maxProtectionNone, self), ?_, .refused _, .inl rfl, .inl hmax⟩
    simp [changeProtection, ← hrequest, hmax, halign]
  by_cases hzero : range.size = 0
  · refine .inl ⟨(.ok [], self), ?_, .done ?_, .inl rfl, .inr (.inl hzero)⟩
    · simp [changeProtection, ← hrequest, hmax, halign, hzero]
    · refine .of_satisfied hv fun e _ a hin _ => ?_
      simp only [contains_iff, stop_eq] at hin
      omega
  have hpos : 0 < range.size := pos_of_ne_zero hzero
  by_cases hfits : range.Fits
  case neg =>
    refine .inr ⟨?_, by simp [ChangeReturns, hmax, hzero, hfits]⟩
    have htrap := entryRange_overflow hv hfits (by
      obtain ⟨e, he, ho⟩ := hover
      exact ⟨e, he, (overlaps_iff.mp ho).2⟩)
    rw [changeProtection, if_neg halign, ← hrequest, if_neg hmax, if_neg hzero, returns_bind]
    rintro ⟨er, her, -⟩
    exact htrap ⟨er, her⟩
  obtain ⟨pre, mid, post, first, last, hcut, hfirst, hlast⟩ :=
    hv.consistent.rangeCut_of_overlaps hover
  have hne : mid ≠ [] := ne_nil_of_mem (mem_of_head? hfirst)
  have hmem : ∀ e, e ∈ mid ↔ e ∈ self.entries ∧ e.range.Overlaps range := by
    intro e
    constructor
    · intro he
      have hin : e ∈ self.entries := by rw [hcut.cut]; simp [he]
      exact ⟨hin, (hcut.overlaps_iff hv.consistent.entry hin).mpr he⟩
    · rintro ⟨hin, ho⟩
      exact (hcut.overlaps_iff hv.consistent.entry hin).mp ho
  obtain ⟨herr, hrun⟩ := changeProtection_run allocation change hv ha hs
    (hrequest ▸ hmax) hzero hfits hcut hfirst hlast
  rw [← hrequest] at herr hrun
  by_cases hacc : ∀ e ∈ mid, request.Accepts e
  case neg =>
    obtain ⟨error, herror⟩ := validate_of_not_accepts {}
      (show ∃ e ∈ mid, ¬ request.Accepts e by simpa using hacc)
    refine .inl ⟨(.error error, self), herr error herror, .refused _, .inl rfl,
      .inr (.inr ⟨hfits, ?_⟩)⟩
    intro hp
    exact absurd (fun e he => hp.accepted e ((hmem e).mp he).1 ((hmem e).mp he).2) hacc
  rw [hrun _ (validate_of_accepts hacc)]
  by_cases hnoop : ∀ e ∈ mid, request.satisfied e = true
  · refine .inl ⟨(.ok [], self), if_pos (by simpa using hnoop), .done ?_, .inl rfl,
      .inr (.inr ⟨hfits, ?_⟩)⟩
    · refine .of_satisfied hv fun e he a hin hc => hnoop e ((hmem e).mpr ⟨he, ?_⟩)
      rw [contains_iff] at hin hc
      rw [overlaps_iff]
      omega
    · rintro ⟨-, ⟨e, he, ho, hsat⟩, -⟩
      rw [hnoop e ((hmem e).mpr ⟨he, ho⟩)] at hsat
      cases hsat
  rw [if_neg (by simpa using hnoop)]
  by_cases hfail : worseCaseNewEntries (rangeOf range pre mid first last) ≠ 0 ∧
      allocation.entryAvailable = false
  · refine .inl ⟨(.error .outOfMemory, self), by rw [if_pos hfail], .refused _, .inl rfl,
      .inr (.inr ⟨hfits, fun hp => absurd hp.allocated ?_⟩)⟩
    rw [ne_eq, worseCaseNewEntries_eq_zero] at hfail
    rw [hfail.2]
    rintro (hfalse | hinside)
    · cases hfalse
    · have h1 := (hmem first).mp (mem_of_head? hfirst)
      have h2 := (hmem last).mp (mem_of_getLast? hlast)
      exact hfail.1 ⟨(hinside first h1.1 h1.2).1, (hinside last h2.1 h2.2).2⟩
  rw [if_neg hfail]
  have hproceeds : Proceeds allocation self range request := by
    refine ⟨fun e he ho => hacc e ((hmem e).mpr ⟨he, ho⟩), ?_, ?_⟩
    · obtain ⟨e, he, hsat⟩ : ∃ e ∈ mid, request.satisfied e = false := by simpa using hnoop
      exact ⟨e, ((hmem e).mp he).1, ((hmem e).mp he).2, hsat⟩
    · cases havail : allocation.entryAvailable with
      | true => exact .inl rfl
      | false =>
        have hworse : worseCaseNewEntries (rangeOf range pre mid first last) = 0 := by
          by_contra hne'
          exact hfail ⟨hne', havail⟩
        rw [worseCaseNewEntries_eq_zero] at hworse
        exact .inr fun e he ho => inside_of_ends hv hcut hfirst hlast hworse.1
          hworse.2 ((hmem e).mpr ⟨he, ho⟩)
  have hchanges : (∃ e ∈ mid, request.ChangesProtection e) ↔
      ∃ e ∈ self.entries, e.range.Overlaps range ∧ request.ChangesProtection e := by
    simp only [hmem, and_assoc]
  have hupdate := updatePageTable_returns request (mid.all request.satisfied)
    hv ha hs hpos hfits hcut hfirst hlast
  rw [hchanges] at hupdate
  have hv' : AddressSpace.Valid
      { self with entriesVersion := (self.entriesVersion + 1) % 2 ^ 32 } :=
    ⟨hv.aligned, hv.fits, hv.consistent⟩
  simp only [Bool.true_and, Bool.false_or]
  cases hbatches : self.updatePageTable (rangeOf range pre mid first last) range request
      ⟨mid.all request.satisfied, mid.any fun e => decide (request.ChangesProtection e)⟩ with
  | error trap =>
    rw [hbatches] at hupdate
    refine .inr ⟨by simp only [error_bind, not_returns_error, not_false_eq_true], ?_⟩
    rintro (h | h | ⟨-, h⟩)
    · exact hmax h
    · exact hzero h
    · exact absurd (hupdate.mpr (h hproceeds).1) (by simp)
  | ok batches =>
    rw [hbatches] at hupdate
    have hne' := hupdate.mp (by simp)
    rcases performChangeProtection_spec request hv' hfits hpos ha hs hcut hfirst
      hlast with ⟨result, space, hperform, hchanged, hfit, hunder⟩ | ⟨⟨trap, htrap⟩, hno⟩
    · refine .inl ⟨(.ok batches, space), by simp only [ok_bind, hperform], .done ?_,
        .inr hproceeds.accepted, .inr (.inr ⟨hfits, fun _ => ⟨hne', hfit, hunder⟩⟩)⟩
      exact ⟨hchanged.bounds, hchanged.context, hchanged.consistent, hchanged.pages⟩
    · refine .inr ⟨?_, ?_⟩
      · simp only [ok_bind, htrap, error_bind]
        exact not_returns_error trap
      · rintro (h | h | ⟨-, h⟩)
        · exact hmax h
        · exact hzero h
        · exact hno (h hproceeds).2

/-- No entry overlaps, so that the search for the entries of the range finds nothing or traps. -/
private theorem changeProtection_of_not_overlaps
    (hover : ¬ ∃ e ∈ self.entries, e.range.Overlaps range)
    (h : changeProtection allocation self range change = .ok outcome) : outcome.2 = self := by
  by_cases halign : range.pageAligned = false
  · rw [changeProtection, if_pos halign, pure_eq_ok, ok.injEq] at h
    rw [← h]
  rw [changeProtection, if_neg halign] at h
  by_cases hmax : change.toRequest.maxProtection = some .none
  · rw [if_pos hmax, pure_eq_ok, ok.injEq] at h
    rw [← h]
  by_cases hzero : range.size = 0
  · rw [if_neg hmax, if_pos hzero, pure_eq_ok, ok.injEq] at h
    rw [← h]
  rw [if_neg hmax, if_neg hzero, bind_eq_ok] at h
  obtain ⟨er, her, h⟩ := h
  by_cases hall : ∀ e ∈ self.entries, e.range.stop ≤ range.address
  · rw [entryRange_none hv hall, ok.injEq] at her
    subst her
    rw [pure_eq_ok, ok.injEq] at h
    rw [← h]
  · exact absurd ⟨er, her⟩ (entryRange_trap hv hall fun hboth => hover hboth.2)

/-- Whatever the range: nothing is changed, or the request fits every entry of the range and is
applied to them. -/
theorem changeProtection_changed (h : changeProtection allocation self range change = .ok outcome) :
    outcome.2 = self ∨
      (∀ e ∈ self.entries, e.range.Overlaps range → change.toRequest.Accepts e) ∧
      ProtectionChanged change.toRequest range self outcome.2 := by
  by_cases hover : ∃ e ∈ self.entries, e.range.Overlaps range
  case neg => exact .inl (changeProtection_of_not_overlaps hv hover h)
  by_cases halign : range.pageAligned = false
  · simp only [changeProtection, halign, if_true, pure_eq_ok, ok.injEq] at h
    exact .inl (h ▸ rfl)
  obtain ⟨ha, hs⟩ := pageAligned_eq_true.mp (by simpa using halign)
  rcases changeProtection_outcome allocation change hv ha hs hover with
    ⟨outcome', heq, hout, haccepts, -⟩ | ⟨hno, -⟩
  · rw [h, ok.injEq] at heq
    subst heq
    cases hout with
    | refused error => exact .inl rfl
    | done hchanged => exact haccepts.imp_right fun haccepts => ⟨haccepts, hchanged⟩
  · exact absurd ⟨outcome, h⟩ hno

theorem changeProtection_applied {space : AddressSpace}
    {batches : List (ChangeProtectionBatch × MapType)}
    (h : changeProtection allocation self range change = .ok (.ok batches, space)) :
    ProtectionChanged change.toRequest range self space := by
  by_cases halign : range.pageAligned = false
  · rw [changeProtection, if_pos halign] at h
    cases h
  by_cases hover : ∃ e ∈ self.entries, e.range.Overlaps range
  · obtain ⟨ha, hs⟩ := pageAligned_eq_true.mp (by simpa using halign)
    rcases changeProtection_outcome allocation change hv ha hs hover with
      ⟨outcome', heq, hout, -⟩ | ⟨hno, -⟩
    · rw [h, ok.injEq] at heq
      subst heq
      cases hout with
      | done hchanged => exact hchanged
    · exact absurd ⟨_, h⟩ hno
  · obtain rfl : space = self := changeProtection_of_not_overlaps hv hover h
    refine .of_satisfied hv fun e he a hin hc => absurd ⟨e, he, ?_⟩ hover
    rw [contains_iff] at hin hc
    rw [overlaps_iff]
    omega

theorem changeProtection_valid
    (h : changeProtection allocation self range change = .ok outcome) : outcome.2.Valid := by
  rcases changeProtection_changed hv h with hself | ⟨-, hchanged⟩
  · rw [hself]
    exact hv
  · have hb := hchanged.bounds
    exact ⟨hb ▸ hv.aligned, hb ▸ hv.fits, hb ▸ hchanged.consistent⟩

end

end

end AddressSpace

end Innigkeit.Memory

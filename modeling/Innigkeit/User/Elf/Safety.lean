import Innigkeit.User.Elf.Loader

/-!
Which files the loader takes without a trap. The passes are first brought from the
iterators to the list of program headers. A region is formed with overflow checks
that the sizes of the segments decide; the last pass adds numbers of segments
that the others skip, because they take no memory, and so never checked.
-/

namespace Innigkeit.User.Elf

open Zig Memory Handlers List VirtualRange ProgramHeader Checked Nat Iterator

namespace ProgramHeader

def Loads (self : ProgramHeader) : Prop := self.type = load ∧ self.memorySize ≠ 0
  deriving Decidable

/-- The pages that the segment touches. -/
def range (self : ProgramHeader) : VirtualRange where
  address := self.virtualAddress / 4096 * 4096
  size := (self.virtualAddress % 4096 + self.memorySize + 4095) / 4096 * 4096

/-- The pages of the segment can be computed with machine words, as far as they are computed. -/
def RangeFits (self : ProgramHeader) : Prop :=
  self.Loads → self.fileSize ≤ self.memorySize →
    self.virtualAddress % 4096 + self.memorySize + 4095 < 2 ^ 64 ∧
      (4096 ≤ self.virtualAddress → self.range.Fits)
  deriving Decidable

/-- The segment meets what the iterator asks of it. -/
structure Accepted (header : ProgramHeader) : Prop where
  size : header.fileSize ≤ header.memorySize
  address : userMemoryRange.address ≤ header.range.address ∧
    header.range.stop ≤ userMemoryRange.stop
  access : header.protection ≠ .none
  notBoth : ¬ (header.write = true ∧ header.execute = true)

/-- The iterator passes over the header or makes a region of it. -/
def Passes (self : ProgramHeader) : Prop := self.Loads → self.Accepted

def region (self : ProgramHeader) : LoadableRegion where
  virtualRange := self.range
  protection := self.protection
  sourceBase := self.offset
  sourceLength := self.fileSize
  destinationOffset := self.virtualAddress % 4096

end ProgramHeader

section

variable {range : VirtualRange}
variable {outer : VirtualRange}

theorem fullyContains_of_fits (houter : outer.Fits)
    (h : outer.address ≤ range.address → range.Fits) :
    fullyContains outer range =
      .ok (decide (outer.address ≤ range.address ∧ range.stop ≤ outer.stop)) := by
  rw [fullyContains]
  by_cases hle : outer.address ≤ range.address
  · rw [if_pos hle, after_of_fits (h hle), after_of_fits houter]
    simp [hle]
  · rw [if_neg hle]
    simp [hle]

theorem fullyContains_of_not_fits (hle : outer.address ≤ range.address)
    (h : ¬ range.Fits) : ¬ Returns (fullyContains outer range) := by
  rw [fullyContains, if_pos hle, returns_bind]
  rintro ⟨stop, hstop, -⟩
  exact h (after_eq_ok.mp hstop).1

private theorem user_fits : userMemoryRange.Fits := by decide

private theorem kernel_fits : kernelMemoryRange.Fits := by decide

/-- A range is classed as user memory if it lies in it; the end of a range that begins in the first
page is not looked at. -/
theorem taggedRange_spec (h : 4096 ≤ range.address → range.Fits) :
    ∃ tag, taggedRange range = .ok tag ∧ (tag = .user ↔
      userMemoryRange.address ≤ range.address ∧ range.stop ≤ userMemoryRange.stop) := by
  have hkernel : kernelMemoryRange.address ≤ range.address → range.Fits :=
    fun hle => h (le_trans (by decide) hle)
  rw [taggedRange, fullyContains_of_fits kernel_fits hkernel, ok_bind]
  split
  case isTrue hin =>
    refine ⟨_, rfl, iff_of_false (by decide) fun hboth => ?_⟩
    have hin := of_decide_eq_true hin
    simp only [kernelMemoryRange, userMemoryRange, stop_eq] at hin hboth
    omega
  case isFalse =>
    rw [fullyContains_of_fits user_fits h, ok_bind]
    split
    case isTrue hin => exact ⟨_, rfl, iff_of_true rfl (of_decide_eq_true hin)⟩
    case isFalse hin => exact ⟨_, rfl, iff_of_false (by decide) fun hboth =>
      hin (decide_eq_true hboth)⟩

theorem taggedRange_of_not_fits (hle : 4096 ≤ range.address) (h : ¬ range.Fits) :
    ¬ Returns (taggedRange range) := by
  rw [taggedRange, returns_bind]
  rintro ⟨b, hb, hrest⟩
  by_cases hkernel : kernelMemoryRange.address ≤ range.address
  · exact fullyContains_of_not_fits hkernel h ⟨b, hb⟩
  · rw [fullyContains, if_neg hkernel] at hb
    cases hb
    rw [if_neg (by decide), returns_bind] at hrest
    obtain ⟨b, hb, -⟩ := hrest
    exact fullyContains_of_not_fits (show userMemoryRange.address ≤ range.address from hle) h
      ⟨b, hb⟩

end

namespace ProgramHeader

variable {header : ProgramHeader}

theorem range_aligned (header : ProgramHeader) : header.range.pageAligned = true :=
  pageAligned_eq_true.mpr ⟨mul_mod_left _ _, mul_mod_left _ _⟩

theorem copy_le_size (h : header.fileSize ≤ header.memorySize) :
    header.virtualAddress % 4096 + header.fileSize ≤ header.range.size := by
  simp only [range]
  omega

open VirtualAddress

private theorem difference_page (address : ℕ) : difference
    (pageAlignBackward address) address = .ok (address % 4096) := by
  have hle : address / 4096 * 4096 ≤ address := div_mul_le_self ..
  have hoffset : address - address / 4096 * 4096 = address % 4096 := by omega
  exact (difference_of_le hle).trans (congrArg _ hoffset)

private theorem loadableRegion_computed (hloads : header.Loads)
    (hsize : header.fileSize ≤ header.memorySize)
    (hfits : header.virtualAddress % 4096 + header.memorySize + 4095 < 2 ^ 64) :
    header.loadableRegion = (do
      if (← taggedRange header.range) ≠ .user then
        return .error .programHeaderInvalidVirtualAddress
      if header.protection = .none then return .error .programHeaderInvalidProtection
      if header.write = true ∧ header.execute = true then
        return .error .programHeaderWritableExecutable
      assert ((← fullyContains userMemoryRange header.range) = true)
      return .ok (some header.region)) := by
  have hadd : header.virtualAddress % 4096 + header.memorySize < 2 ^ 64 := by omega
  rw [loadableRegion, if_neg (not_not.mpr hloads.1), if_neg hloads.2, if_neg (not_lt.mpr hsize)]
  dsimp only
  rw [difference_page, ok_bind, add_of_lt hadd, ok_bind, alignForwardPage_eq (by omega), ok_bind]
  exact congrArg (· >>= _) (assert_of header.range_aligned)

inductive Regioned (header : ProgramHeader) : Prop
  | skipped (h : ¬ header.Loads) (heq : header.loadableRegion = .ok (.ok none))
  | region (h : header.Loads) (hacc : header.Accepted)
      (heq : header.loadableRegion = .ok (.ok (some header.region)))
  | error (h : ¬ header.Passes) (error : RegionError)
      (heq : header.loadableRegion = .ok (.error error))

theorem loadableRegion_of_fits (hfits : header.RangeFits) : header.Regioned := by
  by_cases hloads : header.Loads
  case neg =>
    refine .skipped hloads ?_
    rw [loadableRegion]
    by_cases htype : header.type = load
    · rw [if_neg (not_not.mpr htype), if_pos (not_not.mp fun hne => hloads ⟨htype, hne⟩)]
      rfl
    · rw [if_pos htype]
      rfl
  by_cases hsize : header.fileSize ≤ header.memorySize
  case neg =>
    refine .error (fun h => hsize (h hloads).size) .programHeaderInvalidSize ?_
    rw [loadableRegion, if_neg (not_not.mpr hloads.1), if_neg hloads.2, if_pos (not_le.mp hsize)]
    rfl
  obtain ⟨hwords, hrange⟩ := hfits hloads hsize
  have hfits' : 4096 ≤ header.range.address → header.range.Fits := by
    intro hle
    refine hrange ?_
    simp only [range] at hle
    omega
  have heq := loadableRegion_computed hloads hsize hwords
  obtain ⟨tag, htag, huser⟩ := taggedRange_spec hfits'
  rw [htag, ok_bind] at heq
  by_cases hin : tag = .user
  case neg =>
    rw [if_pos hin] at heq
    exact .error (fun h => hin (huser.mpr (h hloads).address)) _ heq
  rw [if_neg (not_not.mpr hin)] at heq
  by_cases hnone : header.protection = .none
  · rw [if_pos hnone] at heq
    exact .error (fun h => (h hloads).access hnone) _ heq
  rw [if_neg hnone] at heq
  by_cases hboth : header.write = true ∧ header.execute = true
  · rw [if_pos hboth] at heq
    exact .error (fun h => (h hloads).notBoth hboth) _ heq
  rw [if_neg hboth, fullyContains_of_fits user_fits hfits', ok_bind,
    assert_of (decide_eq_true (huser.mp hin))] at heq
  exact .region hloads ⟨hsize, huser.mp hin, hnone, hboth⟩ heq

theorem loadableRegion_of_not_fits (h : ¬ header.RangeFits) :
    ¬ Returns header.loadableRegion := by
  simp only [RangeFits, Classical.not_imp, not_and_or] at h
  obtain ⟨hloads, hsize, h⟩ := h
  by_cases hwords : header.virtualAddress % 4096 + header.memorySize + 4095 < 2 ^ 64
  · obtain ⟨hle, hrange⟩ := h.resolve_left (not_not.mpr hwords)
    rw [loadableRegion_computed hloads hsize hwords, returns_bind]
    rintro ⟨tag, htag, -⟩
    refine taggedRange_of_not_fits ?_ hrange ⟨tag, htag⟩
    simp only [range]
    omega
  · -- the sum with the alignment overflows, or rounding it up does
    rw [loadableRegion, if_neg (not_not.mpr hloads.1), if_neg hloads.2,
      if_neg (not_lt.mpr hsize)]
    dsimp only
    rw [difference_page, ok_bind]
    simp only [returns_bind, add_eq_ok, alignForwardPage, bind_eq_ok]
    rintro ⟨sum, ⟨-, rfl⟩, size, ⟨up, ⟨hup, -⟩, -⟩, -⟩
    simp only [standardPageSize] at hup
    omega

end ProgramHeader

structure LoadableRegion.Good (region : LoadableRegion) : Prop where
  aligned : region.virtualRange.pageAligned = true
  user : userMemoryRange.address ≤ region.virtualRange.address ∧
    region.virtualRange.stop ≤ userMemoryRange.stop
  notBoth : ¬ (region.protection.write = true ∧ region.protection.execute = true)
  copied : region.destinationOffset + region.sourceLength ≤ region.virtualRange.size

theorem ProgramHeader.Accepted.region {header : ProgramHeader} (h : header.Accepted) :
    header.region.Good where
  aligned := header.range_aligned
  user := h.address
  notBoth := h.notBoth
  copied := copy_le_size h.size

variable {region : LoadableRegion}

theorem loadableRegion_good {header : ProgramHeader}
    (h : header.loadableRegion = .ok (.ok (some region))) : region.Good := by
  by_cases hfits : header.RangeFits
  · cases loadableRegion_of_fits hfits with
    | skipped _ heq =>
      rw [h] at heq
      cases heq
    | region _ hacc heq =>
      rw [h] at heq
      cases heq
      exact hacc.region
    | error _ _ heq =>
      rw [h] at heq
      cases heq
  · exact absurd ⟨_, h⟩ (loadableRegion_of_not_fits hfits)

variable {entries : ℕ}

theorem nextRegion_loop_good {it it' : Iterator}
    (h : nextRegion.loop entries it = .ok (.ok (some region), it')) : region.Good := by
  induction entries generalizing it with
  | zero => cases h
  | succ entries ih =>
    simp only [nextRegion.loop, bind_eq_ok] at h
    obtain ⟨⟨header, it₁⟩, -, h⟩ := h
    cases header with
    | none => cases h
    | some header =>
      simp only [bind_eq_ok] at h
      obtain ⟨result, hresult, h⟩ := h
      rcases result with error | _ | found
      · cases h
      · exact ih h
      · cases h
        exact loadableRegion_good hresult

section

variable {σ : Type} {body : σ → LoadableRegion → Checked (Except LoadError Unit × σ)}

def runRegions (body : σ → LoadableRegion → Checked (Except LoadError Unit × σ)) :
    List ProgramHeader → σ → Checked (Except LoadError Unit × σ)
  | [], s => .ok (.ok (), s)
  | header :: headers, s => do
    match ← header.loadableRegion with
    | .error error => return (.error (.region error), s)
    | .ok none => runRegions body headers s
    | .ok (some region) =>
      match ← body s region with
      | (.error error, s) => return (.error error, s)
      | (.ok (), s) => runRegions body headers s

def Iterator.rest (it : Iterator) : List ProgramHeader :=
  programHeadersFrom it.header it.programHeaderTable it.index

variable {it : Iterator}

theorem Iterator.Good.advance (h : it.Good) : Good { it with index := it.index + 1 } :=
  ⟨h.bounded, h.entrySize, h.table⟩

theorem Iterator.Good.next_rest (h : it.Good) :
    it.header.programHeaderEntryCount - it.index = 0 ∧ it.rest = [] ∧ it.next = .ok (none, it) ∨
    ∃ header it', it'.Good ∧ it'.header = it.header ∧ it.rest = header :: it'.rest ∧
      it.next = .ok (some header, it') ∧ it.header.programHeaderEntryCount - it.index =
        it'.header.programHeaderEntryCount - it'.index + 1 := by
  by_cases hend : it.header.programHeaderEntryCount ≤ it.index
  · refine .inl ⟨Nat.sub_eq_zero_of_le hend, programHeadersFrom_of_le hend, ?_⟩
    rw [h.next, if_pos hend]
  · refine .inr ⟨_, { it with index := it.index + 1 }, h.advance, rfl,
      programHeadersFrom_of_lt (not_le.mp hend), by rw [h.next, if_neg hend], ?_⟩
    dsimp only
    omega

theorem mem_programHeadersFrom_zero {header : Header} {table : Bytes} {i : ℕ}
    {programHeader : ProgramHeader} (h : programHeader ∈ programHeadersFrom header table i) :
    programHeader ∈ programHeadersFrom header table 0 := by
  obtain ⟨j, hj, rfl⟩ := mem_map.mp h
  rw [mem_range'_1] at hj
  exact mem_map.mpr ⟨j, mem_range'_1.mpr ⟨j.zero_le, by omega⟩, rfl⟩

theorem nextRegion_loop_returns (h : it.Good) (hfits : ∀ header ∈ it.rest, header.RangeFits)
    (entries : ℕ) : Returns (nextRegion.loop entries it) := by
  induction entries generalizing it with
  | zero => exact ⟨_, rfl⟩
  | succ entries ih =>
    rw [nextRegion.loop]
    rcases h.next_rest with ⟨-, -, hnext⟩ | ⟨header, it', hgood, -, hrest, hnext, -⟩
    · rw [hnext]
      exact ⟨_, rfl⟩
    rw [hnext, ok_bind]
    rw [hrest, forall_mem_cons] at hfits
    cases loadableRegion_of_fits hfits.1 with
    | skipped _ heq =>
      simp only [heq, ok_bind]
      exact ih hgood hfits.2
    | error _ error heq =>
      simp only [heq, ok_bind]
      exact ⟨_, rfl⟩
    | region _ _ heq =>
      simp only [heq, ok_bind]
      exact ⟨_, rfl⟩

/-- The iterator computes the range of the program header that it stands at. -/
theorem rangeFits_of_nextRegion (h : it.Good) (hlt : it.index < it.header.programHeaderEntryCount)
    (hreturns : Returns (nextRegion it)) :
    (programHeaderAt it.header it.programHeaderTable it.index).RangeFits := by
  obtain ⟨entries, hentries⟩ :
      ∃ n, it.header.programHeaderEntryCount - it.index = n + 1 := ⟨_, (succ_pred (by omega)).symm⟩
  rw [nextRegion, hentries, nextRegion.loop, h.next, if_neg (not_le.mpr hlt), ok_bind] at hreturns
  by_contra hnot
  obtain ⟨result, hresult, -⟩ := returns_bind.mp hreturns
  exact loadableRegion_of_not_fits hnot ⟨result, hresult⟩

theorem eachRegion_loop_eq (h : it.Good) {regions : ℕ}
    (hregions : it.header.programHeaderEntryCount - it.index < regions) (s : σ) :
    eachRegion.loop body regions it s = runRegions body it.rest s := by
  -- induction on the entries left, which the inner loop counts down as well
  generalize hleft : it.header.programHeaderEntryCount - it.index = left at hregions
  induction left generalizing it regions s with
  | zero =>
    obtain ⟨regions, rfl⟩ := Nat.exists_eq_add_of_lt hregions
    rcases h.next_rest with ⟨-, hrest, -⟩ | ⟨header, it', -, -, -, -, hcount⟩
    · have hnext : nextRegion it = .ok (.ok none, it) := by
        rw [nextRegion, hleft]
        rfl
      rw [zero_add, eachRegion.loop, hnext, hrest]
      rfl
    · omega
  | succ left ih =>
    obtain ⟨regions, rfl⟩ : ∃ n, regions = n + 1 := ⟨regions - 1, by omega⟩
    rcases h.next_rest with ⟨hzero, -, -⟩ | ⟨header, it', hgood, -, hrest, hnext, hcount⟩
    · omega
    have hleft' : it'.header.programHeaderEntryCount - it'.index = left := by omega
    have hstep : nextRegion it = nextRegion.loop (left + 1) it := by rw [nextRegion, hleft]
    rw [nextRegion.loop, hnext, ok_bind] at hstep
    dsimp only at hstep
    rw [eachRegion.loop, hrest, runRegions]
    cases hregion : header.loadableRegion with
    | error trap =>
      rw [hregion] at hstep
      rw [hstep]
      rfl
    | ok result =>
      rw [hregion, ok_bind] at hstep
      rcases result with error | _ | region
      · rw [hstep]
        rfl
      · have hskip := @ih it' hgood (regions + 1) s hleft' (by omega)
        rw [eachRegion.loop, nextRegion, hleft'] at hskip
        rw [hstep]
        exact hskip
      · rw [hstep]
        simp only [ok_bind, pure_eq_ok]
        cases body s region with
        | error trap => rfl
        | ok outcome =>
          obtain ⟨result, s'⟩ := outcome
          cases result with
          | error error => rfl
          | ok u => exact ih hgood s' hleft' (by omega)

theorem eachRegion_eq {header : Header} {table : Bytes} (hbounded : header.Bounded)
    (htable : header.programHeaderEntrySize * header.programHeaderEntryCount ≤ table.length)
    (s : σ) : eachRegion header table body s =
      if header.programHeaderEntrySize < requiredEntrySize header.is64 then
        .ok (.error (.iterate .programHeaderEntryTooSmall), s)
      else runRegions body (programHeadersFrom header table 0) s := by
  rw [eachRegion, iterateProgramHeaders_eq hbounded htable, ok_bind]
  by_cases hsize : header.programHeaderEntrySize < requiredEntrySize header.is64
  · rw [if_pos hsize, if_pos hsize]
    rfl
  · rw [if_neg hsize, if_neg hsize]
    exact eachRegion_loop_eq ⟨hbounded, not_lt.mp hsize, htable⟩ (lt_succ_self _) s

def searchPhdr (programHeaderOffset : ℕ) : List ProgramHeader → Checked ℕ
  | [] => .ok 0
  | header :: headers => do
    if header.type ≠ load then searchPhdr programHeaderOffset headers
    else if header.offset ≤ programHeaderOffset then
      if programHeaderOffset < (← add 64 header.offset header.fileSize) then
        add 64 header.virtualAddress (← sub programHeaderOffset header.offset)
      else searchPhdr programHeaderOffset headers
    else searchPhdr programHeaderOffset headers

theorem phdrVaddr_loop_eq (h : it.Good) (programHeaderOffset : ℕ)
    (hentries : it.header.programHeaderEntryCount - it.index ≤ entries) :
    phdrVaddr.loop programHeaderOffset entries it = searchPhdr programHeaderOffset it.rest := by
  induction entries generalizing it with
  | zero =>
    rcases h.next_rest with ⟨-, hrest, -⟩ | ⟨header, it', -, -, -, -, hcount⟩
    · rw [hrest]
      rfl
    · omega
  | succ entries ih =>
    rcases h.next_rest with ⟨-, hrest, hnext⟩ | ⟨header, it', hgood, -, hrest, hnext, hcount⟩
    · rw [phdrVaddr.loop, hnext, hrest]
      rfl
    · rw [phdrVaddr.loop, hnext, ok_bind, hrest, searchPhdr]
      dsimp only
      rw [ih hgood (by omega)]

end

section

variable {σ : Type} {body : σ → LoadableRegion → Checked (Except LoadError Unit × σ)}

/-- The end of every segment that begins before the table is computed with machine words, up to the
first that covers the table, and so is the address of the table in that one. -/
def PhdrFits (programHeaderOffset : ℕ) : List ProgramHeader → Prop
  | [] => True
  | header :: headers =>
    if header.type = load ∧ header.offset ≤ programHeaderOffset then
      header.offset + header.fileSize < 2 ^ 64 ∧
        if programHeaderOffset < header.offset + header.fileSize then
          header.virtualAddress + (programHeaderOffset - header.offset) < 2 ^ 64
        else PhdrFits programHeaderOffset headers
    else PhdrFits programHeaderOffset headers

theorem searchPhdr_returns_iff (programHeaderOffset : ℕ) (headers : List ProgramHeader) :
    Returns (searchPhdr programHeaderOffset headers) ↔
      PhdrFits programHeaderOffset headers := by
  induction headers with
  | nil => exact iff_of_true ⟨_, rfl⟩ trivial
  | cons header headers ih =>
    rw [searchPhdr, PhdrFits]
    by_cases htype : header.type = load
    case neg => rw [if_pos htype, if_neg (fun h => htype h.1), ih]
    rw [if_neg (not_not.mpr htype)]
    by_cases hle : header.offset ≤ programHeaderOffset
    case neg => rw [if_neg hle, if_neg (fun h => hle h.2), ih]
    rw [if_pos hle, if_pos ⟨htype, hle⟩]
    by_cases hend : header.offset + header.fileSize < 2 ^ 64
    case neg =>
      refine iff_of_false ?_ fun h => hend h.1
      rw [returns_bind]
      rintro ⟨sum, hsum, -⟩
      exact hend (add_eq_ok.mp hsum).1
    rw [add_of_lt hend, ok_bind]
    by_cases hcovers : programHeaderOffset < header.offset + header.fileSize
    case neg => rw [if_neg hcovers, if_neg hcovers, ih, and_iff_right hend]
    rw [if_pos hcovers, if_pos hcovers, sub_of_le hle, ok_bind, and_iff_right hend]
    constructor
    · rintro ⟨sum, hsum⟩
      exact (add_eq_ok.mp hsum).1
    · intro hlt
      exact ⟨_, add_of_lt hlt⟩

variable {headers : List ProgramHeader}
variable (body) in
theorem runRegions_returns (hfit : ∀ header ∈ headers, header.RangeFits)
    (hbody : ∀ s header, header ∈ headers → header.Accepted →
      Returns (body s header.region))
    (s : σ) : Returns (runRegions body headers s) := by
  induction headers generalizing s with
  | nil => exact ⟨_, rfl⟩
  | cons header headers ih =>
    have hrest := ih (fun header hmem => hfit header (mem_cons_of_mem _ hmem))
      fun s header hmem => hbody s header (mem_cons_of_mem _ hmem)
    rw [runRegions]
    cases loadableRegion_of_fits (hfit header mem_cons_self) with
    | skipped _ heq =>
      rw [heq]
      exact hrest s
    | error _ error heq =>
      rw [heq]
      exact ⟨_, rfl⟩
    | region _ hacc heq =>
      obtain ⟨⟨result, s'⟩, hresult⟩ := hbody s header mem_cons_self hacc
      rw [heq, ok_bind]
      dsimp only
      rw [hresult, ok_bind]
      cases result with
      | error error => exact ⟨_, rfl⟩
      | ok u => exact hrest s'

/-- A pass comes to its end if no program header is refused and its body succeeds. -/
theorem runRegions_completes (hall : ∀ header ∈ headers, header.RangeFits ∧ header.Passes)
    (hbody : ∀ s, ∀ header ∈ headers, header.Loads → header.Accepted → ∃ s',
      body s header.region = .ok (.ok (), s'))
    (s : σ) : ∃ s', runRegions body headers s = .ok (.ok (), s') := by
  induction headers generalizing s with
  | nil => exact ⟨s, rfl⟩
  | cons header headers ih =>
    have hrest := ih (fun h hmem => hall h (mem_cons_of_mem _ hmem))
      fun s h hmem => hbody s h (mem_cons_of_mem _ hmem)
    obtain ⟨hfits, hpasses⟩ := hall header mem_cons_self
    rw [runRegions]
    cases loadableRegion_of_fits hfits with
    | skipped _ heq =>
      rw [heq]
      exact hrest s
    | error hnot error heq => exact absurd hpasses hnot
    | region hloads hacc heq =>
      obtain ⟨s', hs'⟩ := hbody s header mem_cons_self hloads hacc
      rw [heq, ok_bind]
      dsimp only
      rw [hs', ok_bind]
      exact hrest s'

/-- A pass that succeeded has met no program header that is refused, and its body succeeded for
every region. -/
theorem runRegions_ok {s s' : σ} (h : runRegions body headers s = .ok (.ok (), s')) :
    ∀ header ∈ headers, header.RangeFits ∧ header.Passes ∧
      (header.Loads → ∃ s₁ s₂, body s₁ header.region = .ok (.ok (), s₂)) := by
  induction headers generalizing s with
  | nil => simp
  | cons header headers ih =>
    rw [runRegions, bind_eq_ok] at h
    obtain ⟨result, hresult, h⟩ := h
    have hfits : header.RangeFits := by
      by_contra hnot
      exact loadableRegion_of_not_fits hnot ⟨result, hresult⟩
    rw [forall_mem_cons]
    cases loadableRegion_of_fits hfits with
    | skipped hskips heq =>
      rw [hresult, Except.ok.injEq] at heq
      subst heq
      exact ⟨⟨hfits, fun hloads => absurd hloads hskips, fun hloads => absurd hloads hskips⟩,
        ih h⟩
    | error _ error heq =>
      rw [hresult, Except.ok.injEq] at heq
      subst heq
      cases h
    | region _ hacc heq =>
      rw [hresult, Except.ok.injEq] at heq
      subst heq
      rw [bind_eq_ok] at h
      obtain ⟨⟨outcome, s₁⟩, hbody, h⟩ := h
      cases outcome with
      | error error => cases h
      | ok u => exact ⟨⟨hfits, fun _ => hacc, fun _ => ⟨s, s₁, hbody⟩⟩, ih h⟩

end

def ProgramHeader.InFile (length : ℕ) (header : ProgramHeader) : Prop :=
  header.Loads → header.fileSize ≠ 0 →
    header.offset < length ∧ header.fileSize ≤ length - header.offset

section

variable (elfData : Bytes)

def fileTable : Bytes :=
  (elfData.drop (fileHeader elfData).programHeaderOffset).take
    ((fileHeader elfData).programHeaderEntrySize * (fileHeader elfData).programHeaderEntryCount)

def fileProgramHeaders : List ProgramHeader :=
  programHeadersFrom (fileHeader elfData) (fileTable elfData) 0

/-- The file is parsed, holds the table of its program headers and can be iterated over. -/
structure Tabled : Prop where
  ident : Ident elfData
  offset : (fileHeader elfData).programHeaderOffset ≤ elfData.length
  size : (fileHeader elfData).programHeaderEntrySize *
    (fileHeader elfData).programHeaderEntryCount ≤
      elfData.length - (fileHeader elfData).programHeaderOffset
  entrySize : requiredEntrySize (fileHeader elfData).is64 ≤
    (fileHeader elfData).programHeaderEntrySize

/-- The loader gets as far as reading program headers. -/
structure Located : Prop extends Tabled elfData where
  entry : userMemoryRange.Contains (fileHeader elfData).entry

/-- The bytes that can be parsed, iterated over and loaded without a trap. -/
structure Loadable : Prop where
  ident : IdentKnown elfData
  regions : Tabled elfData → ∀ header ∈ fileProgramHeaders elfData, header.RangeFits
  phdr : Located elfData →
    (∀ header ∈ fileProgramHeaders elfData, header.Passes ∧ header.InFile elfData.length) →
    PhdrFits (fileHeader elfData).programHeaderOffset (fileProgramHeaders elfData)

end

structure Platform.Returns {σ : Type} (platform : Platform σ) : Prop where
  map : ∀ s range, Checked.Returns (platform.map s range)
  memcpy : ∀ s address source, Checked.Returns (platform.memcpy s address source)
  changeProtection : ∀ s range protection,
    Checked.Returns (platform.changeProtection s range protection)
  startProcess : ∀ s jump, Checked.Returns (platform.startProcess s jump)

/-- The iterator is one over the table of program headers in the file. -/
structure Iterates (elfData : Bytes) (it : Iterator) : Prop where
  header : parse elfData = .ok (.ok it.header)
  location : ∃ location, programHeaderTableLocation it.header = .ok location ∧
    location.offset ≤ elfData.length ∧ location.size ≤ elfData.length - location.offset ∧
    it.programHeaderTable = (elfData.drop location.offset).take location.size
  iterate : ∃ first, iterateProgramHeaders it.header it.programHeaderTable = .ok (.ok first)

/-- The loader and the functions it is made of do not trap on the bytes, wherever an iterator
stands, and the regions are what they promise to be. -/
structure LoadsSafely (elfData : Bytes) : Prop where
  parse : Checked.Returns (parse elfData)
  iterator : ∀ header table it, Elf.parse elfData = .ok (.ok header) →
    iterateProgramHeaders header table = .ok (.ok it) →
    ∀ i, Checked.Returns (next { it with index := i })
  nextRegion : ∀ it, Iterates elfData it → Checked.Returns (nextRegion it)
  regions : ∀ it it' region, Elf.nextRegion it = .ok (.ok (some region), it') → region.Good
  load : ∀ (σ : Type) (platform : Platform σ) (s : σ), platform.Returns →
    Checked.Returns (loadAndJump platform s elfData)

section

variable {σ : Type} {platform : Platform σ} {elfData : Bytes}

/-- The end of `loadAndJump`, once the regions are loaded or could not be. -/
def finishLoad (platform : Platform σ) (header : Header) (headers : List ProgramHeader) :
    Except LoadError Unit × σ → Checked (Except LoadError Unit × σ)
  | (.error error, s) => .ok (.error error, s)
  | (.ok (), s) => do
    platform.startProcess s ⟨header.entry, ← searchPhdr header.programHeaderOffset headers,
      header.programHeaderEntryCount⟩

theorem fileHeader_bounded (elfData : Bytes) : (fileHeader elfData).Bounded :=
  RawHeader.decode_bounded ..

theorem fileTable_length (h : Tabled elfData) : (fileTable elfData).length =
    (fileHeader elfData).programHeaderEntrySize * (fileHeader elfData).programHeaderEntryCount := by
  rw [fileTable, length_take, length_drop]
  exact min_eq_left h.size

theorem programHeaderTableLocation_eq (elfData : Bytes) :
    programHeaderTableLocation (fileHeader elfData) = .ok ⟨(fileHeader elfData).programHeaderOffset,
      (fileHeader elfData).programHeaderEntrySize *
        (fileHeader elfData).programHeaderEntryCount⟩ := by
  have hbounded := fileHeader_bounded elfData
  rw [programHeaderTableLocation]
  exact congrArg (· >>= _) (multiplyScalar_of_lt hbounded.programHeaderEntrySize
    hbounded.programHeaderEntryCount)

theorem iterates_iff {it : Iterator} : Iterates elfData it ↔
    Tabled elfData ∧ it.header = fileHeader elfData ∧ it.programHeaderTable = fileTable elfData := by
  have hbounded := fileHeader_bounded elfData
  constructor
  · rintro ⟨hparse, ⟨location, hlocation, hoffset, hsize, htable⟩, first, hiterate⟩
    obtain ⟨hident, hheader⟩ := parse_eq_ok.mp hparse
    rw [hheader, programHeaderTableLocation_eq] at hlocation
    cases hlocation
    obtain ⟨hgood, rfl⟩ := iterateProgramHeaders_good (hheader ▸ hbounded) hiterate
    have hentry : requiredEntrySize it.header.is64 ≤ it.header.programHeaderEntrySize :=
      hgood.entrySize
    rw [hheader] at hentry
    exact ⟨⟨hident, hoffset, hsize, hentry⟩, hheader, htable⟩
  · rintro ⟨h, hheader, htable⟩
    have hlocation := programHeaderTableLocation_eq elfData
    rw [← hheader] at hlocation
    refine ⟨hheader ▸ parse_eq_ok.mpr ⟨h.ident, rfl⟩, ⟨_, hlocation, ?_, ?_, ?_⟩,
      { header := fileHeader elfData, programHeaderTable := fileTable elfData }, ?_⟩
    · exact hheader ▸ h.offset
    · exact hheader ▸ h.size
    · rw [htable, hheader]
      rfl
    · rw [hheader, htable, iterateProgramHeaders_eq hbounded (le_of_eq (fileTable_length h).symm),
        if_neg (not_lt.mpr h.entrySize)]

theorem Iterates.good {it : Iterator} (h : Iterates elfData it) : it.Good := by
  obtain ⟨htabled, hheader, htable⟩ := iterates_iff.mp h
  refine ⟨hheader ▸ fileHeader_bounded elfData, hheader ▸ htabled.entrySize, ?_⟩
  rw [hheader, htable, fileTable_length htabled]

theorem tagged_ne_user {address : ℕ} :
    ∃ tag, tagged address = .ok tag ∧ (tag ≠ .user ↔ ¬ userMemoryRange.Contains address) := by
  refine ⟨_, tagged_eq address, not_congr ?_⟩
  split
  case isTrue hkernel =>
    refine iff_of_false (by decide) fun huser => ?_
    simp only [contains_iff, stop_eq, kernelMemoryRange, userMemoryRange] at hkernel huser
    omega
  case isFalse =>
    split
    case isTrue huser => exact iff_of_true rfl huser
    case isFalse huser => exact iff_of_false (by decide) huser

theorem loadAndJump_located (h : Located elfData) (s : σ) :
    loadAndJump platform s elfData =
      (loadRegions platform elfData (fileHeader elfData) (fileTable elfData) s >>=
        finishLoad platform (fileHeader elfData) (fileProgramHeaders elfData)) := by
  have hbounded := fileHeader_bounded elfData
  obtain ⟨tag, htag, huser⟩ := @tagged_ne_user (fileHeader elfData).entry
  have hin : ¬ (elfData.length < (fileHeader elfData).programHeaderOffset ∨
      elfData.length - (fileHeader elfData).programHeaderOffset <
        (fileHeader elfData).programHeaderEntrySize *
          (fileHeader elfData).programHeaderEntryCount) := by
    have hoffset := h.offset
    have hsize := h.size
    omega
  have hiterate := iterateProgramHeaders_eq hbounded (le_of_eq (fileTable_length h.toTabled).symm)
  rw [if_neg (not_lt.mpr h.entrySize)] at hiterate
  have hgood : Good
      { header := fileHeader elfData, programHeaderTable := fileTable elfData } :=
    ⟨hbounded, h.entrySize, le_of_eq (fileTable_length h.toTabled).symm⟩
  have hsearch : phdrVaddr (fileHeader elfData)
      { header := fileHeader elfData, programHeaderTable := fileTable elfData } =
      searchPhdr (fileHeader elfData).programHeaderOffset (fileProgramHeaders elfData) :=
    phdrVaddr_loop_eq hgood _ (le_succ_of_le (sub_le _ _))
  rw [loadAndJump, parse_eq_ok.mpr ⟨h.ident, rfl⟩, ok_bind]
  dsimp only
  rw [htag, ok_bind, if_neg (fun hne => huser.mp hne h.entry),
    programHeaderTableLocation_eq, ok_bind]
  dsimp only
  rw [if_neg hin]
  rw [show (elfData.drop (fileHeader elfData).programHeaderOffset).take
    ((fileHeader elfData).programHeaderEntrySize *
      (fileHeader elfData).programHeaderEntryCount) = fileTable elfData from rfl]
  cases loadRegions platform elfData (fileHeader elfData) (fileTable elfData) s with
  | error trap => rfl
  | ok outcome =>
    obtain ⟨result, s'⟩ := outcome
    cases result with
    | error error => rfl
    | ok u =>
    rw [ok_bind, ok_bind]
    dsimp only
    rw [hiterate, ok_bind]
    dsimp only
    rw [hsearch]
    rfl

/-- The loader gives up before it computes any region. -/
theorem loadAndJump_not_located (hknown : IdentKnown elfData) (h : ¬ Located elfData) (s : σ) :
    ∃ error, loadAndJump platform s elfData = .ok (.error error, s) := by
  have hbounded := fileHeader_bounded elfData
  by_cases hident : Ident elfData
  case neg =>
    rw [loadAndJump]
    rcases parse_spec elfData with ⟨-, hparsed⟩ | ⟨hunknown, -⟩
    · cases hparse : parse elfData with
      | error trap =>
        rw [hparse] at hparsed
        cases hparsed
      | ok result =>
        rw [hparse] at hparsed
        cases hparsed with
        | error _ e => exact ⟨_, rfl⟩
        | header hyes => exact absurd hyes hident
    · exact absurd hknown hunknown
  obtain ⟨tag, htag, huser⟩ := @tagged_ne_user (fileHeader elfData).entry
  rw [loadAndJump, parse_eq_ok.mpr ⟨hident, rfl⟩, ok_bind]
  dsimp only
  rw [htag, ok_bind]
  by_cases hentry : userMemoryRange.Contains (fileHeader elfData).entry
  case neg =>
    rw [if_pos (huser.mpr hentry)]
    exact ⟨_, rfl⟩
  rw [if_neg (fun hne => huser.mp hne hentry), programHeaderTableLocation_eq, ok_bind]
  dsimp only
  split
  case isTrue => exact ⟨_, rfl⟩
  case isFalse hin =>
    rw [not_or, not_lt, not_lt] at hin
    have hlength : ((elfData.drop (fileHeader elfData).programHeaderOffset).take
        ((fileHeader elfData).programHeaderEntrySize *
          (fileHeader elfData).programHeaderEntryCount)).length =
        (fileHeader elfData).programHeaderEntrySize *
          (fileHeader elfData).programHeaderEntryCount := by
      rw [length_take, length_drop]
      exact min_eq_left hin.2
    have hsmall : (fileHeader elfData).programHeaderEntrySize <
        requiredEntrySize (fileHeader elfData).is64 := by
      by_contra hsize
      exact h ⟨⟨hident, hin.1, hin.2, not_lt.mp hsize⟩, hentry⟩
    rw [loadRegions, eachRegion_eq hbounded (le_of_eq hlength.symm), if_pos hsmall]
    exact ⟨_, rfl⟩

theorem loadRegions_located (h : Located elfData)
    (body : σ → LoadableRegion → Checked (Except LoadError Unit × σ)) (s : σ) :
    eachRegion (fileHeader elfData) (fileTable elfData) body s =
      runRegions body (fileProgramHeaders elfData) s := by
  rw [eachRegion_eq (fileHeader_bounded elfData) (le_of_eq (fileTable_length h.toTabled).symm),
    if_neg (not_lt.mpr h.entrySize)]
  rfl

variable {header : ProgramHeader} {s s' : σ}

theorem copyRegion_returns (hplatform : platform.Returns) (s : σ) (hacc : header.Accepted) :
    Checked.Returns (copyRegion platform elfData s header.region) := by
  have hcopied := hacc.region.copied
  have hle : header.region.destinationOffset ≤ header.region.virtualRange.size := by omega
  rw [copyRegion]
  split
  · exact ⟨_, rfl⟩
  split
  · exact ⟨_, rfl⟩
  rw [assert_of hle, ok_bind]
  exact hplatform.memcpy ..

theorem copyRegion_inFile (h : copyRegion platform elfData s header.region = .ok (.ok (), s')) :
    header.InFile elfData.length := by
  intro _ hsize
  rw [copyRegion, if_neg (show ¬ header.region.sourceLength = 0 from hsize)] at h
  split at h
  · cases h
  case isFalse hin =>
    rw [not_or, not_le, not_lt] at hin
    exact hin

theorem loadRegions_returns (hplatform : platform.Returns) (hlocated : Located elfData)
    (hfit : ∀ header ∈ fileProgramHeaders elfData, header.RangeFits) (s : σ) :
    Checked.Returns
      (loadRegions platform elfData (fileHeader elfData) (fileTable elfData) s) := by
  simp only [loadRegions, loadRegions_located hlocated]
  obtain ⟨⟨mapped, s₁⟩, hmap⟩ := runRegions_returns
    (fun s region => platform.map s region.virtualRange) hfit
    (fun s header _ _ => hplatform.map ..) s
  rw [hmap, ok_bind]
  cases mapped with
  | error error => exact ⟨_, rfl⟩
  | ok u =>
  obtain ⟨⟨copied, s₂⟩, hcopy⟩ := runRegions_returns (copyRegion platform elfData) hfit
    (fun s header _ hacc => copyRegion_returns hplatform s hacc) s₁
  dsimp only
  rw [hcopy, ok_bind]
  cases copied with
  | error error => exact ⟨_, rfl⟩
  | ok u =>
  obtain ⟨⟨synced, s₃⟩, hsync⟩ := runRegions_returns
    (fun (s : σ) _ => .ok (.ok (), s)) hfit (fun s header _ _ => ⟨_, rfl⟩) s₂
  dsimp only
  rw [hsync, ok_bind]
  cases synced with
  | error error => exact ⟨_, rfl⟩
  | ok u => exact runRegions_returns _ hfit (fun s header _ _ => hplatform.changeProtection ..) s₃

theorem loadRegions_ok (hlocated : Located elfData)
    (h : loadRegions platform elfData (fileHeader elfData) (fileTable elfData) s = .ok (.ok (),
      s')) :
    ∀ header ∈ fileProgramHeaders elfData,
        header.RangeFits ∧ header.Passes ∧ header.InFile elfData.length := by
  simp only [loadRegions, loadRegions_located hlocated, bind_eq_ok] at h
  obtain ⟨⟨mapped, s₁⟩, hmap, h⟩ := h
  cases mapped with
  | error error => cases h
  | ok u =>
  simp only [bind_eq_ok] at h
  obtain ⟨⟨copied, s₂⟩, hcopy, h⟩ := h
  cases copied with
  | error error => cases h
  | ok u =>
  intro header hmem
  obtain ⟨hfits, hpasses, hbody⟩ := runRegions_ok hcopy header hmem
  refine ⟨hfits, hpasses, fun hloads => ?_⟩
  obtain ⟨s₃, s₄, hbody⟩ := hbody hloads
  exact copyRegion_inFile hbody hloads

end

def idlePlatform : Platform Unit where
  map _ _ := .ok (.ok (), ())
  memcpy _ _ _ := .ok (.ok (), ())
  changeProtection _ _ _ := .ok (.ok (), ())
  startProcess _ _ := .ok (.ok (), ())

theorem idlePlatform_returns : idlePlatform.Returns :=
  ⟨fun _ _ => ⟨_, rfl⟩, fun _ _ _ => ⟨_, rfl⟩, fun _ _ _ => ⟨_, rfl⟩, fun _ _ => ⟨_, rfl⟩⟩

variable {elfData : Bytes}

theorem loadRegions_idle (hlocated : Located elfData) (hall : ∀ header ∈ fileProgramHeaders elfData,
      header.RangeFits ∧ header.Passes ∧ header.InFile elfData.length) :
    loadRegions idlePlatform elfData (fileHeader elfData) (fileTable elfData) () =
      .ok (.ok (), ()) := by
  have hpasses : ∀ header ∈ fileProgramHeaders elfData, header.RangeFits ∧ header.Passes :=
    fun header hmem => ⟨(hall header hmem).1, (hall header hmem).2.1⟩
  have hpass (body : Unit → LoadableRegion → Checked (Except LoadError Unit × Unit))
      (hbody : ∀ header ∈ fileProgramHeaders elfData, header.Loads → header.Accepted →
        body () header.region = .ok (.ok (), ())) :
      runRegions body (fileProgramHeaders elfData) () = .ok (.ok (), ()) := by
    obtain ⟨s', hs'⟩ := runRegions_completes hpasses
      (fun s header hmem hloads hacc => ⟨(), hbody header hmem hloads hacc⟩) ()
    exact hs'
  have hcopy : runRegions (copyRegion idlePlatform elfData) (fileProgramHeaders elfData) () =
      .ok (.ok (), ()) := by
    refine hpass _ fun header hmem hloads hacc => ?_
    have hcopied := hacc.region.copied
    have hle : header.region.destinationOffset ≤ header.region.virtualRange.size := by omega
    rw [copyRegion]
    split
    · rfl
    case isFalse hsize =>
      have hin := (hall header hmem).2.2 hloads hsize
      rw [if_neg (by
        rw [not_or, not_le, not_lt]
        exact hin), assert_of hle]
      rfl
  simp only [loadRegions, loadRegions_located hlocated, hcopy,
    hpass (fun s region => idlePlatform.map s region.virtualRange) (fun _ _ _ _ => rfl),
    hpass (fun s _ => .ok (.ok (), s)) (fun _ _ _ _ => rfl),
    hpass (fun s region => idlePlatform.changeProtection s region.virtualRange region.protection)
      (fun _ _ _ _ => rfl),
    ok_bind]

/-- The files that the loader takes without a trap. -/
theorem loadsSafely_iff (elfData : Bytes) : LoadsSafely elfData ↔ Loadable elfData := by
  constructor
  · intro h
    have hknown : IdentKnown elfData := by
      rcases parse_spec elfData with ⟨hknown, -⟩ | ⟨-, htrap⟩
      · exact hknown
      · have hreturns := h.parse
        rw [htrap] at hreturns
        exact absurd hreturns (not_returns_error _)
    have hfits : Tabled elfData → ∀ header ∈ fileProgramHeaders elfData, header.RangeFits := by
      intro htabled header hmem
      obtain ⟨i, hi, rfl⟩ := mem_map.mp hmem
      rw [mem_range'_1] at hi
      have hiterates : Iterates elfData
          { header := fileHeader elfData, programHeaderTable := fileTable elfData, index := i } :=
        iterates_iff.mpr ⟨htabled, rfl, rfl⟩
      have hlt : i < (fileHeader elfData).programHeaderEntryCount := by omega
      exact rangeFits_of_nextRegion hiterates.good hlt (h.nextRegion _ hiterates)
    refine ⟨hknown, hfits, fun hlocated hall => ?_⟩
    have hload := h.load Unit idlePlatform () idlePlatform_returns
    rw [loadAndJump_located hlocated, loadRegions_idle hlocated fun header hmem =>
      ⟨hfits hlocated.toTabled header hmem, hall header hmem⟩, ok_bind,
      finishLoad, returns_bind] at hload
    obtain ⟨vaddr, hvaddr, -⟩ := hload
    exact (searchPhdr_returns_iff _ _).mp ⟨vaddr, hvaddr⟩
  · intro h
    refine ⟨?_, fun header table it hparse hiterate i => ?_, fun it hiterates => ?_,
      fun it it' region hnext => nextRegion_loop_good hnext, fun σ platform s hplatform => ?_⟩
    · rcases parse_spec elfData with ⟨-, hparsed⟩ | ⟨hunknown, -⟩
      · cases hparse : parse elfData with
        | error trap =>
          rw [hparse] at hparsed
          cases hparsed
        | ok result => exact ⟨result, rfl⟩
      · exact absurd h.ident hunknown
    · obtain ⟨-, rfl⟩ := parse_eq_ok.mp hparse
      obtain ⟨hgood, -⟩ := iterateProgramHeaders_good (fileHeader_bounded elfData) hiterate
      have hat : Good { it with index := i } := ⟨hgood.bounded, hgood.entrySize, hgood.table⟩
      rw [hat.next]
      exact ⟨_, rfl⟩
    · obtain ⟨htabled, hheader, htable⟩ := iterates_iff.mp hiterates
      refine nextRegion_loop_returns hiterates.good (fun header hmem => ?_) _
      rw [Iterator.rest, hheader, htable] at hmem
      exact h.regions htabled header (mem_programHeadersFrom_zero hmem)
    · by_cases hlocated : Located elfData
      case neg =>
        obtain ⟨error, hload⟩ := @loadAndJump_not_located _ platform _ h.ident hlocated s
        exact ⟨_, hload⟩
      rw [loadAndJump_located hlocated]
      obtain ⟨⟨result, s'⟩, hregions⟩ := loadRegions_returns hplatform hlocated
        (h.regions hlocated.toTabled) s
      rw [hregions, ok_bind]
      cases result with
      | error error => exact ⟨_, rfl⟩
      | ok u =>
        obtain ⟨vaddr, hvaddr⟩ := (searchPhdr_returns_iff _ _).mpr
          (h.phdr hlocated fun header hmem => (loadRegions_ok hlocated hregions header hmem).2)
        rw [finishLoad, hvaddr, ok_bind]
        exact hplatform.startProcess ..

def littleEndian (width value : ℕ) : Bytes :=
  (List.range width).map fun i => UInt8.ofNat (value / 256 ^ i)

def loadSegment (offset virtualAddress fileSize memorySize : ℕ) : Bytes :=
  littleEndian 4 1 ++ littleEndian 4 4 ++ littleEndian 8 offset ++ littleEndian 8 virtualAddress ++
    littleEndian 8 0 ++ littleEndian 8 fileSize ++ littleEndian 8 memorySize ++ littleEndian 8 0

/-- A little-endian file with one program header, entered at 0x1000. -/
def elfFile (elfClass : ℕ) (programHeader : Bytes) : Bytes :=
  HeaderIdent.MAGIC ++ littleEndian 1 elfClass ++ [1, 1] ++ littleEndian 9 0 ++ littleEndian 2 2 ++
    littleEndian 2 0x3e ++ littleEndian 4 1 ++ littleEndian 8 0x1000 ++ littleEndian 8 64 ++
    littleEndian 8 0 ++ littleEndian 4 0 ++ littleEndian 2 64 ++ littleEndian 2 56 ++
    littleEndian 2 1 ++ littleEndian 6 0 ++ programHeader

theorem not_returns_of_isOk {α : Type} {x : Checked α} (h : x.isOk = false) :
    ¬ Returns x := by
  rintro ⟨a, rfl⟩
  cases h

/-- A class that the enumeration does not know, a segment of 2^64 - 1 bytes of memory, and a segment
that takes no memory but 2^64 - 1 bytes of the file. -/
theorem malformed_traps :
    ¬ LoadsSafely (elfFile 3 []) ∧
    ¬ LoadsSafely (elfFile 2 (loadSegment 0 0x1000 0 (2 ^ 64 - 1))) ∧
    ¬ LoadsSafely (elfFile 2 (loadSegment 1 0x1000 (2 ^ 64 - 1) 0)) := by
  have hload {elfData : Bytes} (h : (loadAndJump idlePlatform () elfData).isOk = false) :
      ¬ LoadsSafely elfData := fun hsafe =>
    not_returns_of_isOk h (hsafe.load Unit idlePlatform () idlePlatform_returns)
  have hparse : (parse (elfFile 3 [])).isOk = false := by decide +kernel
  exact ⟨fun hsafe => not_returns_of_isOk hparse hsafe.parse, hload (by decide +kernel),
    hload (by decide +kernel)⟩

end Innigkeit.User.Elf

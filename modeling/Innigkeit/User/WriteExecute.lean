import Innigkeit.Memory.AddressSpace.Protections
import Innigkeit.User.Elf.Safety
import Innigkeit.User.Handlers.Vmem

/-!
Nothing in a process is both writable and executable. The syscalls and the start of
a thread ask for no such pair. The loader maps its regions writable and without a
limit, and lowers the limit when it protects them; until then the pages without a
limit lie in the regions it has yet to protect. A load that fails ends the
process.
-/

namespace Innigkeit.User

open Zig Transition Handlers Elf Vmem
open Innigkeit.Memory
open Innigkeit.Memory.AddressSpace
open Innigkeit.Capabilities (Rights SlotInfo)

namespace WriteExecute

/-- The address space of a process, and all that it was: after each change, with whether the loader
had applied the protections of the segments by then. -/
structure Process where
  space : AddressSpace
  applied : Bool := false
  ended : Bool := false
  history : List (AddressSpace × Bool) := [(space, applied)]
  /-- The changes so far, for the outcomes that the loader meets. -/
  clock : ℕ := 0

def Process.enter (p : Process) (space : AddressSpace) : Process :=
  { p with space, history := (space, p.applied) :: p.history, clock := p.clock + 1 }

/-- The parts of a page fault. -/
inductive Fault where
  | copy (allocation : Allocation) (address : ℕ)
  | service (allocation : Allocation) (address : ℕ) (accessType : AccessType)

def Fault.operation : Fault → AddressSpace.Operation
  | .copy allocation address => .anonymousMapCopy allocation address
  | .service allocation address accessType => .serviceFault allocation address accessType

def Process.fault (p : Process) (fault : Fault) : Checked Process := do
  return p.enter (← fault.operation.run p.space)

/-- What the rest of the kernel does during a load. -/
structure Outcomes where
  allocation : ℕ → Allocation
  faults : ℕ → List Fault
  copied : ℕ → Bool

def loadOptions (range : VirtualRange) : MapOptions where
  base := some range.address
  size := range.size
  protection := { read := true, write := true }
  maxProtection := some .all
  type := .zeroFill

def stackOptions : MapOptions where
  size := 64 * 1024
  protection := { read := true, write := true }
  type := .zeroFill

def loadResult {ε α : Type} (error : ε → LoadError) : Except ε α → Except LoadError Unit
  | .ok _ => .ok ()
  | .error e => .error (error e)

/-- The loader's calls, on the address space of the process. -/
def spacePlatform (outcomes : Outcomes) : Platform Process where
  map p range := do
    let (result, space) ← map (outcomes.allocation p.clock) p.space (loadOptions range)
    return (loadResult .map result, p.enter space)
  memcpy p _ _ := do
    let p' ← (outcomes.faults p.clock).foldlM Process.fault p
    return (if outcomes.copied p.clock then .ok () else .error .badAddress, p')
  changeProtection p range protection := do
    let (result, space) ← changeProtection (outcomes.allocation p.clock) p.space range
      (.both protection protection)
    return (loadResult .changeProtection result, p.enter space)
  startProcess p _ := do
    let p := Process.enter { p with applied := true } p.space
    let (result, space) ← map (outcomes.allocation p.clock) p.space stackOptions
    return (loadResult .map result, p.enter space)

def vmemOptions (rights : Rights) : MapOptions where
  size := standardPageSize
  protection := vmemProtection rights
  maxProtection := some (vmemProtection rights)
  type := .zeroFill

/-- `vmem_map`, as far as the address space goes; the last argument is the success of
`mapSinglePage`. -/
def Process.vmemMap (p : Process) (allocation : Allocation) (rights : Rights) (mapped : Bool) :
    Checked Process := do
  if rights.read = false then return p
  match ← map allocation p.space (vmemOptions rights) with
  | (.error _, space) => return p.enter space
  | (.ok range, space) =>
    let p := p.enter space
    if mapped then return p
    return p.enter (← unmap allocation p.space range).2

def Process.threadStart (p : Process) (allocation : Allocation) : Checked Process := do
  return p.enter (← map allocation p.space stackOptions).2

/-- A load; if it returns, the thread ends and the process with it. The callers load once, in the
first thread of a new process; a further load would have its own segments to protect. -/
def Process.load (p : Process) (outcomes : Outcomes) (elfData : Bytes) : Checked Process := do
  match ← loadAndJump (spacePlatform outcomes) { p with applied := false } elfData with
  | (.ok (), p) => return p
  | (.error _, p) => return { p with ended := true }

inductive Step where
  | mmap (allocation : Allocation) (arg1 arg2 : ℕ)
  | munmap (allocation : Allocation) (arg1 arg2 : ℕ)
  | vmemMap (allocation : Allocation) (rights : Rights) (mapped : Bool)
  | vmemUnmap (allocation : Allocation) (arg1 arg2 : ℕ)
  | threadStart (allocation : Allocation)
  | fault (fault : Fault)
  | load (outcomes : Outcomes) (elfData : Bytes)

def Process.perform (p : Process) : Step → Checked Process
  | .mmap allocation arg1 arg2 => do
    return p.enter (← mmap allocation p.space arg1 arg2).2
  | .munmap allocation arg1 arg2 => do
    return p.enter (← munmap allocation p.space arg1 arg2).2
  | .vmemMap allocation rights mapped => p.vmemMap allocation rights mapped
  | .vmemUnmap allocation arg1 arg2 => do
    return p.enter (← vmemUnmap allocation p.space arg1 arg2).2
  | .threadStart allocation => p.threadStart allocation
  | .fault fault => p.fault fault
  | .load outcomes elfData => p.load outcomes elfData

def Process.next (p : Process) (step : Step) : Option Process :=
  if p.ended then none else (p.perform step).toOption

/-- A process begins with an empty address space. -/
def system : System Process Step :=
  System.ofNext (fun p => ∃ space, AddressSpace.Initial space ∧ p = { space }) Process.next

def NotBoth (protection : Protection) : Prop :=
  ¬ (protection.write = true ∧ protection.execute = true)

/-- The entries of an address space, with whether the protections of the segments are applied. -/
structure WriteXorExecute (x : AddressSpace × Bool) : Prop where
  protection : ∀ e ∈ x.1.entries, NotBoth e.protection
  maxProtection : x.2 = true → ∀ e ∈ x.1.entries, NotBoth e.maxProtection

/-- The pair of a page, with the regions that are yet to be protected. -/
def Sober (pending : List VirtualRange) (address : ℕ) (protection maxProtection : Protection) :
    Prop :=
  NotBoth protection ∧ (NotBoth maxProtection ∨ ∃ range ∈ pending, range.Contains address)

structure Clean (pending : List VirtualRange) (p : Process) : Prop where
  valid : p.space.Valid
  pages : PagesMeet (Sober pending) p.space.entries
  applied : p.applied = true → pending = []
  history : ∀ x ∈ p.history, WriteXorExecute x

variable {pending : List VirtualRange} {p p' : Process} {allocation : Allocation}

theorem Clean.writeXorExecute (h : Clean pending p) : WriteXorExecute (p.space, p.applied) where
  protection e he := (h.pages.entry h.valid.consistent he).1
  maxProtection happlied e he := by
    have hentry := (h.pages.entry h.valid.consistent he).2
    rw [h.applied happlied] at hentry
    refine hentry.resolve_right ?_
    rintro ⟨range, hmem, -⟩
    cases hmem

theorem Clean.enter (h : Clean pending p) {space : AddressSpace} (hv : space.Valid)
    (hpages : PagesMeet (Sober pending) space.entries) : Clean pending (p.enter space) where
  valid := hv
  pages := hpages
  applied := h.applied
  history x hx := by
    rcases List.mem_cons.mp hx with rfl | hx
    · have hclean : Clean pending { p with space } := ⟨hv, hpages, h.applied, h.history⟩
      exact hclean.writeXorExecute
    · exact h.history x hx

theorem Clean.ended (h : Clean pending p) (ended : Bool) : Clean pending { p with ended } :=
  ⟨h.valid, h.pages, h.applied, h.history⟩

open AddressSpace

section

section

variable (h : Clean pending p)
include h

/-- A mapping whose pair is sober wherever it can be. -/
theorem Clean.map {options : MapOptions}
    {result : Except MapError VirtualRange} {space : AddressSpace}
    (hnew : ∀ address, (∀ base ∈ options.base,
      VirtualRange.Contains ⟨base, options.size⟩ address) →
        Sober pending address options.protection
          (options.maxProtection.getD options.protection))
    (hmap : map allocation p.space options = .ok (result, space)) :
    Clean pending (p.enter space) :=
  h.enter (map_valid h.valid hmap).1 (map_meets h.valid h.pages (fun _ => hnew) hmap)

theorem Clean.unmap {range : VirtualRange}
    {outcome : Except UnmapError (List VirtualRangeBatch) × AddressSpace}
    (hunmap : unmap allocation p.space range = .ok outcome) :
    Clean pending (p.enter outcome.2) := by
  have hrun : Operation.run p.space (.unmap allocation range) = .ok outcome.2 := by
    rw [Operation.run, hunmap]
    rfl
  exact h.enter (Operation.run_valid h.valid hrun) (unmap_meets h.valid h.pages hunmap)

theorem Clean.fault {fault : Fault} (hfault : p.fault fault = .ok p') : Clean pending p' := by
  rw [Process.fault, bind_eq_ok] at hfault
  obtain ⟨space, hrun, hfault⟩ := hfault
  cases hfault
  refine h.enter (Operation.run_valid h.valid hrun) ?_
  cases fault with
  | copy allocation address =>
    obtain ⟨outcome, hcopy, rfl⟩ := exists_of_snd_map hrun
    exact anonymousMapCopy_meets h.valid h.pages hcopy
  | service allocation address accessType =>
    rw [faultSection_entries hrun]
    exact h.pages

theorem Clean.faults {faults : List Fault}
    (hfaults : faults.foldlM Process.fault p = .ok p') : Clean pending p' := by
  induction faults generalizing p with
  | nil =>
    cases hfaults
    exact h
  | cons fault faults ih =>
    rw [List.foldlM_cons, bind_eq_ok] at hfaults
    obtain ⟨p₁, hfault, hrest⟩ := hfaults
    exact ih (h.fault hfault) hrest

end

theorem sober_stack (address : ℕ) : Sober pending address stackOptions.protection
    (stackOptions.maxProtection.getD stackOptions.protection) :=
  ⟨by simp [NotBoth, stackOptions], .inl (by simp [NotBoth, stackOptions])⟩

end

section

open Handlers

variable {arg1 arg2 : ℕ} {outcome : Except SyscallError ℕ × AddressSpace}
variable {space : AddressSpace}

theorem mmap_cases (h : mmap allocation space arg1 arg2 = .ok outcome) :
    outcome.2 = space ∨ ∃ size result, NotBoth (mmapProtection (arg32 arg2)) ∧
      map allocation space
        { size, protection := mmapProtection (arg32 arg2), type := .zeroFill } =
          .ok (result, outcome.2) := by
  rw [mmap] at h
  split at h
  · cases h
    exact .inl rfl
  split at h
  · cases h
    exact .inl rfl
  rw [bind_eq_ok] at h
  obtain ⟨size, -, h⟩ := h
  dsimp only at h
  split at h
  · cases h
    exact .inl rfl
  split at h
  · cases h
    exact .inl rfl
  case isFalse hboth =>
  rw [bind_eq_ok] at h
  obtain ⟨⟨result, space'⟩, hmap, h⟩ := h
  refine .inr ⟨size, result, hboth, ?_⟩
  cases result <;> cases h <;> exact hmap

theorem munmap_cases (h : munmap allocation space arg1 arg2 = .ok outcome) :
    outcome.2 = space ∨ ∃ unmapped, unmap allocation space ⟨arg1, arg2⟩ =
      .ok unmapped ∧ unmapped.2 = outcome.2 := by
  rw [munmap] at h
  split at h
  · cases h
    exact .inl rfl
  split at h
  · cases h
    exact .inl rfl
  rw [bind_eq_ok] at h
  obtain ⟨tag, -, h⟩ := h
  split at h
  · cases h
    exact .inl rfl
  rw [bind_eq_ok] at h
  obtain ⟨⟨result, space'⟩, hunmap, h⟩ := h
  refine .inr ⟨_, hunmap, ?_⟩
  cases result <;> cases h <;> rfl

theorem Clean.mmap (h : Clean pending p)
    (hmmap : mmap allocation p.space arg1 arg2 = .ok outcome) :
    Clean pending (p.enter outcome.2) := by
  rcases mmap_cases hmmap with hsame | ⟨size, result, hboth, hmap⟩
  · rw [hsame]
    exact h.enter h.valid h.pages
  · refine h.map (fun _ _ => ?_) hmap
    exact ⟨hboth, .inl hboth⟩

theorem Clean.munmap (h : Clean pending p)
    (hmunmap : munmap allocation p.space arg1 arg2 = .ok outcome) :
    Clean pending (p.enter outcome.2) := by
  rcases munmap_cases hmunmap with hsame | ⟨unmapped, hunmap, heq⟩
  · rw [hsame]
    exact h.enter h.valid h.pages
  · rw [← heq]
    exact h.unmap hunmap

variable {mapped : Bool}

theorem Clean.vmemMap (h : Clean pending p) {rights : Rights}
    (hmap : p.vmemMap allocation rights mapped = .ok p') : Clean pending p' := by
  have hnew (address : ℕ) : Sober pending address (vmemOptions rights).protection
      ((vmemOptions rights).maxProtection.getD (vmemOptions rights).protection) := by
    have hnot : NotBoth (vmemProtection rights) := by simp [NotBoth, vmemProtection]
    exact ⟨hnot, .inl hnot⟩
  rw [Process.vmemMap] at hmap
  split at hmap
  · cases hmap
    exact h
  rw [bind_eq_ok] at hmap
  obtain ⟨⟨result, space⟩, hspace, hmap⟩ := hmap
  have hentered := h.map (fun address _ => hnew address) hspace
  cases result with
  | error error =>
    cases hmap
    exact hentered
  | ok range =>
    dsimp only at hmap
    split at hmap
    · cases hmap
      exact hentered
    · rw [bind_eq_ok] at hmap
      obtain ⟨outcome, hunmap, hmap⟩ := hmap
      cases hmap
      exact hentered.unmap hunmap

end

section

open Elf

variable {σ : Type} {body : σ → LoadableRegion → Checked (Except LoadError Unit × σ)}
variable {headers : List ProgramHeader} {elfData : Bytes}

/-- What a pass keeps: `J` of the program headers that are left, and `K` wherever it stops. -/
theorem runRegions_keeps {J : List ProgramHeader → σ → Prop} {K : σ → Prop}
    (hstop : ∀ headers s, J headers s → K s)
    (hskip : ∀ header headers s, ¬ header.Loads → J (header :: headers) s → J headers s)
    (hbody : ∀ header headers s result s', header.Loads → header.Accepted →
      J (header :: headers) s → body s header.region = .ok (result, s') →
        K s' ∧ (result = .ok () → J headers s'))
    {s s' : σ} {result : Except LoadError Unit} (hJ : J headers s)
    (h : runRegions body headers s = .ok (result, s')) : K s' ∧ (result = .ok () → J [] s') := by
  induction headers generalizing s with
  | nil =>
    cases h
    exact ⟨hstop _ _ hJ, fun _ => hJ⟩
  | cons header headers ih =>
    rw [runRegions] at h
    by_cases hfits : header.RangeFits
    case neg =>
      rw [bind_eq_ok] at h
      obtain ⟨r, hr, -⟩ := h
      exact absurd ⟨r, hr⟩ (ProgramHeader.loadableRegion_of_not_fits hfits)
    cases ProgramHeader.loadableRegion_of_fits hfits with
    | skipped hskips heq =>
      rw [heq] at h
      exact ih (hskip _ _ _ hskips hJ) h
    | error _ error heq =>
      rw [heq] at h
      cases h
      exact ⟨hstop _ _ hJ, fun hok => by cases hok⟩
    | region hloads hacc heq =>
      rw [heq, ok_bind] at h
      dsimp only at h
      rw [bind_eq_ok] at h
      obtain ⟨⟨outcome, s₁⟩, hrun, h⟩ := h
      obtain ⟨hK, hnext⟩ := hbody _ _ _ _ _ hloads hacc hJ hrun
      cases outcome with
      | error error =>
        cases h
        exact ⟨hK, fun hok => by cases hok⟩
      | ok u => exact ih (hnext rfl) h

def loadedRanges (headers : List ProgramHeader) : List VirtualRange :=
  (headers.filter fun header => decide header.Loads).map ProgramHeader.range

variable {header : ProgramHeader}

theorem loadedRanges_cons (h : header.Loads) :
    loadedRanges (header :: headers) = header.range :: loadedRanges headers := by
  simp [loadedRanges, h]

variable {outcomes : Outcomes} {headers : List ProgramHeader} {result : Except LoadError Unit}

/-- The first pass maps without a limit, but in the regions only. -/
theorem Clean.mapPass (h : Clean (loadedRanges headers) p)
    (hrun : runRegions (fun s region => (spacePlatform outcomes).map s region.virtualRange) headers
      p = .ok (result, p')) : Clean (loadedRanges headers) p' := by
  refine (runRegions_keeps (K := Clean (loadedRanges headers))
    (J := fun hs s => (∀ header ∈ hs, header ∈ headers) ∧ Clean (loadedRanges headers) s)
    (fun _ _ hJ => hJ.2) (fun header hs s _ hJ => ⟨(List.forall_mem_cons.mp hJ.1).2, hJ.2⟩)
    (fun header hs s result s' hloads _ hJ hbody => ?_) ⟨fun _ hmem => hmem, h⟩ hrun).1
  obtain ⟨hmem, hall⟩ := List.forall_mem_cons.mp hJ.1
  simp only [spacePlatform, bind_eq_ok] at hbody
  obtain ⟨⟨mapped, space⟩, hmap, hbody⟩ := hbody
  cases hbody
  have hrange : header.range ∈ loadedRanges headers := by
    refine List.mem_map.mpr ⟨header, List.mem_filter.mpr ⟨hmem, decide_eq_true hloads⟩, rfl⟩
  have hclean := hJ.2.map (fun address hin => ?_) hmap
  · exact ⟨hclean, fun _ => ⟨hall, hclean⟩⟩
  · exact ⟨by simp [NotBoth, loadOptions], .inr ⟨header.range, hrange, hin _ rfl⟩⟩

theorem Clean.copyPass (h : Clean pending p)
    (hrun : runRegions (copyRegion (spacePlatform outcomes) elfData) headers p = .ok (result, p')) :
    Clean pending p' := by
  refine (runRegions_keeps (K := Clean pending) (J := fun _ => Clean pending)
    (fun _ _ hJ => hJ) (fun _ _ _ _ hJ => hJ)
    (fun header hs s result s' _ _ hJ hbody => ?_) h hrun).1
  have hclean : Clean pending s' := by
    rw [copyRegion] at hbody
    split at hbody
    · cases hbody
      exact hJ
    split at hbody
    · cases hbody
      exact hJ
    simp only [spacePlatform, bind_eq_ok] at hbody
    obtain ⟨-, -, q, hfaults, hbody⟩ := hbody
    cases hbody
    exact hJ.faults hfaults
  exact ⟨hclean, fun _ => hclean⟩

theorem Clean.syncPass (h : Clean pending p)
    (hrun : runRegions (fun s _ => .ok (.ok (), s)) headers p = .ok (result, p')) :
    Clean pending p' := by
  refine (runRegions_keeps (K := Clean pending) (J := fun _ => Clean pending)
    (fun _ _ hJ => hJ) (fun _ _ _ _ hJ => hJ)
    (fun header hs s result s' _ _ hJ hbody => ?_) h hrun).1
  cases hbody
  exact ⟨hJ, fun _ => hJ⟩

/-- The last pass gives every page of a region a limit. -/
theorem Clean.protectPass (h : Clean (loadedRanges headers) p)
    (hrun : runRegions (fun s region => (spacePlatform outcomes).changeProtection s
      region.virtualRange region.protection) headers p = .ok (result, p')) :
    (∃ pending, Clean pending p') ∧ (result = .ok () → Clean [] p') := by
  refine runRegions_keeps (K := fun s => ∃ pending, Clean pending s)
    (J := fun hs s => Clean (loadedRanges hs) s) (fun hs s hJ => ⟨_, hJ⟩)
    (fun header hs s hskips hJ => by simpa [loadedRanges, hskips] using hJ)
    (fun header hs s result s' hloads hacc hJ hbody => ?_) h hrun
  rw [loadedRanges_cons hloads] at hJ
  simp only [spacePlatform, bind_eq_ok] at hbody
  obtain ⟨⟨changed, space⟩, hchange, hbody⟩ := hbody
  cases hbody
  have hvalid : space.Valid := changeProtection_valid hJ.valid hchange
  have hsober (pending : List VirtualRange) (address : ℕ) :
      Sober pending address header.region.protection header.region.protection :=
    ⟨hacc.notBoth, .inl hacc.notBoth⟩
  refine ⟨⟨_, hJ.enter hvalid ?_⟩, fun hok => ?_⟩
  · exact changeProtection_meets hJ.valid hJ.pages (fun _ _ address _ _ => hsober _ address) hchange
  · cases changed with
    | error error => cases hok
    | ok batches =>
      have hrest : PagesMeet (Sober (loadedRanges hs)) space.entries := by
        refine (changeProtection_applied hJ.valid hchange).meets
          (fun address page hout hpage => ?_) (fun _ _ address _ _ => hsober _ address)
        obtain ⟨hnot, hmax⟩ := hJ.pages address page hpage
        refine ⟨hnot, hmax.imp_right ?_⟩
        rintro ⟨range, hmem, hin⟩
        rcases List.mem_cons.mp hmem with rfl | hmem
        · exact absurd hin hout
        · exact ⟨range, hmem, hin⟩
      have happlied : s.applied = false := by
        cases hap : s.applied with
        | false => rfl
        | true => cases hJ.applied hap
      have hJ' : Clean (loadedRanges hs) { s with space } :=
        ⟨hvalid, hrest, fun hap => by simp [happlied] at hap, hJ.history⟩
      exact hJ'.enter hvalid hrest

/-- The passes of a load, from a process in which nothing is pending. -/
theorem Clean.loadRegions (hlocated : Located elfData) (h : Clean [] p)
    (happlied : p.applied = false)
    (hload : loadRegions (spacePlatform outcomes) elfData (fileHeader elfData)
      (fileTable elfData) p = .ok (result, p')) :
    (∃ pending, Clean pending p') ∧ (result = .ok () → Clean [] p') := by
  have hstart : Clean (loadedRanges (fileProgramHeaders elfData)) p := by
    refine ⟨h.valid, fun address page hpage => ?_, fun hap => ?_, h.history⟩
    · obtain ⟨hnot, hmax⟩ := h.pages address page hpage
      refine ⟨hnot, hmax.imp_right ?_⟩
      rintro ⟨range, hmem, -⟩
      cases hmem
    · rw [happlied] at hap
      cases hap
  simp only [Elf.loadRegions, loadRegions_located hlocated, bind_eq_ok] at hload
  obtain ⟨⟨mapped, p₁⟩, hmap, hload⟩ := hload
  have h₁ := hstart.mapPass hmap
  cases mapped with
  | error error =>
    cases hload
    exact ⟨⟨_, h₁⟩, fun hok => by cases hok⟩
  | ok u =>
    simp only [bind_eq_ok] at hload
    obtain ⟨⟨copied, p₂⟩, hcopy, hload⟩ := hload
    have h₂ := h₁.copyPass hcopy
    cases copied with
    | error error =>
      cases hload
      exact ⟨⟨_, h₂⟩, fun hok => by cases hok⟩
    | ok u =>
      simp only [bind_eq_ok] at hload
      obtain ⟨⟨synced, p₃⟩, hsync, hload⟩ := hload
      have h₃ := h₂.syncPass hsync
      cases synced with
      | error error =>
        cases hload
        exact ⟨⟨_, h₃⟩, fun hok => by cases hok⟩
      | ok u => exact h₃.protectPass hload

theorem Clean.startProcess {jump : Jump} (h : Clean [] p)
    (hstart : (spacePlatform outcomes).startProcess p jump = .ok (result, p')) : Clean [] p' := by
  simp only [spacePlatform, bind_eq_ok] at hstart
  obtain ⟨⟨mapped, space⟩, hmap, hstart⟩ := hstart
  cases hstart
  have happlied : Clean [] { p with applied := true } :=
    ⟨h.valid, h.pages, fun _ => rfl, h.history⟩
  exact (happlied.enter h.valid h.pages).map (fun address _ => sober_stack address) hmap

theorem Clean.loadAndJump (h : Clean [] p) (happlied : p.applied = false)
    (hload : loadAndJump (spacePlatform outcomes) p elfData = .ok (result, p')) :
    (∃ pending, Clean pending p') ∧ (result = .ok () → Clean [] p') := by
  by_cases hlocated : Located elfData
  case neg =>
    rcases parse_spec elfData with ⟨hknown, -⟩ | ⟨-, htrap⟩
    · obtain ⟨error, heq⟩ := loadAndJump_not_located hknown hlocated p
      rw [heq] at hload
      cases hload
      exact ⟨⟨_, h⟩, fun hok => by cases hok⟩
    · rw [Elf.loadAndJump, htrap] at hload
      cases hload
  rw [loadAndJump_located hlocated, bind_eq_ok] at hload
  obtain ⟨⟨loaded, p₁⟩, hregions, hload⟩ := hload
  obtain ⟨hfailed, hdone⟩ := h.loadRegions hlocated happlied hregions
  cases loaded with
  | error error =>
    cases hload
    exact ⟨hfailed, fun hok => by cases hok⟩
  | ok u =>
    rw [finishLoad, bind_eq_ok] at hload
    obtain ⟨phdr, -, hstart⟩ := hload
    have hclean := (hdone rfl).startProcess hstart
    exact ⟨⟨_, hclean⟩, fun _ => hclean⟩

end

section

/-- A process that goes on has nothing pending. -/
def Inv (p : Process) : Prop :=
  ∃ pending, Clean pending p ∧ (p.ended = false → pending = [])

theorem Inv.of_clean (h : Clean [] p) : Inv p := ⟨[], h, fun _ => rfl⟩

theorem Clean.load {outcomes : Outcomes} {elfData : Bytes} (h : Clean [] p)
    (hload : p.load outcomes elfData = .ok p') : Inv p' := by
  have hstart : Clean [] { p with applied := false } :=
    ⟨h.valid, h.pages, fun _ => rfl, h.history⟩
  rw [Process.load, bind_eq_ok] at hload
  obtain ⟨⟨result, p₁⟩, hjump, hload⟩ := hload
  obtain ⟨⟨pending, hfailed⟩, hdone⟩ := hstart.loadAndJump rfl hjump
  cases result with
  | error error =>
    cases hload
    exact ⟨pending, hfailed.ended true, fun hended => by cases hended⟩
  | ok u =>
    cases hload
    exact Inv.of_clean (hdone rfl)

variable {step : Step}

theorem Clean.perform (h : Clean [] p) (hstep : p.perform step = .ok p') : Inv p' := by
  cases step with
  | mmap allocation arg1 arg2 =>
    rw [Process.perform, bind_eq_ok] at hstep
    obtain ⟨outcome, hmmap, hstep⟩ := hstep
    cases hstep
    exact Inv.of_clean (h.mmap hmmap)
  | munmap allocation arg1 arg2 =>
    rw [Process.perform, bind_eq_ok] at hstep
    obtain ⟨outcome, hmunmap, hstep⟩ := hstep
    cases hstep
    exact Inv.of_clean (h.munmap hmunmap)
  | vmemMap allocation rights mapped => exact Inv.of_clean (h.vmemMap hstep)
  | vmemUnmap allocation arg1 arg2 =>
    rw [Process.perform, bind_eq_ok] at hstep
    obtain ⟨outcome, hunmap, hstep⟩ := hstep
    cases hstep
    exact Inv.of_clean (h.munmap hunmap)
  | threadStart allocation =>
    rw [Process.perform, Process.threadStart, bind_eq_ok] at hstep
    obtain ⟨⟨result, space⟩, hmap, hstep⟩ := hstep
    cases hstep
    exact Inv.of_clean (h.map (fun address _ => sober_stack address) hmap)
  | fault fault => exact Inv.of_clean (h.fault hstep)
  | load outcomes elfData => exact h.load hstep

theorem Inv.next (h : Inv p) (hnext : p.next step = some p') : Inv p' := by
  obtain ⟨pending, hclean, hpending⟩ := h
  rw [Process.next] at hnext
  cases hended : p.ended with
  | true => simp [hended] at hnext
  | false =>
    rw [hended, if_neg (by decide), toOption_eq_some] at hnext
    rw [hpending hended] at hclean
    exact hclean.perform hnext

theorem Inv.initial {space : AddressSpace} (h : AddressSpace.Initial space) : Inv { space } := by
  have hempty : space.entries = [] := by
    obtain ⟨range, context, rfl, -⟩ := h
    rfl
  have hpages : PagesMeet (Sober []) space.entries := by
    intro address page hpage
    simp [hempty, pageAt] at hpage
  refine Inv.of_clean ⟨h.valid, hpages, fun _ => rfl, fun x hx => ?_⟩
  rw [List.mem_singleton.mp hx]
  exact ⟨fun e he => by simp [hempty] at he, fun hap => by cases hap⟩

/-- In every run, no entry was ever writable and executable, and with the protections of the
segments applied none could become so. -/
theorem write_xor_execute (h : system.Reachable anyStep p) :
    WriteXorExecute (p.space, p.applied) ∧ ∀ x ∈ p.history, WriteXorExecute x := by
  have hinv : Inv p := by
    refine @System.Reachable.invariant _ _ system anyStep Inv ?_ ?_ p h
    · rintro _ ⟨space, hspace, rfl⟩
      exact Inv.initial hspace
    · intro s step s' hs _ hnext
      exact Inv.next hs hnext
  obtain ⟨pending, hclean, -⟩ := hinv
  exact ⟨hclean.writeXorExecute, hclean.history⟩

/-- Memory never runs out and nothing faults. -/
def calm : Outcomes where
  allocation _ := {}
  faults _ := []
  copied _ := true

/-- A page of data, then an executable with one readable segment. -/
def mapAndLoad : List Step :=
  [.mmap {} 0x1000 3, .load calm (elfFile 2 (loadSegment 0 0x200000 0x78 0x1000))]

theorem write_xor_execute_loaded : ∃ p : Process, p.applied = true ∧ p.history.length = 6 ∧
    WriteXorExecute (p.space, p.applied) ∧ ∀ x ∈ p.history, WriteXorExecute x := by
  have hrun : (System.runNext Process.next { space := userSpace } mapAndLoad).map
      (fun p => (p.applied, p.history.length)) = some (true, 6) := by decide +kernel
  obtain ⟨p, hp, heq⟩ := Option.map_eq_some_iff.mp hrun
  have hinit : AddressSpace.Initial userSpace := ⟨_, _, rfl, by decide, by decide⟩
  have hreach : system.Reachable anyStep p :=
    System.runNext_reachable mapAndLoad (.init ⟨userSpace, hinit, rfl⟩) hp
  exact ⟨p, (Prod.mk.inj heq).1, (Prod.mk.inj heq).2, write_xor_execute hreach⟩

end

end WriteExecute

end Innigkeit.User

import Innigkeit.Memory.AddressSpace.MapReturns
import Innigkeit.Memory.AddressSpace.Reachable
import Innigkeit.User.Syscall

/-!
The syscalls `mmap`, `munmap` and `vmem_unmap`. They check that their arguments
are aligned, not zero and begin in user memory, and leave the ends of ranges to the
address space, which forms them with overflow checks. Each of them traps exactly
for the arguments for which the address space does.
-/

namespace Innigkeit.User.Handlers

open Zig Memory AddressSpace Transition VirtualRange Checked

def alignForwardPage (size : ℕ) : Checked ℕ := do
  return (← add 64 size (standardPageSize - 1)) / standardPageSize * standardPageSize

def mmapProtection (protRaw : ℕ) : Protection where
  read := protRaw &&& 1 != 0
  write := protRaw &&& 2 != 0
  execute := protRaw &&& 4 != 0

def mmapError : MapError → SyscallError
  | .outOfMemory => .outOfMemory
  | .requestedRangeUnavailable => .outOfMemory
  | _ => .invalidArgument

def mmap (allocation : Allocation) (space : AddressSpace) (arg1 arg2 : ℕ) :
    Checked (Except SyscallError ℕ × AddressSpace) := do
  let sizeBytes := arg1
  let protRaw := arg32 arg2
  if sizeBytes = 0 then return (.error .invalidArgument, space)
  if 2 ^ 64 - 1 - (standardPageSize - 1) < sizeBytes then return (.error .invalidArgument, space)
  let alignedSize ← alignForwardPage sizeBytes
  let protection := mmapProtection protRaw
  if protection = .none then return (.error .invalidArgument, space)
  if protection.write = true ∧ protection.execute = true then
    return (.error .invalidArgument, space)
  match ← map allocation space { size := alignedSize, protection, type := .zeroFill } with
  | (.ok range, space) => return (.ok range.address, space)
  | (.error error, space) => return (.error (mmapError error), space)

def unmapError : UnmapError → SyscallError
  | .outOfMemory => .outOfMemory
  | .rangeNotPageAligned => .invalidArgument

def munmap (allocation : Allocation) (space : AddressSpace) (arg1 arg2 : ℕ) :
    Checked (Except SyscallError ℕ × AddressSpace) := do
  let addrRaw := arg1
  let sizeBytes := arg2
  if sizeBytes = 0 ∨ addrRaw = 0 then return (.error .invalidArgument, space)
  if ¬ PageAligned addrRaw ∨ ¬ PageAligned sizeBytes then
    return (.error .invalidArgument, space)
  if (← tagged addrRaw) ≠ .user then return (.error .badAddress, space)
  match ← unmap allocation space ⟨addrRaw, sizeBytes⟩ with
  | (.ok _, space) => return (.ok 0, space)
  | (.error error, space) => return (.error (unmapError error), space)

/-- `vmem_unmap` is `munmap` word for word. -/
def vmemUnmap : Allocation → AddressSpace → ℕ → ℕ →
    Checked (Except SyscallError ℕ × AddressSpace) :=
  munmap

section

structure MmapAccepts (arg1 arg2 : ℕ) : Prop where
  nonzero : arg1 ≠ 0
  rounds : arg1 ≤ 2 ^ 64 - 4096
  some_access : mmapProtection (arg32 arg2) ≠ .none
  not_both : ¬ ((mmapProtection (arg32 arg2)).write = true ∧
    (mmapProtection (arg32 arg2)).execute = true)

def mmapOptions (arg1 arg2 : ℕ) : MapOptions where
  size := (arg1 + 4095) / 4096 * 4096
  protection := mmapProtection (arg32 arg2)
  type := .zeroFill

/-- `mmap` refuses its arguments, or the search for a free range forms no end beyond the last machine
address and no count of pages passes 32 bits when the new entry is merged. -/
def MmapReturns (space : AddressSpace) (arg1 arg2 : ℕ) : Prop :=
  MmapAccepts arg1 arg2 →
    SearchFits space.range.address (mmapOptions arg1 arg2).size space.entries ∧
      MergeFits space (mmapOptions arg1 arg2)

/-- `munmap` refuses its arguments, or the range is behind every entry, or it ends at a machine
address and overlaps an entry. -/
def MunmapReturns (space : AddressSpace) (arg1 arg2 : ℕ) : Prop :=
  arg2 ≠ 0 → PageAligned arg1 → PageAligned arg2 → userMemoryRange.Contains arg1 →
    (∀ e ∈ space.entries, e.range.stop ≤ arg1) ∨
      (VirtualRange.Fits ⟨arg1, arg2⟩ ∧ ∃ e ∈ space.entries, e.range.Overlaps ⟨arg1, arg2⟩)

variable {space : AddressSpace} {allocation : Allocation} {arg1 arg2 : ℕ}

theorem alignForwardPage_eq (h : arg1 ≤ 2 ^ 64 - 4096) :
    alignForwardPage arg1 = .ok ((arg1 + 4095) / 4096 * 4096) := by
  rw [alignForwardPage, show standardPageSize = 4096 from rfl, add_of_lt (by omega),
    ok_bind, pure_eq_ok]

variable (arg2) in
theorem mmapOptions_validate (h : arg1 ≠ 0) :
    validateMapOptions (mmapOptions arg1 arg2) = .ok () := by
  have hpos : (arg1 + 4095) / 4096 * 4096 ≠ 0 := by omega
  have haligned : PageAligned ((arg1 + 4095) / 4096 * 4096) := Nat.mul_mod_left _ _
  simp [validateMapOptions, mmapOptions, hpos, haligned]

theorem returns_bind_of_returns {α β : Type} {x : Checked α} {f : α → Checked β}
    (hf : ∀ a, Returns (f a)) : Returns (x >>= f) ↔ Returns x := by
  rw [returns_bind]
  exact ⟨fun ⟨a, ha, _⟩ => ⟨a, ha⟩, fun ⟨a, ha⟩ => ⟨a, ha, hf a⟩⟩

theorem mmap_returns_iff (hv : space.Valid) :
    Returns (mmap allocation space arg1 arg2) ↔ MmapReturns space arg1 arg2 := by
  have hpage : 2 ^ 64 - 1 - (standardPageSize - 1) = 2 ^ 64 - 4096 := by decide
  rw [mmap, hpage]
  split
  case isTrue h => exact iff_of_true ⟨_, rfl⟩ fun haccepts => absurd h haccepts.nonzero
  case isFalse hzero =>
  split
  case isTrue h => exact iff_of_true ⟨_, rfl⟩ fun haccepts => absurd h (by
    have := haccepts.rounds
    omega)
  case isFalse hrounds =>
  have hle : arg1 ≤ 2 ^ 64 - 4096 := not_lt.mp hrounds
  simp only [alignForwardPage_eq hle, ok_bind]
  split
  case isTrue h => exact iff_of_true ⟨_, rfl⟩ fun haccepts => absurd h haccepts.some_access
  case isFalse hnone =>
  split
  case isTrue h => exact iff_of_true ⟨_, rfl⟩ fun haccepts => absurd h haccepts.not_both
  case isFalse hboth =>
  have hmap := map_returns_iff hv (mmapOptions_validate arg2 hzero) rfl rfl allocation
  have hret : MmapReturns space arg1 arg2 ↔
      Returns (map allocation space (mmapOptions arg1 arg2)) := by
    rw [hmap]
    exact ⟨fun h => h ⟨hzero, hle, hnone, hboth⟩, fun h _ => h⟩
  rw [hret]
  refine returns_bind_of_returns ?_
  rintro ⟨result, space'⟩
  cases result <;> exact ⟨_, rfl⟩

theorem munmap_returns_iff (hv : space.Valid) :
    Returns (munmap allocation space arg1 arg2) ↔ MunmapReturns space arg1 arg2 := by
  rw [munmap]
  split
  case isTrue h =>
    refine iff_of_true ⟨_, rfl⟩ fun hsize _ _ huser => ?_
    cases h with
    | inl h => exact absurd h hsize
    | inr h => exact absurd huser (by rw [h]; decide)
  case isFalse hzero =>
  rw [not_or] at hzero
  split
  case isTrue h =>
    refine iff_of_true ⟨_, rfl⟩ fun _ haddress hsize _ => ?_
    exact absurd h (by simp [haddress, hsize])
  case isFalse haligned =>
  rw [not_or, not_not, not_not] at haligned
  rw [tagged_eq, ok_bind]
  by_cases huser : userMemoryRange.Contains arg1
  case neg =>
    rw [if_neg huser, if_pos (by split <;> simp)]
    exact iff_of_true ⟨_, rfl⟩ fun _ _ _ h => absurd h huser
  have hkernel : ¬ kernelMemoryRange.Contains arg1 := by
    simp only [contains_iff, stop_eq, kernelMemoryRange, userMemoryRange] at huser ⊢
    omega
  have hrange : VirtualRange.pageAligned ⟨arg1, arg2⟩ = true :=
    pageAligned_eq_true.mpr haligned
  have hret : MunmapReturns space arg1 arg2 ↔ UnmapReturns space ⟨arg1, arg2⟩ := by
    simp only [MunmapReturns, UnmapReturns, hrange, Bool.true_eq_false, false_or, hzero.1]
    exact ⟨fun h => h hzero.1 haligned.1 haligned.2 huser, fun h _ _ _ _ => h⟩
  simp only [hkernel, huser, if_true, if_false, ne_eq, not_true_eq_false]
  rw [hret, ← unmap_returns_iff hv allocation]
  refine returns_bind_of_returns ?_
  rintro ⟨result, space'⟩
  cases result <;> exact ⟨_, rfl⟩

/-- In every run, when each of the memory syscalls and a page fault returns. -/
theorem memorySyscalls_return_iff (hreach : system.Reachable anyStep space) :
    (∀ allocation arg1 arg2,
      Returns (mmap allocation space arg1 arg2) ↔ MmapReturns space arg1 arg2) ∧
    (∀ allocation arg1 arg2,
      Returns (munmap allocation space arg1 arg2) ↔ MunmapReturns space arg1 arg2) ∧
    (∀ allocation arg1 arg2,
      Returns (vmemUnmap allocation space arg1 arg2) ↔ MunmapReturns space arg1 arg2) ∧
    ∀ first second rounds address accessType,
      Returns (handlePageFault (first :: second :: rounds) space address accessType) ↔
        FaultFits first space (VirtualAddress.pageAlignBackward address) accessType := by
  have hv := reachable_valid hreach
  refine ⟨fun _ _ _ => mmap_returns_iff hv, fun _ _ _ => munmap_returns_iff hv,
    fun _ _ _ => munmap_returns_iff hv, fun first second rounds address accessType => ?_⟩
  cases handlePageFault_spec hv address accessType first second rounds with
  | inl h =>
    obtain ⟨result, space', hrun, -, hfits⟩ := h
    exact iff_of_true ⟨_, hrun⟩ hfits
  | inr h => exact iff_of_false h.1 h.2

/-- A page of zeroed memory in the empty address space of a process. -/
theorem mmap_returns_first_page : Returns (mmap {} userSpace 4096 1) := by
  refine ((memorySyscalls_return_iff userSpace_reachable).1 {} 4096 1).mpr fun _ => ⟨?_, ?_⟩
  · exact searchFits_nil.mpr (by decide)
  · intro free x _ hx
    cases hx

/-- A process can crash the kernel with each of the syscalls: with the largest size that `mmap`
accepts, by unmapping a page twice that has another one behind it, and by touching a region of
16 TiB. -/
theorem memorySyscalls_trap :
    ¬ Returns (mmap {} userSpace 0xFFFFFFFFFFFFF000 1) ∧
    (∃ space, system.Reachable anyStep space ∧ munmap {} space 0x1000 0x1000 = .error .assertion ∧
      vmemUnmap {} space 0x1000 0x1000 = .error .assertion) ∧
    ∃ space, system.Reachable anyStep space ∧
      handlePageFault [{}, {}] space 0x1000 .read = .error .cast := by
  refine ⟨fun hret => ?_, ⟨_, reachable_of_run [.map {} (mmapOptions 0x1000 1),
    .map {} (mmapOptions 0x1000 3), .unmap {} ⟨0x1000, 0x1000⟩] rfl, rfl, rfl⟩,
    ⟨_, reachable_of_run [.map {} (mmapOptions 0x100000000000 1)] rfl, rfl⟩⟩
  have haccepts : MmapAccepts 0xFFFFFFFFFFFFF000 1 :=
    ⟨by decide, by decide, by decide, by decide⟩
  have hfits := ((mmap_returns_iff (reachable_valid userSpace_reachable)).mp hret haccepts).1.1
  exact absurd hfits (by decide)

end

end Innigkeit.User.Handlers

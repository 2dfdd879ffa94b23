import Innigkeit.Address.VirtualRange

/-!
What the syscall handlers share: the errors that they return, the positional
arguments, and the class of a virtual address. An argument is a machine word.
-/

namespace Innigkeit.User

open Zig VirtualRange

inductive SyscallError where
  | permissionDenied
  | badHandle
  | badAddress
  | wouldBlock
  | outOfMemory
  | notFound
  | alreadyExists
  | invalidArgument
  | noDevice
  | noSpace
  | ioError
  | unsupported
  | unknown
  deriving DecidableEq, Repr

/-- A positional argument narrowed to 32 bits. -/
def arg32 (word : ℕ) : ℕ := word % 2 ^ 32

def kernelMemoryRange : VirtualRange := ⟨0xFFFF800000000000, 2 ^ 47 - 4096⟩

def userMemoryRange : VirtualRange := ⟨0x1000, 2 ^ 47 - 2 * 4096⟩

inductive Tagged where
  | kernel
  | user
  | invalid
  deriving DecidableEq, Repr

def tagged (address : ℕ) : Checked Tagged := do
  if ← kernelMemoryRange.containsAddress address then return .kernel
  if ← userMemoryRange.containsAddress address then return .user
  return .invalid

theorem tagged_eq (address : ℕ) : tagged address =
    .ok (if kernelMemoryRange.Contains address then .kernel
      else if userMemoryRange.Contains address then .user else .invalid) := by
  have hcontains {range : VirtualRange} (hfits : range.Fits) :
      range.containsAddress address = .ok (decide (range.Contains address)) := by
    rw [containsAddress]
    by_cases hle : range.address ≤ address
    · rw [if_pos hle, after_of_fits hfits, ok_bind, pure_eq_ok]
      simp only [Contains, hle, true_and]
    · rw [if_neg hle, pure_eq_ok, decide_eq_false fun h => hle h.1]
  have hkernel : kernelMemoryRange.Fits := by decide
  have huser : userMemoryRange.Fits := by decide
  rw [tagged, hcontains hkernel, hcontains huser, ok_bind, ok_bind]
  simp only [decide_eq_true_eq]
  split
  · rfl
  · split <;> rfl

end Innigkeit.User

import Innigkeit.Zig.Checked
import Innigkeit.Memory.MapType

/-!
A page table entry of x64: a 64-bit word whose bits are read and written one at
a time, with the physical address in the bits from 12 to 47.
-/

namespace Innigkeit.X64.PageTable

open Memory List

abbrev Raw := BitVec 64

namespace Entry

def readBit (entry : Raw) (bit : ℕ) : Bool := entry.getLsbD bit

def writeBit (entry : Raw) (bit : ℕ) (value : Bool) : Raw :=
  entry &&& ~~~(1#64 <<< bit) ||| (BitVec.ofBool value).setWidth 64 <<< bit

def presentBit : ℕ := 0
def writeableBit : ℕ := 1
def userAccessibleBit : ℕ := 2
def writeThroughBit : ℕ := 3
def noCacheBit : ℕ := 4
/-- Bit 7 says in a table entry that it maps a huge page, and belongs to the memory type in a leaf. -/
def hugeBit : ℕ := 7
def patBit : ℕ := 7
def globalBit : ℕ := 8
def noExecuteBit : ℕ := 63

def present (entry : Raw) : Bool := readBit entry presentBit

def huge (entry : Raw) : Bool := readBit entry hugeBit

def addressMask : Raw := (1#64 <<< 36 - 1#64) <<< 12

def getAddress4kib (entry : Raw) : Raw := entry &&& addressMask

inductive NextLevelError where
  | notPresent
  | hugePage
  deriving DecidableEq, Repr

def getNextLevel (entry : Raw) : Except NextLevelError Unit :=
  if present entry = false then .error .notPresent
  else if huge entry = true then .error .hugePage
  else .ok ()

def userAccessible : Context → Bool
  | .user => true
  | .kernel => false

def isGlobal : Context → Bool
  | .user => false
  | .kernel => true

def writeThrough : Cache → Bool
  | .writeBack => false
  | .writeCombining => true
  | .uncached => false

def noCache : Cache → Bool
  | .writeBack => false
  | .writeCombining => false
  | .uncached => true

def pat : Cache → Bool
  | .writeBack => false
  | .writeCombining => true
  | .uncached => false

/-- The processor may lack the bit that forbids execution, which is then left alone. -/
def applyMapType (executeDisable : Bool) (entry : Raw) (mapType : MapType) : Raw :=
  let entry := writeBit entry presentBit true
  let entry := writeBit entry writeableBit mapType.protection.write
  let entry :=
    if executeDisable then writeBit entry noExecuteBit (!mapType.protection.execute) else entry
  let entry := writeBit entry userAccessibleBit (userAccessible mapType.type)
  let entry := writeBit entry globalBit (isGlobal mapType.type)
  let entry := writeBit entry writeThroughBit (writeThrough mapType.cache)
  let entry := writeBit entry noCacheBit (noCache mapType.cache)
  writeBit entry patBit (pat mapType.cache)

theorem readBit_writeBit {entry : Raw} {bit i : ℕ} {value : Bool} (h : bit < 64) :
    readBit (writeBit entry bit value) i = if i = bit then value else readBit entry i := by
  unfold readBit writeBit
  by_cases hi : i < 64
  · by_cases heq : i = bit
    · subst heq
      simp [hi]
    · rcases Nat.lt_or_gt_of_ne heq with hlt | hgt
      · simp [hi, heq, hlt]
      · have hne : i - bit ≠ 0 := by omega
        simp [hi, heq, not_lt.mpr (le_of_lt hgt), hne]
  · have hne : i ≠ bit := by omega
    simp [hne, BitVec.getLsbD_of_ge _ i (not_lt.mp hi)]

@[simp] theorem not_present_zero : present 0 = false := rfl

theorem getLsbD_addressMask (i : ℕ) : addressMask.getLsbD i = decide (12 ≤ i ∧ i < 48) := by
  have hword : ∀ i : Fin 64, addressMask.getLsbD i = decide (12 ≤ i.val ∧ i.val < 48) := by decide
  by_cases hi : i < 64
  · exact hword ⟨i, hi⟩
  · rw [BitVec.getLsbD_of_ge _ i (not_lt.mp hi)]
    exact (decide_eq_false (by omega)).symm

/-- A leaf that allows what the map type says and is cached as it says. -/
structure HasMapType (executeDisable : Bool) (entry : Raw) (mapType : MapType) : Prop where
  present : present entry = true
  writeable : readBit entry writeableBit = mapType.protection.write
  noExecute : executeDisable = true → readBit entry noExecuteBit = !mapType.protection.execute
  userAccessible : readBit entry userAccessibleBit = userAccessible mapType.type
  isGlobal : readBit entry globalBit = isGlobal mapType.type
  writeThrough : readBit entry writeThroughBit = writeThrough mapType.cache
  noCache : readBit entry noCacheBit = noCache mapType.cache
  pat : readBit entry patBit = pat mapType.cache

section

variable (executeDisable : Bool) (entry : Raw) (mapType : MapType)

theorem readBit_applyMapType {i : ℕ} (h : i ∉ [0, 1, 2, 3, 4, 7, 8, 63]) :
    readBit (applyMapType executeDisable entry mapType) i = readBit entry i := by
  simp only [mem_cons, not_mem_nil, or_false, not_or] at h
  obtain ⟨h0, h1, h2, h3, h4, h7, h8, h63⟩ := h
  cases executeDisable <;>
    simp [applyMapType, readBit_writeBit, presentBit, writeableBit, noExecuteBit,
      userAccessibleBit, globalBit, writeThroughBit, noCacheBit, patBit, *]

theorem applyMapType_address :
    getAddress4kib (applyMapType executeDisable entry mapType) = getAddress4kib entry := by
  apply BitVec.eq_of_getLsbD_eq
  intro i _
  rw [getAddress4kib, getAddress4kib, BitVec.getLsbD_and, BitVec.getLsbD_and, getLsbD_addressMask]
  by_cases hi : 12 ≤ i ∧ i < 48
  · rw [← readBit, readBit_applyMapType, readBit]
    simp only [mem_cons, not_mem_nil, or_false, not_or]
    omega
  · rw [decide_eq_false hi, Bool.and_false, Bool.and_false]

theorem applyMapType_hasMapType :
    HasMapType executeDisable (applyMapType executeDisable entry mapType) mapType := by
  constructor <;> cases executeDisable <;>
    simp [present, applyMapType, readBit_writeBit, presentBit, writeableBit, noExecuteBit,
      userAccessibleBit, globalBit, writeThroughBit, noCacheBit, patBit]

end

end Entry

end Innigkeit.X64.PageTable

import Innigkeit.Zig.Checked

/-!
Virtual addresses and ranges. An address and a size are the values of their
64-bit words; moving past the end of the word traps, so the end of a range is a
checked value. `stop` is the same end over the natural numbers, for ranges that
are known to fit and for statements.
-/

namespace Innigkeit

open Zig


def standardPageSize : ℕ := 4096

def PageAligned (value : ℕ) : Prop := value % standardPageSize = 0
  deriving Decidable

theorem pageAligned_iff {value : ℕ} : PageAligned value ↔ value % 4096 = 0 := Iff.rfl

namespace VirtualAddress

def moveForward (address size : ℕ) : Checked ℕ :=
  add 64 address size

def difference (address other : ℕ) : Checked ℕ := do
  assert (address ≤ other)
  sub other address

def alignBackward (address alignment : ℕ) : ℕ := address / alignment * alignment

def pageAlignBackward (address : ℕ) : ℕ :=
  alignBackward address standardPageSize

@[simp] theorem difference_eq_ok {address other size : ℕ} :
    difference address other = .ok size ↔ address ≤ other ∧ size = other - address := by
  simp only [difference, bind_eq_ok, assert_eq_ok, sub_eq_ok]
  constructor
  · rintro ⟨_, h, _, rfl⟩
    exact ⟨h, rfl⟩
  · rintro ⟨h, rfl⟩
    exact ⟨(), h, h, rfl⟩

theorem difference_of_le {address other : ℕ} (h : address ≤ other) :
    difference address other = .ok (other - address) :=
  difference_eq_ok.mpr ⟨h, rfl⟩

end VirtualAddress

structure VirtualRange where
  address : ℕ
  size : ℕ
  deriving DecidableEq, Repr

namespace VirtualRange

def pageAligned (range : VirtualRange) : Bool :=
  decide (PageAligned range.address) && decide (PageAligned range.size)

def after (range : VirtualRange) : Checked ℕ :=
  VirtualAddress.moveForward range.address range.size

/-- The last address of the range, or its start when the range is empty. -/
def last (range : VirtualRange) : Checked ℕ := do
  if range.size = 0 then return range.address
  VirtualAddress.moveForward range.address (← sub range.size 1)

def anyOverlap (range other : VirtualRange) : Checked Bool := do
  if range.address < (← after other) then return decide (other.address < (← after range))
  else return false

def containsAddress (range : VirtualRange) (address : ℕ) : Checked Bool := do
  if range.address ≤ address then return decide (address < (← after range))
  else return false

def containsAddressOrder (range : VirtualRange) (address : ℕ) : Checked Ordering := do
  if address < range.address then return .lt
  if (← after range) ≤ address then return .gt
  return .eq

/-- The end of the range over the natural numbers. -/
def stop (range : VirtualRange) : ℕ := range.address + range.size

theorem stop_eq (range : VirtualRange) : range.stop = range.address + range.size := rfl

/-- The end of the range is a machine address. -/
def Fits (range : VirtualRange) : Prop := range.stop < 2 ^ 64
  deriving Decidable

def Contains (range : VirtualRange) (address : ℕ) : Prop :=
  range.address ≤ address ∧ address < range.stop
  deriving Decidable

def Overlaps (range other : VirtualRange) : Prop :=
  range.address < other.stop ∧ other.address < range.stop
  deriving Decidable

def hull (range other : VirtualRange) : VirtualRange :=
  ⟨range.address, other.stop - range.address⟩

variable {range other : VirtualRange} {address : ℕ}

theorem contains_iff :
    range.Contains address ↔ range.address ≤ address ∧ address < range.stop := Iff.rfl

theorem overlaps_iff :
    range.Overlaps other ↔ range.address < other.stop ∧ other.address < range.stop := Iff.rfl

@[simp] theorem pageAligned_eq_true :
    range.pageAligned = true ↔ PageAligned range.address ∧ PageAligned range.size := by
  simp [pageAligned]

@[simp] theorem after_eq_ok : range.after = .ok address ↔ range.Fits ∧ address = range.stop := by
  simp [after, VirtualAddress.moveForward, Fits, stop]

theorem after_of_fits (h : range.Fits) : range.after = .ok range.stop := after_eq_ok.mpr ⟨h, rfl⟩

theorem anyOverlap_of_fits (h : range.Fits) (ho : other.Fits) :
    range.anyOverlap other = .ok (decide (range.Overlaps other)) := by
  simp only [anyOverlap, after_of_fits ho, after_of_fits h, ok_bind, pure_eq_ok, Overlaps]
  by_cases hlt : range.address < other.stop
  · simp only [hlt, if_true, true_and]
  · simp only [hlt, if_false, false_and, decide_false]

theorem containsAddressOrder_of_fits (h : range.Fits) :
    range.containsAddressOrder address =
      .ok (if address < range.address then .lt else if range.stop ≤ address then .gt else .eq) := by
  simp only [containsAddressOrder, after_of_fits h]
  split
  · rfl
  · simp only [ok_bind]
    split <;> rfl

theorem hull_stop (h : range.stop ≤ other.address) : (range.hull other).stop = other.stop := by
  simp only [stop, hull] at *
  omega

theorem contains_hull (h : range.stop ≤ other.address) :
    (range.hull other).Contains address ↔ range.address ≤ address ∧ address < other.stop := by
  rw [contains_iff, hull_stop h]
  rfl

end VirtualRange

end Innigkeit

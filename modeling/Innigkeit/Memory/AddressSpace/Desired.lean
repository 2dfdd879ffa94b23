import Innigkeit.Memory.AddressSpace.EntryRangeSpec
import Innigkeit.Memory.AddressSpace.Merge
import Innigkeit.Memory.AddressSpace.Split
import Innigkeit.Library.Surgery

/-!
What `changeProtection` wants the entries to be before it merges any of them:
the entries cut at the ends of the range where they are to be changed, with the
request applied inside. The merges that the code then tries are described on
this list, by the neighbours that can be merged.
-/

namespace Innigkeit.Memory

open Zig VirtualRange

namespace Entry

def part (entry : Entry) (range : VirtualRange) : Entry :=
  (entry.rest (range.address - entry.range.address)).front
    (min range.stop entry.range.stop - max range.address entry.range.address)

variable {limit size size' : ℕ} {heap : Heap} {entry : Entry} {range : VirtualRange}

theorem rest_zero : entry.rest 0 = entry := by
  obtain ⟨⟨address, size⟩, p, m, ⟨map, offset⟩, object, cow, needsCopy, wired⟩ := entry
  cases map <;> rfl

theorem rest_rest : (entry.rest size).rest size' = entry.rest (size + size') := by
  obtain ⟨⟨address, n⟩, p, m, ⟨map, offset⟩, object, cow, needsCopy, wired⟩ := entry
  cases map <;> simp [rest, add_assoc, Nat.sub_sub]

theorem front_self (h : size = entry.range.size) : entry.front size = entry := by
  subst h
  rfl

end Entry

namespace AddressSpace.ChangeProtection.Request

variable {request : Request} {entry : Entry} {range : VirtualRange}

/-- What becomes of an entry: it is cut at the ends of the range and changed inside, unless there is
nothing to change. -/
def pieces (request : Request) (range : VirtualRange) (entry : Entry) : List Entry :=
  if ¬ entry.range.Overlaps range ∨ request.satisfied entry then [entry]
  else
    (if entry.range.address < range.address
      then [entry.front (range.address - entry.range.address)] else []) ++
    [request.apply (entry.part range)] ++
    (if range.stop < entry.range.stop
      then [entry.rest (range.stop - entry.range.address)] else [])

def changedPart (request : Request) (range : VirtualRange) (entry : Entry) : List Entry :=
  if ¬ entry.range.Overlaps range ∨ request.satisfied entry then [] else [entry.part range]

def changed (request : Request) (range : VirtualRange) (entries : List Entry) : List Entry :=
  entries.flatMap (request.changedPart range)

/-- The entries as the request wants them, before any merge. -/
def desired (request : Request) (range : VirtualRange) (entries : List Entry) : List Entry :=
  entries.flatMap (request.pieces range)

def applyPage (request : Request) (page : Page) : Page :=
  { page with
    protection := request.protection.getD page.protection
    maxProtection := request.maxProtection.getD page.maxProtection }

@[simp] theorem apply_range : (request.apply entry).range = entry.range := rfl

@[simp] theorem apply_anonymousMap :
    (request.apply entry).anonymousMap = entry.anonymousMap := rfl

theorem apply_page (address : ℕ) :
    (request.apply entry).page address = request.applyPage (entry.page address) := rfl

variable {size : ℕ}

theorem satisfied_iff : request.satisfied entry = true ↔
    (∀ p ∈ request.protection, entry.protection = p) ∧
      ∀ p ∈ request.maxProtection, entry.maxProtection = p := by
  simp [satisfied]

theorem apply_of_satisfied (h : request.satisfied entry = true) : request.apply entry = entry := by
  obtain ⟨h1, h2⟩ := satisfied_iff.mp h
  obtain ⟨protection, maxProtection⟩ := request
  obtain ⟨range, p, m, reference, object, cow, needsCopy, wired⟩ := entry
  cases protection <;> cases maxProtection <;> simp_all [apply]

theorem apply_ne_of_not_satisfied (h : request.satisfied entry = false) :
    (request.apply entry).protection ≠ entry.protection ∨
      (request.apply entry).maxProtection ≠ entry.maxProtection := by
  by_contra hnot
  simp only [not_or, not_not] at hnot
  have hyes : request.satisfied entry = true := by
    rw [satisfied_iff]
    obtain ⟨protection, maxProtection⟩ := request
    constructor
    · rintro p ⟨⟩
      exact hnot.1.symm
    · rintro p ⟨⟩
      exact hnot.2.symm
  simp [h] at hyes

theorem apply_good {limit : ℕ} {heap : Heap} (h : entry.Good limit heap) :
    (request.apply entry).Good limit heap :=
  ⟨h.alignedAddress, h.alignedSize, h.nonempty, h.below, h.noObject, h.unwired, h.needsCopy,
    h.window⟩

theorem apply_within : Entry.Within (request.apply entry) entry :=
  ⟨le_rfl, le_rfl, rfl, fun _ _ => le_rfl, fun _ _ => le_rfl⟩

open Entry

section

variable (request) in
theorem pieces_of_not_overlaps (h : ¬ entry.range.Overlaps range) :
    request.pieces range entry = [entry] ∧ request.changedPart range entry = [] :=
  ⟨if_pos (.inl h), if_pos (.inl h)⟩

variable (range) in
theorem pieces_of_satisfied (h : request.satisfied entry = true) :
    request.pieces range entry = [request.apply entry] ∧ request.changedPart range entry = [] := by
  rw [apply_of_satisfied h]
  exact ⟨if_pos (.inr h), if_pos (.inr h)⟩

theorem part_of_inside (hlo : range.address ≤ entry.range.address)
    (hhi : entry.range.stop ≤ range.stop) : entry.part range = entry := by
  have hstop := entry.range.stop_eq
  rw [part, Nat.sub_eq_zero_of_le hlo, rest_zero, front_self]
  omega

theorem pieces_of_inside (ho : entry.range.Overlaps range) (h : request.satisfied entry = false)
    (hlo : range.address ≤ entry.range.address) (hhi : entry.range.stop ≤ range.stop) :
    request.pieces range entry = [request.apply entry] ∧
      request.changedPart range entry = [entry] := by
  have hnot : ¬ (¬ entry.range.Overlaps range ∨ request.satisfied entry = true) := by simp [ho, h]
  rw [pieces, changedPart, if_neg hnot, if_neg hnot, part_of_inside hlo hhi,
    if_neg (not_lt.mpr hlo), if_neg (not_lt.mpr hhi)]
  simp

theorem pieces_cut_start (hpos : 0 < range.size) (ho : entry.range.Overlaps range)
    (h : request.satisfied entry = false) (hlo : entry.range.address < range.address)
    (hsize : size = range.address - entry.range.address) :
    request.pieces range entry = entry.front size :: request.pieces range (entry.rest size) ∧
      request.changedPart range entry = request.changedPart range (entry.rest size) := by
  have hin := overlaps_iff.mp ho
  have hrs := range.stop_eq
  have hstop := entry.range.stop_eq
  have haddr : (entry.rest size).range.address = range.address := by
    simp only [rest]
    omega
  have hrstop : (entry.rest size).range.stop = entry.range.stop := by
    simp only [rest, stop_eq]
    omega
  have ho' : (entry.rest size).range.Overlaps range := by
    rw [overlaps_iff, haddr, hrstop]
    omega
  have hnot : ¬ (¬ entry.range.Overlaps range ∨ request.satisfied entry = true) := by simp [ho, h]
  have hnot' : ¬ (¬ (entry.rest size).range.Overlaps range ∨
      request.satisfied (entry.rest size) = true) := by
    have hrest : request.satisfied (entry.rest size) = false := h
    simp [ho', hrest]
  have hpart : (entry.rest size).part range = entry.part range := by
    rw [part, part, haddr, hrstop, Nat.sub_self, rest_zero, hsize, Nat.max_self,
      Nat.max_eq_left (le_of_lt hlo)]
  have hback : (entry.rest size).rest (range.stop - range.address) =
      entry.rest (range.stop - entry.range.address) := by
    rw [rest_rest]
    congr 1
    omega
  rw [pieces, changedPart, if_neg hnot, if_neg hnot, pieces, changedPart, if_neg hnot',
    if_neg hnot', hpart, haddr, hrstop, hback, if_pos hlo, if_neg (lt_irrefl _), ← hsize]
  simp

theorem pieces_cut_end (hpos : 0 < range.size) (ho : entry.range.Overlaps range)
    (h : request.satisfied entry = false) (hlo : range.address ≤ entry.range.address)
    (hhi : range.stop < entry.range.stop) (hsize : size = range.stop - entry.range.address) :
    request.pieces range entry = request.pieces range (entry.front size) ++ [entry.rest size] ∧
      request.changedPart range entry = request.changedPart range (entry.front size) := by
  have hin := overlaps_iff.mp ho
  have hstop := entry.range.stop_eq
  have hrs := range.stop_eq
  have hfstop : (entry.front size).range.stop = range.stop := by
    rw [stop_eq, show (entry.front size).range.address = entry.range.address from rfl,
      show (entry.front size).range.size = size from rfl]
    omega
  have ho' : (entry.front size).range.Overlaps range := by
    rw [overlaps_iff, hfstop]
    exact ⟨hin.1, by omega⟩
  have hnot : ¬ (¬ entry.range.Overlaps range ∨ request.satisfied entry = true) := by simp [ho, h]
  have hpart : entry.part range = entry.front size := by
    rw [part, Nat.sub_eq_zero_of_le hlo, rest_zero, hsize]
    congr 1
    omega
  have hfront : request.satisfied (entry.front size) = false := h
  obtain ⟨hp, hc⟩ := pieces_of_inside ho' hfront hlo (le_of_eq hfstop)
  rw [pieces, changedPart, if_neg hnot, if_neg hnot, hp, hc, hpart, if_neg (not_lt.mpr hlo),
    if_pos hhi, ← hsize]
  simp

end

end AddressSpace.ChangeProtection.Request

end Innigkeit.Memory

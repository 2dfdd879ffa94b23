import Innigkeit.Zig.Checked

/-!
Placement of an entity on an EEVDF run queue. A waking entity is placed by the lag
that was saved when it left a queue, which need not be the queue it comes back to:
a stolen task brings the lag from its victim's virtual clock to the thief's. The
subtraction of the lag is done in wrapping 64-bit arithmetic.
-/

namespace Innigkeit.Task.Sched

open Zig UInt64

def nice0Weight : UInt32 := 1024

def defaultSliceNs : UInt64 := 3000000

structure SchedEntity where
  weight : UInt32 := nice0Weight
  vruntime : UInt64 := 0
  deadline : UInt64 := 0
  slice : UInt64 := defaultSliceNs
  vlag : Int64 := 0
  customSlice : Bool := false
  deriving DecidableEq, Repr

/-- The virtual clock of a run queue: the weighted sums over its entities, and the lower bound on
their virtual runtimes. -/
structure EevdfRunqueue where
  sumWVruntime : Int64 := 0
  sumWeight : UInt64 := 0
  zeroVruntime : UInt64 := 0
  minVruntime : UInt64 := 0
  deriving DecidableEq, Repr

structure EnqueueFlags where
  wakeup : Bool := false
  migrated : Bool := false
  initial : Bool := false
  deriving DecidableEq, Repr

def addU64 (a b : UInt64) : Checked UInt64 :=
  if a.toNat + b.toNat < 2 ^ 64 then return a + b else throw .overflow

namespace EevdfRunqueue

def seKey (self : EevdfRunqueue) (se : SchedEntity) : Int64 :=
  se.vruntime.toInt64 - self.zeroVruntime.toInt64

/-- The product wraps, the sums are checked. -/
def addToAvg (self : EevdfRunqueue) (se : SchedEntity) : Checked EevdfRunqueue := do
  let term := self.seKey se * se.weight.toUInt64.toInt64
  let sum := self.sumWVruntime.toInt + term.toInt
  if sum < -2 ^ 63 ∨ 2 ^ 63 ≤ sum then throw .overflow
  return { self with
    sumWVruntime := self.sumWVruntime + term
    sumWeight := ← addU64 self.sumWeight se.weight.toUInt64 }

end EevdfRunqueue

/-- Real nanoseconds to virtual ones: `delta * 1024 / weight` in 128 bits, cut off at the largest
64-bit number. -/
def calcDeltaFair (deltaNs : UInt64) (weight : UInt32) : Checked UInt64 :=
  if weight = nice0Weight then return deltaNs
  else if weight = 0 then throw .panic
  else return .ofNat (min (deltaNs.toNat * nice0Weight.toNat / weight.toNat) (2 ^ 64 - 1))

/-- The service that the entity is owed, by the virtual clock of the queue it is on. -/
def lag (erq : EevdfRunqueue) (se : SchedEntity) : Checked Int64 := do
  if erq.sumWeight = 0 then return 0
  if 2 ^ 63 ≤ erq.sumWeight.toNat then throw .cast
  let avgKey := erq.sumWVruntime / erq.sumWeight.toInt64
  return avgKey - erq.seKey se

def saveLag (erq : EevdfRunqueue) (se : SchedEntity) : Checked SchedEntity := do
  return { se with vlag := ← lag erq se }

def placedVruntime (erq : EevdfRunqueue) (se : SchedEntity) (flags : EnqueueFlags) : UInt64 :=
  if flags.initial = true then max se.vruntime erq.minVruntime
  else if flags.wakeup = true then max se.vruntime (erq.minVruntime - se.vlag.toUInt64)
  else se.vruntime

/-- The slice that a renewed deadline is computed from: a custom one stays. -/
def renewedSlice (se : SchedEntity) : UInt64 :=
  if se.customSlice = false then defaultSliceNs else se.slice

/-- The second half of `placeEntity`: a slice that has been used up is renewed. -/
def renewDeadline (se : SchedEntity) : Checked SchedEntity :=
  if se.deadline ≤ se.vruntime then do
    let slice := renewedSlice se
    let deadline ← addU64 se.vruntime (← calcDeltaFair slice se.weight)
    return { se with slice, deadline }
  else return se

def placeEntity (erq : EevdfRunqueue) (se : SchedEntity) (flags : EnqueueFlags) :
    Checked SchedEntity :=
  renewDeadline { se with vruntime := placedVruntime erq se flags }

section

variable (erq : EevdfRunqueue) (se : SchedEntity) (flags : EnqueueFlags)

/-- Where a waking entity belongs, over the integers. -/
def fairVruntime : ℤ :=
  max (se.vruntime.toNat : ℤ) (max 0 ((erq.minVruntime.toNat : ℤ) - se.vlag.toInt))

/-- The entity is placed where it belongs, and its deadline is renewed without overflow. -/
def PlacedFairly : Prop :=
  ∃ se', placeEntity erq se flags = .ok se' ∧
    (se'.vruntime.toNat : ℤ) = fairVruntime erq se ∧
    (se'.vruntime.toNat : ℤ) ≤
      max (se.vruntime.toNat : ℤ) (erq.minVruntime.toNat + se.vlag.toInt.natAbs)

/-- The subtraction of the lag does not wrap, or it wraps to a number that does not matter. A new
entity is placed without its lag. -/
def LagFits : Prop :=
  if flags.initial = true then
    se.vlag.toInt = 0 ∨ erq.minVruntime.toNat ≤ se.vruntime.toNat ∧
      (erq.minVruntime.toNat : ℤ) - se.vlag.toInt ≤ se.vruntime.toNat
  else if se.vlag.toInt ≤ erq.minVruntime.toNat then
    (erq.minVruntime.toNat : ℤ) - se.vlag.toInt < 2 ^ 64
  else 2 ^ 64 + (erq.minVruntime.toNat : ℤ) - se.vlag.toInt ≤ se.vruntime.toNat

/-- The deadline is still ahead of the fair place, or one slice more is a 64-bit number. -/
def RenewalFits : Prop :=
  fairVruntime erq se < se.deadline.toNat ∨
    ∃ delta, calcDeltaFair (renewedSlice se) se.weight = .ok delta ∧
      fairVruntime erq se + delta.toNat < 2 ^ 64

variable {erq se flags}

private theorem toNat_max (a b : UInt64) : (max a b).toNat = max a.toNat b.toNat := by
  show (if a ≤ b then b else a).toNat = _
  split
  case isTrue h => exact (Nat.max_eq_right (le_iff_toNat_le.mp h)).symm
  case isFalse h =>
    exact (Nat.max_eq_left (Nat.le_of_not_le fun hle => h (le_iff_toNat_le.mpr hle))).symm

private theorem vlag_cases (vlag : Int64) :
    (vlag.toUInt64.toNat : ℤ) = vlag.toInt ∧ vlag.toInt < 2 ^ 63 ∨
      (vlag.toUInt64.toNat : ℤ) = vlag.toInt + 2 ^ 64 ∧ -2 ^ 63 ≤ vlag.toInt ∧ vlag.toInt < 0 := by
  have hcond := BitVec.toInt_eq_toNat_cond vlag.toBitVec
  have hlt := vlag.toBitVec.isLt
  have hint : vlag.toBitVec.toInt = vlag.toInt := rfl
  have hnat : vlag.toBitVec.toNat = vlag.toUInt64.toNat := rfl
  rw [hint, hnat] at hcond
  rw [hnat] at hlt
  split at hcond <;> omega

theorem placedVruntime_eq_iff (hwakeup : flags.wakeup = true) :
    ((placedVruntime erq se flags).toNat : ℤ) = fairVruntime erq se ↔ LagFits erq se flags := by
  have hmin := erq.minVruntime.toNat_lt
  have hold := se.vruntime.toNat_lt
  rw [placedVruntime, LagFits, fairVruntime]
  cases flags.initial with
  | true =>
    simp only [if_true, toNat_max]
    omega
  | false =>
    simp only [hwakeup, Bool.false_eq_true, if_false, if_true, toNat_max, UInt64.toNat_sub]
    cases vlag_cases se.vlag with
    | inl h =>
      split <;> omega
    | inr h =>
      split <;> omega

/-- Renewing the deadline leaves the runtime alone, and returns if one more slice fits. -/
theorem renewDeadline_spec (se : SchedEntity) :
    (∀ se', renewDeadline se = .ok se' → se'.vruntime = se.vruntime) ∧
    (Checked.Returns (renewDeadline se) ↔ se.vruntime.toNat < se.deadline.toNat ∨
      ∃ delta, calcDeltaFair (renewedSlice se) se.weight = .ok delta ∧
        se.vruntime.toNat + delta.toNat < 2 ^ 64) := by
  rw [renewDeadline]
  by_cases hle : se.deadline ≤ se.vruntime
  case neg =>
    rw [if_neg hle]
    refine ⟨fun se' h => by cases h; rfl, iff_of_true ⟨_, rfl⟩ (.inl ?_)⟩
    exact Nat.lt_of_not_le fun hno => hle (le_iff_toNat_le.mpr hno)
  have hnot : ¬ se.vruntime.toNat < se.deadline.toNat :=
    not_lt.mpr (le_iff_toNat_le.mp hle)
  rw [if_pos hle, or_iff_right hnot]
  constructor
  · intro se' h
    obtain ⟨delta, -, h⟩ := bind_eq_ok.mp h
    obtain ⟨deadline, -, h⟩ := bind_eq_ok.mp h
    cases h
    rfl
  · rw [returns_bind]
    refine exists_congr fun delta => and_congr_right fun _ => ?_
    rw [returns_bind, addU64]
    by_cases hlt : se.vruntime.toNat + delta.toNat < 2 ^ 64
    · rw [if_pos hlt]
      exact iff_of_true ⟨_, rfl, _, rfl⟩ hlt
    · rw [if_neg hlt]
      refine iff_of_false (fun h => ?_) hlt
      obtain ⟨deadline, hdeadline, -⟩ := h
      cases hdeadline

/-- A waking entity is placed where it belongs exactly if its lag fits into the subtraction and the
renewed deadline fits into 64 bits. -/
theorem placeEntity_fair_iff (hwakeup : flags.wakeup = true) :
    PlacedFairly erq se flags ↔ LagFits erq se flags ∧ RenewalFits erq se := by
  obtain ⟨placed, hplaced⟩ : ∃ placed, placed = { se with vruntime := placedVruntime erq se flags } :=
    ⟨_, rfl⟩
  have hvruntime : placed.vruntime = placedVruntime erq se flags := by rw [hplaced]
  have hslice : renewedSlice placed = renewedSlice se := by rw [hplaced]; rfl
  have hweight : placed.weight = se.weight := by rw [hplaced]
  have hdeadline : placed.deadline = se.deadline := by rw [hplaced]
  obtain ⟨hkeeps, hreturns⟩ := renewDeadline_spec placed
  have hfair := @placedVruntime_eq_iff erq se flags hwakeup
  rw [hslice, hweight, hdeadline, hvruntime] at hreturns
  rw [PlacedFairly, placeEntity, ← hplaced]
  constructor
  · intro h
    obtain ⟨se', hrun, heq, _⟩ := h
    rw [hkeeps se' hrun, hvruntime] at heq
    refine ⟨hfair.mp heq, ?_⟩
    rw [RenewalFits, ← heq]
    cases hreturns.mp ⟨se', hrun⟩ with
    | inl h => exact .inl (by exact_mod_cast h)
    | inr h =>
      obtain ⟨delta, hdelta, hlt⟩ := h
      exact .inr ⟨delta, hdelta, by exact_mod_cast hlt⟩
  · intro h
    obtain ⟨hlag, hrenewal⟩ := h
    have heq := hfair.mpr hlag
    rw [RenewalFits, ← heq] at hrenewal
    obtain ⟨se', hrun⟩ := hreturns.mpr (by
      cases hrenewal with
      | inl h => exact .inl (by exact_mod_cast h)
      | inr h =>
        obtain ⟨delta, hdelta, hlt⟩ := h
        exact .inr ⟨delta, hdelta, by exact_mod_cast hlt⟩)
    refine ⟨se', hrun, ?_, ?_⟩
    all_goals rw [hkeeps se' hrun, hvruntime, heq]
    rw [fairVruntime]
    omega

/-- A task that is owed 2 ms wakes up on the queue it left, which has gone on. -/
theorem placeEntity_fair_owed :
    PlacedFairly { minVruntime := 5000000 } { vlag := 2000000 } { wakeup := true } := by
  refine (placeEntity_fair_iff rfl).mpr ⟨?_, .inr ⟨3000000, rfl, by decide⟩⟩
  unfold LagFits
  decide

/-- Two tasks on the victim's queue, one of which has run for 2 ms: the other one is owed 1 ms. The
queue that steals it has just been started, and its virtual clock is still at zero. -/
theorem placeEntity_stolen_overflows : ∃ ran waiting victim stolen,
    ran = ({ vruntime := 2000000, deadline := 3000000 } : SchedEntity) ∧
    waiting = ({ deadline := 3000000 } : SchedEntity) ∧
    (do (← EevdfRunqueue.addToAvg {} ran).addToAvg waiting) = .ok victim ∧
    saveLag victim waiting = .ok stolen ∧
    placedVruntime {} stolen { wakeup := true, migrated := true } = 18446744073708551616 ∧
    placeEntity {} stolen { wakeup := true, migrated := true } = .error .overflow ∧
    ¬ PlacedFairly {} stolen { wakeup := true, migrated := true } := by
  refine ⟨_, _, _, _, rfl, rfl, rfl, rfl, rfl, rfl, ?_⟩
  intro h
  obtain ⟨se', hrun, _⟩ := h
  cases hrun

end

end Innigkeit.Task.Sched

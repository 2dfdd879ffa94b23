import Innigkeit.Library.Transition
import Mathlib.Algebra.Order.Ring.Nat

/-!
The parker of one task. Every atomic operation on `unpark_attempts`, every access
to `parked_task` and every lock or unlock of the parker lock is a step of the
parking task or of one of the unparkers, in any order. A position is named after
what the task does next. Two fields are no part of the source: `owed` says that
an unpark has counted its attempt since the task was last woken or last returned
from a park, and `wakes` counts the wakes since the task last blocked.
-/

namespace Innigkeit.Sync.Parker

open Function Transition Option System

inductive ParkPc where
  | running
  | lock
  | recheck
  | recheckScheduler
  | unlock
  -- the block action, run with the parker lock held
  | setParkedTask
  | unsafeUnlock
  | blocked
  deriving DecidableEq, Repr

inductive UnparkPc where
  | idle
  | lock
  | takeParkedTask
  | unlock
  | resetAttempts
  | unlockParked
  | wakeFromBlocked
  deriving DecidableEq, Repr

inductive Holder (Unparker : Type) where
  | parker
  | unparker (u : Unparker)
  deriving DecidableEq, Repr

structure State (Unparker : Type) where
  lock : Option (Holder Unparker) := none
  parkedTask : Bool
  unparkAttempts : ℕ := 0
  park : ParkPc
  unpark : Unparker → UnparkPc := fun _ => .idle
  owed : Bool := false
  wakes : ℕ := 0
  assertionFailed : Bool := false

inductive Label (Unparker : Type) where
  | park
  | proceedPark
  | unpark (u : Unparker)
  | proceedUnpark (u : Unparker)
  deriving DecidableEq, Repr

variable {Unparker : Type}

def empty : State Unparker := { parkedTask := false, park := .running }

def withParkedTask : State Unparker := { parkedTask := true, park := .blocked }

/-- `unpark_attempts.swap(0)`: the park ends if there were attempts, and goes on otherwise. -/
def swapAttempts (s : State Unparker) (ends continues : ParkPc) : State Unparker :=
  if s.unparkAttempts ≠ 0 then { s with unparkAttempts := 0, park := ends, owed := false }
  else { s with park := continues }

def park (s : State Unparker) : Option (State Unparker) :=
  match s.park with
  | .running => some (swapAttempts s .running .lock)
  | .lock =>
    match s.lock with
    | none => some { s with
        lock := some .parker, park := .recheck
        assertionFailed := s.assertionFailed || s.parkedTask }
    | some _ => none
  | .recheck => some (swapAttempts s .unlock .recheckScheduler)
  | .recheckScheduler => some (swapAttempts s .unlock .setParkedTask)
  | .unlock => some { s with lock := none, park := .running }
  | .setParkedTask => some { s with parkedTask := true, park := .unsafeUnlock, wakes := 0 }
  | .unsafeUnlock => some { s with lock := none, park := .blocked }
  | .blocked => none

def unpark [DecidableEq Unparker] (s : State Unparker) (u : Unparker) : Option (State Unparker) :=
  match s.unpark u with
  | .idle => some { s with
      unparkAttempts := (s.unparkAttempts + 1) % 2 ^ 64
      unpark := update s.unpark u (if s.unparkAttempts ≠ 0 then .idle else .lock)
      owed := true }
  | .lock =>
    match s.lock with
    | none => some { s with
        lock := some (.unparker u), unpark := update s.unpark u .takeParkedTask }
    | some _ => none
  | .takeParkedTask =>
    if s.parkedTask then some { s with
        parkedTask := false, unpark := update s.unpark u .resetAttempts }
    else some { s with unpark := update s.unpark u .unlock }
  | .unlock => some { s with lock := none, unpark := update s.unpark u .idle }
  | .resetAttempts => some { s with
      unparkAttempts := 0, unpark := update s.unpark u .unlockParked }
  | .unlockParked => some { s with
      lock := none, unpark := update s.unpark u .wakeFromBlocked }
  | .wakeFromBlocked => some { s with
      park := .running, unpark := update s.unpark u .idle
      owed := false, wakes := s.wakes + 1
      assertionFailed := s.assertionFailed || s.park ≠ .blocked }

/-- `park` and `unpark` are called by a task that is in neither. -/
def next [DecidableEq Unparker] (s : State Unparker) : Label Unparker → Option (State Unparker)
  | .park => if s.park = .running then park s else none
  | .proceedPark => if s.park = .running then none else park s
  | .unpark u => if s.unpark u = .idle then unpark s u else none
  | .proceedUnpark u => if s.unpark u = .idle then none else unpark s u

def Initial (s : State Unparker) : Prop := s = empty ∨ s = withParkedTask

def system (Unparker : Type) [DecidableEq Unparker] : System (State Unparker) (Label Unparker) :=
  System.ofNext Initial next

/-! ### The invariant -/

def ParkPc.holdsLock : ParkPc → Bool
  | .recheck | .recheckScheduler | .unlock | .setParkedTask | .unsafeUnlock => true
  | _ => false

/-- The task has found no attempt with the lock held and has not been taken from the parker. -/
def ParkPc.committed : ParkPc → Bool
  | .recheckScheduler | .setParkedTask | .unsafeUnlock => true
  | _ => false

namespace UnparkPc

def holdsLock : UnparkPc → Bool
  | .takeParkedTask | .unlock | .resetAttempts | .unlockParked => true
  | _ => false

/-- The unparker has counted an attempt and has not looked at the parked task yet. -/
def looking : UnparkPc → Bool
  | .lock | .takeParkedTask => true
  | _ => false

/-- The unparker has taken the parked task and has not woken it yet. -/
def waking : UnparkPc → Bool
  | .resetAttempts | .unlockParked | .wakeFromBlocked => true
  | _ => false

/-- The unparker has consumed the attempts and has not woken the task yet. -/
def consumed : UnparkPc → Bool
  | .unlockParked | .wakeFromBlocked => true
  | _ => false

end UnparkPc

/-- Who has the lock, and where a parked task can be. -/
structure Located (s : State Unparker) : Prop where
  parker_holds : s.lock = some .parker ↔ s.park.holdsLock = true
  unparker_holds : ∀ u, s.lock = some (.unparker u) ↔ (s.unpark u).holdsLock = true
  parked_position : s.parkedTask = true → s.park = .unsafeUnlock ∨ s.park = .blocked
  parked_set : s.park = .unsafeUnlock → s.parkedTask = true
  waking_blocked : ∀ u, (s.unpark u).waking = true → s.park = .blocked ∧ s.parkedTask = false
  waking_unique : ∀ u v, (s.unpark u).waking = true → (s.unpark v).waking = true → u = v
  wakes_zero : s.parkedTask = true ∨ s.park = .blocked → s.wakes = 0
  wakes_le : s.wakes ≤ 1
  no_failure : s.assertionFailed = false

/-- A blocked task is known to the parker, or an unparker is about to wake it. -/
def Attended (s : State Unparker) : Prop :=
  s.park = .blocked → s.parkedTask = true ∨ ∃ u, (s.unpark u).waking = true

/-- Attempts that the task has not seen have an unparker that will look for the task. -/
def Seen (s : State Unparker) : Prop :=
  s.unparkAttempts ≠ 0 → s.park.committed = true ∨ s.parkedTask = true →
    ∃ u, (s.unpark u).looking = true

/-- An unpark that is owed is counted, or the wake that settles it is on its way. -/
def Kept (s : State Unparker) : Prop :=
  s.owed = true → s.unparkAttempts ≠ 0 ∨ ∃ u, (s.unpark u).consumed = true

variable {s s' : State Unparker} {u : Unparker} {us : List Unparker} {l : Label Unparker}

attribute [local grind cases] Located

attribute [local grind =] ParkPc.holdsLock ParkPc.committed UnparkPc.holdsLock UnparkPc.looking
  UnparkPc.waking UnparkPc.consumed update_apply

theorem located_initial (h : Initial s) : Located s := by
  rcases h with rfl | rfl
  · constructor <;> simp [empty, ParkPc.holdsLock, UnparkPc.holdsLock, UnparkPc.waking]
  · constructor <;> simp [withParkedTask, ParkPc.holdsLock, UnparkPc.holdsLock, UnparkPc.waking]

section

variable (hl : Located s)
include hl

theorem swapAttempts_located {ends continues : ParkPc} (hends : ends.holdsLock = s.park.holdsLock)
    (hcontinues : continues.holdsLock = s.park.holdsLock) (hs : s.parkedTask = false)
    (hb : s.park ≠ .blocked) (he : ends ≠ .blocked ∧ ends ≠ .unsafeUnlock)
    (hc : continues ≠ .blocked ∧ continues ≠ .unsafeUnlock) :
    Located (swapAttempts s ends continues) := by
  unfold swapAttempts
  split <;> constructor <;> grind

theorem Located.not_parked (hu : s.park ≠ .unsafeUnlock)
    (hb : s.park ≠ .blocked) : s.parkedTask = false := by
  rw [← Bool.not_eq_true]
  exact fun hp => (hl.parked_position hp).elim hu hb

theorem park_located (h : park s = some s') : Located s' := by
  cases hp : s.park with
  | running | recheck | recheckScheduler =>
    simp only [park, hp, some.injEq] at h
    subst h
    refine swapAttempts_located hl ?_ ?_ (hl.not_parked ?_ ?_) ?_ ?_ ?_ <;>
      simp [hp, ParkPc.holdsLock]
  | lock =>
    cases hlock : s.lock with
    | none =>
      simp only [park, hp, hlock, some.injEq] at h
      subst h
      constructor <;> grind
    | some holder => simp [park, hp, hlock] at h
  | unlock | setParkedTask | unsafeUnlock =>
    simp only [park, hp, some.injEq] at h
    subst h
    constructor <;> grind
  | blocked => simp [park, hp] at h

theorem park_attended (h : park s = some s') : Attended s' := by
  have hset := hl.parked_set
  cases hp : s.park with
  | running | recheck | recheckScheduler =>
    simp only [park, hp, swapAttempts, some.injEq] at h
    subst h
    split <;> simp [Attended]
  | lock =>
    cases hlock : s.lock <;> simp only [park, hp, hlock, some.injEq, reduceCtorEq] at h
    subst h
    simp [Attended]
  | unlock | setParkedTask =>
    simp only [park, hp, some.injEq] at h
    subst h
    simp [Attended]
  | unsafeUnlock =>
    simp only [park, hp, some.injEq] at h
    subst h
    exact fun _ => .inl (hset hp)
  | blocked => simp [park, hp] at h

theorem park_seen (hs : Seen s) (h : park s = some s') : Seen s' := by
  have hparked := hl.parked_position
  unfold Seen at hs ⊢
  cases hp : s.park with
  | running | recheck | recheckScheduler =>
    simp only [park, hp, swapAttempts, some.injEq] at h
    subst h
    split <;> grind
  | lock =>
    cases hlock : s.lock <;> simp only [park, hp, hlock, some.injEq, reduceCtorEq] at h
    subst h
    grind
  | unlock | setParkedTask | unsafeUnlock =>
    simp only [park, hp, some.injEq] at h
    subst h
    grind
  | blocked => simp [park, hp] at h

end

theorem park_kept (hk : Kept s) (h : park s = some s') : Kept s' := by
  unfold Kept at hk ⊢
  cases hp : s.park with
  | running | recheck | recheckScheduler =>
    simp only [park, hp, swapAttempts, some.injEq] at h
    subst h
    split <;> simp_all
  | lock =>
    cases hlock : s.lock <;> simp only [park, hp, hlock, some.injEq, reduceCtorEq] at h
    subst h
    exact hk
  | unlock | setParkedTask | unsafeUnlock =>
    simp only [park, hp, some.injEq] at h
    subst h
    exact hk
  | blocked => simp [park, hp] at h

/-- What every run keeps, however far the counter goes. -/
structure Consistent (s : State Unparker) : Prop where
  located : Located s
  attended : Attended s
  seen : Seen s

theorem initial_consistent (h : Initial s) : Consistent s := by
  refine ⟨located_initial h, ?_, ?_⟩
  · rcases h with rfl | rfl <;> simp [Attended, empty, withParkedTask]
  · rcases h with rfl | rfl <;> simp [Seen, empty, withParkedTask]

theorem initial_kept (h : Initial s) : Kept s := by
  rcases h with rfl | rfl <;> simp [Kept, empty, withParkedTask]

/-- A parked task with the lock free has no attempt that nobody will act on. -/
def NoLostAttempt (s : State Unparker) : Prop :=
  s.parkedTask = true → s.lock = none → s.unparkAttempts ≠ 0 → ∃ u, s.unpark u = .lock

open UnparkPc

theorem Consistent.noLostAttempt (h : Consistent s) : NoLostAttempt s := by
  intro hp hfree hattempts
  obtain ⟨u, hu⟩ := h.seen hattempts (.inr hp)
  refine ⟨u, ?_⟩
  cases hpc : s.unpark u with
  | lock => rfl
  | takeParkedTask =>
    have hheld := (h.located.unparker_holds u).mpr (by simp [hpc, UnparkPc.holdsLock])
    rw [hfree] at hheld
    cases hheld
  | _ => simp [hpc, looking] at hu

/-- The counter does not wrap to zero. -/
def Counted (s : State Unparker) : Label Unparker → Prop
  | .unpark _ => s.unparkAttempts + 1 < 2 ^ 64
  | _ => True

variable [DecidableEq Unparker]

theorem unpark_located_waking (hl : Located s) (hu : (s.unpark u).waking = true)
    (h : unpark s u = some s') : Located s' := by
  cases hpc : s.unpark u with
  | resetAttempts | unlockParked | wakeFromBlocked =>
    simp only [unpark, hpc, some.injEq] at h
    subst h
    constructor <;> grind
  | _ => simp [hpc, UnparkPc.waking] at hu

theorem unpark_located_takeParkedTask (hl : Located s) (hu : s.unpark u = .takeParkedTask)
    (h : unpark s u = some s') : Located s' := by
  simp only [unpark, hu] at h
  split at h <;> cases h <;> constructor <;> grind

theorem unpark_located (hl : Located s) (h : unpark s u = some s') : Located s' := by
  cases hu : s.unpark u with
  | idle | unlock =>
    simp only [unpark, hu, some.injEq] at h
    subst h
    constructor <;> grind
  | lock =>
    cases hlock : s.lock <;> simp only [unpark, hu, hlock, some.injEq, reduceCtorEq] at h
    subst h
    constructor <;> grind
  | takeParkedTask => exact unpark_located_takeParkedTask hl hu h
  | resetAttempts | unlockParked | wakeFromBlocked =>
    exact unpark_located_waking hl (by simp [hu, UnparkPc.waking]) h

variable {positions : Unparker → UnparkPc} {p : UnparkPc → Bool} {pc : UnparkPc}

/-- A step of one unparker keeps what another one is about to do. -/
theorem exists_update (h : ∃ v, p (positions v) = true)
    (hu : p (positions u) = true → p pc = true) : ∃ v, p (update positions u pc v) = true := by
  obtain ⟨v, hv⟩ := h
  by_cases hvu : v = u
  · subst hvu
    exact ⟨v, by rw [update_self]; exact hu hv⟩
  · exact ⟨v, by rw [update_of_ne hvu]; exact hv⟩

theorem exists_update_self (h : p pc = true) : ∃ v, p (update positions u pc v) = true :=
  ⟨u, by rw [update_self]; exact h⟩

theorem unpark_attended (ha : Attended s) (h : unpark s u = some s') : Attended s' := by
  cases hu : s.unpark u with
  | idle | unlock =>
    simp only [unpark, hu, some.injEq] at h
    subst h
    exact fun hb => (ha hb).imp_right (exists_update · (by simp [hu, UnparkPc.waking]))
  | lock =>
    cases hlock : s.lock <;> simp only [unpark, hu, hlock, some.injEq, reduceCtorEq] at h
    subst h
    exact fun hb => (ha hb).imp_right (exists_update · (by simp [hu, UnparkPc.waking]))
  | takeParkedTask =>
    simp only [unpark, hu] at h
    split at h
    · cases h
      exact fun _ => .inr (exists_update_self rfl)
    · cases h
      exact fun hb => (ha hb).imp_right (exists_update · (by simp [hu, UnparkPc.waking]))
  | resetAttempts | unlockParked =>
    simp only [unpark, hu, some.injEq] at h
    subst h
    exact fun _ => .inr (exists_update_self rfl)
  | wakeFromBlocked =>
    simp only [unpark, hu, some.injEq] at h
    subst h
    simp [Attended]

theorem unpark_seen (hl : Located s) (hs : Seen s) (h : unpark s u = some s') : Seen s' := by
  have hcommitted : s.park.committed = true → s.park.holdsLock = true := by
    cases s.park <;> simp [ParkPc.committed, ParkPc.holdsLock]
  cases hu : s.unpark u with
  | idle =>
    simp only [unpark, hu, some.injEq] at h
    subst h
    intro hattempts hparked
    by_cases hz : s.unparkAttempts = 0
    · exact exists_update_self (by simp [hz, looking])
    · exact exists_update (hs hz hparked) (by simp [hu, looking])
  | lock =>
    cases hlock : s.lock <;> simp only [unpark, hu, hlock, some.injEq, reduceCtorEq] at h
    subst h
    exact fun _ _ => exists_update_self rfl
  | takeParkedTask =>
    -- the unparker has the lock, so the task is not between its checks and its block
    have hfree : s.park.committed = false := by
      have hheld := (hl.unparker_holds u).mpr (by simp [hu, UnparkPc.holdsLock])
      rw [← Bool.not_eq_true]
      intro hc
      rw [hl.parker_holds.mpr (hcommitted hc)] at hheld
      simp at hheld
    simp only [unpark, hu] at h
    split at h
    · cases h
      simp [Seen, hfree]
    · cases h
      simp_all [Seen]
  | unlock =>
    simp only [unpark, hu, some.injEq] at h
    subst h
    exact fun hattempts hparked => exists_update (hs hattempts hparked)
      (by simp [hu, looking])
  | resetAttempts =>
    simp only [unpark, hu, some.injEq] at h
    subst h
    simp [Seen]
  | unlockParked | wakeFromBlocked =>
    obtain ⟨hb, hp⟩ := hl.waking_blocked u (by simp [hu, UnparkPc.waking])
    simp only [unpark, hu, some.injEq] at h
    subst h
    simp [Seen, hb, hp, ParkPc.committed]

instance (s : State Unparker) (l : Label Unparker) : Decidable (Counted s l) :=
  match l with
  | .unpark _ => inferInstanceAs (Decidable (_ < _))
  | .park | .proceedPark | .proceedUnpark _ => inferInstanceAs (Decidable True)

theorem unpark_kept (hk : Kept s) (hc : s.unpark u = .idle → s.unparkAttempts + 1 < 2 ^ 64)
    (h : unpark s u = some s') : Kept s' := by
  cases hu : s.unpark u with
  | idle =>
    simp only [unpark, hu, some.injEq] at h
    subst h
    intro _
    have hlt := hc hu
    have hne : (s.unparkAttempts + 1) % 2 ^ 64 ≠ 0 := by
      rw [Nat.mod_eq_of_lt hlt]
      exact Nat.succ_ne_zero _
    exact .inl hne
  | lock =>
    cases hlock : s.lock <;> simp only [unpark, hu, hlock, some.injEq, reduceCtorEq] at h
    subst h
    exact fun ho => (hk ho).imp_right (exists_update · (by simp [hu, consumed]))
  | takeParkedTask =>
    simp only [unpark, hu] at h
    split at h <;> cases h <;>
      exact fun ho => (hk ho).imp_right (exists_update · (by simp [hu, consumed]))
  | unlock =>
    simp only [unpark, hu, some.injEq] at h
    subst h
    exact fun ho => (hk ho).imp_right (exists_update · (by simp [hu, consumed]))
  | resetAttempts | unlockParked =>
    simp only [unpark, hu, some.injEq] at h
    subst h
    exact fun _ => .inr (exists_update_self rfl)
  | wakeFromBlocked =>
    simp only [unpark, hu, some.injEq] at h
    subst h
    simp [Kept]

/-! ### Runs -/

theorem next_cases (h : next s l = some s') :
    park s = some s' ∨ ∃ u, unpark s u = some s' ∧ (s.unpark u = .idle → l = .unpark u) := by
  cases l with
  | park =>
    simp only [next] at h
    split at h
    · exact .inl h
    · cases h
  | proceedPark =>
    simp only [next] at h
    split at h
    · cases h
    · exact .inl h
  | unpark u =>
    simp only [next] at h
    split at h
    · exact .inr ⟨u, h, fun _ => rfl⟩
    · cases h
  | proceedUnpark u =>
    simp only [next] at h
    split at h
    · cases h
    next hu => exact .inr ⟨u, h, fun hidle => absurd hidle hu⟩

theorem next_consistent (hc : Consistent s) (h : next s l = some s') : Consistent s' := by
  obtain hpark | ⟨u, hunpark, -⟩ := next_cases h
  · exact ⟨park_located hc.located hpark, park_attended hc.located hpark,
      park_seen hc.located hc.seen hpark⟩
  · exact ⟨unpark_located hc.located hunpark, unpark_attended hc.attended hunpark,
      unpark_seen hc.located hc.seen hunpark⟩

theorem next_kept (hk : Kept s) (hc : Counted s l) (h : next s l = some s') : Kept s' := by
  obtain hpark | ⟨u, hunpark, hl⟩ := next_cases h
  · exact park_kept hk hpark
  · refine unpark_kept hk (fun hidle => ?_) hunpark
    rw [hl hidle] at hc
    exact hc

theorem reachable_consistent {allowed : State Unparker → Label Unparker → Prop}
    (h : (system Unparker).Reachable allowed s) : Consistent s :=
  @System.Reachable.invariant _ _ (system Unparker) allowed Consistent
    (fun _ => initial_consistent) (fun _ _ _ hc _ => next_consistent hc) s h

theorem reachable_kept (h : (system Unparker).Reachable Counted s) : Kept s :=
  @System.Reachable.invariant _ _ (system Unparker) Counted Kept
    (fun _ => initial_kept) (fun _ _ _ => next_kept) s h

/-! ### No lost wakeups -/

/-- The unparks that have begun wake the task if they go on. -/
def WokenBy (s : State Unparker) (us : List Unparker) : Prop :=
  ∃ s', System.runNext next s (us.map .proceedUnpark) = some s' ∧ s'.park = .running

/-- A task that was owed an unpark is not blocked for ever. -/
def NotForever (s : State Unparker) : Prop :=
  s.owed = true → s.park = .blocked → ∃ us, WokenBy s us

theorem WokenBy.step (hu : s.unpark u ≠ .idle) (h : unpark s u = some s') (hw : WokenBy s' us) :
    WokenBy s (u :: us) := by
  obtain ⟨t, hrun, ht⟩ := hw
  refine ⟨t, ?_, ht⟩
  simp only [List.map_cons, runNext, next, if_neg hu, h, bind_some]
  exact hrun

theorem wokenBy_of_wakeFromBlocked (hu : s.unpark u = .wakeFromBlocked) : WokenBy s [u] := by
  refine .step (by simp [hu]) (by simp only [unpark, hu]; rfl) ?_
  exact ⟨_, rfl, rfl⟩

theorem wokenBy_of_unlockParked (hu : s.unpark u = .unlockParked) : WokenBy s [u, u] := by
  refine .step (by simp [hu]) (by simp only [unpark, hu]; rfl) ?_
  exact wokenBy_of_wakeFromBlocked (update_self ..)

theorem wokenBy_of_resetAttempts (hu : s.unpark u = .resetAttempts) : WokenBy s [u, u, u] := by
  refine .step (by simp [hu]) (by simp only [unpark, hu]; rfl) ?_
  exact wokenBy_of_unlockParked (update_self ..)

theorem wokenBy_of_waking (hu : (s.unpark u).waking = true) : ∃ us, WokenBy s us := by
  cases hpc : s.unpark u with
  | resetAttempts => exact ⟨_, wokenBy_of_resetAttempts hpc⟩
  | unlockParked => exact ⟨_, wokenBy_of_unlockParked hpc⟩
  | wakeFromBlocked => exact ⟨_, wokenBy_of_wakeFromBlocked hpc⟩
  | _ => simp [hpc, UnparkPc.waking] at hu

theorem wokenBy_of_takeParkedTask (hu : s.unpark u = .takeParkedTask) (hp : s.parkedTask = true) :
    WokenBy s [u, u, u, u] := by
  refine .step (by simp [hu]) (by simp only [unpark, hu, hp, if_true]; rfl) ?_
  exact wokenBy_of_resetAttempts (update_self ..)

theorem wokenBy_of_lock (hu : s.unpark u = .lock) (hp : s.parkedTask = true)
    (hfree : s.lock = none) : WokenBy s [u, u, u, u, u] := by
  refine .step (by simp [hu]) (by simp only [unpark, hu, hfree]; rfl) ?_
  exact wokenBy_of_takeParkedTask (update_self ..) hp

/-- An unparker waits at most for the section of another one. -/
theorem Consistent.wokenBy_of_looking (h : Consistent s) (hu : (s.unpark u).looking = true)
    (hb : s.park = .blocked) (hp : s.parkedTask = true) : ∃ us, WokenBy s us := by
  cases hpc : s.unpark u with
  | takeParkedTask => exact ⟨_, wokenBy_of_takeParkedTask hpc hp⟩
  | lock =>
    cases hlock : s.lock with
    | none => exact ⟨_, wokenBy_of_lock hpc hp hlock⟩
    | some holder =>
      cases holder with
      | parker =>
        have hholds := h.located.parker_holds.mp hlock
        simp [hb, ParkPc.holdsLock] at hholds
      | unparker v =>
        have hholds := (h.located.unparker_holds v).mp hlock
        have hvu : u ≠ v := by
          rintro rfl
          simp [hpc, UnparkPc.holdsLock] at hholds
        cases hv : s.unpark v with
        | takeParkedTask => exact ⟨_, wokenBy_of_takeParkedTask hv hp⟩
        | unlock =>
          refine ⟨[v, u, u, u, u, u], .step (by simp [hv])
            (by simp only [unpark, hv]; rfl) ?_⟩
          exact wokenBy_of_lock ((update_of_ne hvu ..).trans hpc) hp rfl
        | resetAttempts => exact ⟨_, wokenBy_of_resetAttempts hv⟩
        | unlockParked => exact ⟨_, wokenBy_of_unlockParked hv⟩
        | _ => simp [hv, UnparkPc.holdsLock] at hholds
  | _ => simp [hpc, looking] at hu

theorem Consistent.notForever (h : Consistent s) (hk : Kept s) : NotForever s := by
  intro ho hb
  rcases h.attended hb with hp | ⟨u, hu⟩
  · rcases hk ho with hattempts | ⟨u, hu⟩
    · obtain ⟨u, hu⟩ := h.seen hattempts (.inr hp)
      exact h.wokenBy_of_looking hu hb hp
    · refine wokenBy_of_waking (u := u) ?_
      cases hpc : s.unpark u <;> simp_all [consumed, UnparkPc.waking]
  · exact wokenBy_of_waking hu

/-- The task is never lost by the parker and is woken at most once for each block. -/
structure WakesRight (s : State Unparker) : Prop where
  no_lost_attempt : NoLostAttempt s
  wakes_le : s.wakes ≤ 1
  not_forever : NotForever s

/-- No wakeup is lost in a run in which the attempts never wrap. -/
theorem no_lost_wakeups (Unparker : Type) [DecidableEq Unparker] (s : State Unparker)
    (h : (system Unparker).Reachable Counted s) : WakesRight s := by
  have hc := reachable_consistent h
  exact ⟨hc.noLostAttempt, hc.located.wakes_le, hc.notForever (reachable_kept h)⟩

/-- Two unparks that overlap a park: the second one is counted while the first wakes the task. -/
theorem no_lost_wakeups_overlapping : ∃ s : State Bool,
    (system Bool).Reachable Counted s ∧ s.wakes = 1 ∧ s.unparkAttempts = 1 ∧ WakesRight s := by
  have hrun : (runNext (restrict Counted next) (empty : State Bool)
      [.park, .proceedPark, .proceedPark, .proceedPark, .proceedPark, .proceedPark,
        .unpark true, .proceedUnpark true, .proceedUnpark true, .proceedUnpark true,
        .unpark false, .proceedUnpark true, .proceedUnpark true]).map
      (fun s => (s.wakes, s.unparkAttempts)) = some (1, 1) := by decide
  obtain ⟨s, hs, h⟩ := map_eq_some_iff.mp hrun
  have hr : (system Bool).Reachable Counted s :=
    restrict_reachable _ (.init (.inl rfl)) hs
  rw [Prod.mk.injEq] at h
  exact ⟨s, hr, h.1, h.2, no_lost_wakeups Bool s hr⟩

end Innigkeit.Sync.Parker

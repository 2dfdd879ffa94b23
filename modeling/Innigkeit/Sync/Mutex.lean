import Innigkeit.Library.Transition

/-!
The sleeping mutex. Every atomic operation on `locked_by`, every access to
`unlock_type` and every operation on the spinlock and on the wait queue is one
step of one task, and the steps of any number of tasks interleave freely. A
position is named after what the task does next. `parkedOrder`, `obtainedOrder`
and `handed` are no part of the source: the first two record in which order tasks
parked in the wait queue and in which order such tasks returned from `lock`, the
last is the task that was popped from the queue and has not returned yet.
-/

namespace Innigkeit.Sync.Mutex

open Function Transition Option

inductive UnlockType where
  | passedToWaiter
  | unlocked
  deriving DecidableEq, Repr

inductive Pc (Task : Type) where
  | idle
  | holding
  -- lock
  | exchangeWeak
  | passed
  | spinlockLock
  | exchangeStrong
  | strongPassed
  | spinlockUnlock
  -- the wait, and the block action that ends it
  | append
  | unsafeUnlock
  | parked
  -- unlock
  | unlockSpinlockLock
  | pop
  | setUnlockType (waiter : Option Task)
  | exchangeOwner (waiter : Option Task)
  | wakeFromBlocked (waiter : Task)
  | unlockSpinlockUnlock
  deriving DecidableEq, Repr

inductive Action where
  | lock
  | tryLock
  | unlock
  | proceed
  -- a weak exchange that fails although the value is the expected one
  | failSpuriously
  deriving DecidableEq, Repr

structure State (Task : Type) where
  lockedBy : Option Task := none
  unlockType : UnlockType := .unlocked
  spinlock : Option Task := none
  waitQueue : List Task := []
  pc : Task → Pc Task := fun _ => .idle
  panicked : Bool := false
  parkedOrder : List Task := []
  obtainedOrder : List Task := []
  handed : Option Task := none

variable {Task : Type}

section

variable [DecidableEq Task]

def State.goto (s : State Task) (t : Task) (pc : Pc Task) : State Task :=
  { s with pc := update s.pc t pc }

/-- A mutex that was passed to the task, or a recursive lock. -/
def State.takePassed (s : State Task) (t : Task) (pc : Pc Task) : State Task :=
  match s.unlockType with
  | .passedToWaiter =>
    { s.goto t pc with obtainedOrder := s.obtainedOrder ++ [t], handed := none }
  | .unlocked => { s with panicked := true }

/-- One of the two exchanges of `lock`, from `null` to the task. -/
def State.exchange (s : State Task) (t : Task) (fails : Bool) (owned received contended : Pc Task) :
    State Task :=
  if s.lockedBy = none ∧ fails = false then { s.goto t owned with lockedBy := some t }
  else if s.lockedBy = some t then s.goto t received
  else s.goto t contended

def proceed (s : State Task) (t : Task) : Option (State Task) :=
  match s.pc t with
  | .idle | .holding | .parked => none
  | .exchangeWeak => some (s.exchange t false .holding .passed .spinlockLock)
  | .passed => some (s.takePassed t .holding)
  | .spinlockLock =>
    if s.spinlock = none then some { s.goto t .exchangeStrong with spinlock := some t } else none
  | .exchangeStrong => some (s.exchange t false .spinlockUnlock .strongPassed .append)
  | .strongPassed => some (s.takePassed t .spinlockUnlock)
  | .spinlockUnlock => some { s.goto t .holding with spinlock := none }
  | .append => some { s.goto t .unsafeUnlock with
      waitQueue := s.waitQueue ++ [t], parkedOrder := s.parkedOrder ++ [t] }
  | .unsafeUnlock => some { s.goto t .parked with spinlock := none }
  | .unlockSpinlockLock =>
    if s.spinlock = none then some { s.goto t .pop with spinlock := some t } else none
  | .pop =>
    match s.waitQueue with
    | [] => some (s.goto t (.setUnlockType none))
    | waiter :: rest => some { s.goto t (.setUnlockType (some waiter)) with
        waitQueue := rest, handed := some waiter }
  | .setUnlockType none => some { s.goto t (.exchangeOwner none) with unlockType := .unlocked }
  | .setUnlockType (some waiter) =>
    some { s.goto t (.exchangeOwner (some waiter)) with unlockType := .passedToWaiter }
  | .exchangeOwner waiter =>
    if s.lockedBy = some t then
      match waiter with
      | none => some { s.goto t .unlockSpinlockUnlock with lockedBy := none }
      | some waiter => some { s.goto t (.wakeFromBlocked waiter) with lockedBy := some waiter }
    else some { s with panicked := true }
  | .wakeFromBlocked waiter =>
    if s.pc waiter = .parked then
      some ((s.goto waiter .exchangeWeak).goto t .unlockSpinlockUnlock)
    else some { s with panicked := true }
  | .unlockSpinlockUnlock => some { s.goto t .idle with spinlock := none }

def tryLock (s : State Task) (t : Task) : State Task :=
  if s.lockedBy = none then { s.goto t .holding with lockedBy := some t }
  else if s.lockedBy = some t then { s with panicked := true }
  else s

/-- A step of a task. It locks a mutex only when it does not hold it, and unlocks it only when
it does. -/
def next (s : State Task) : Task × Action → Option (State Task)
  | (t, .lock) => if s.pc t = .idle then some (s.goto t .exchangeWeak) else none
  | (t, .tryLock) => if s.pc t = .idle then some (tryLock s t) else none
  | (t, .unlock) => if s.pc t = .holding then some (s.goto t .unlockSpinlockLock) else none
  | (t, .proceed) => proceed s t
  | (t, .failSpuriously) =>
    if s.pc t = .exchangeWeak then some (s.exchange t true .holding .passed .spinlockLock)
    else none

def Initial (s : State Task) : Prop := s = {}

def system (Task : Type) [DecidableEq Task] : System (State Task) (Task × Action) :=
  System.ofNext Initial next

end

/-! ### What the positions mean -/

namespace Pc

/-- The task has the mutex and has not given it up in `unlock`. -/
def owns : Pc Task → Bool
  | .holding | .spinlockUnlock | .unlockSpinlockLock | .pop | .setUnlockType _
  | .exchangeOwner _ => true
  | _ => false

def holdsSpinlock : Pc Task → Bool
  | .exchangeStrong | .strongPassed | .spinlockUnlock | .append | .unsafeUnlock | .pop
  | .setUnlockType _ | .exchangeOwner _ | .wakeFromBlocked _ | .unlockSpinlockUnlock => true
  | _ => false

/-- Where a task can be to which the mutex was passed. -/
def receives : Pc Task → Bool
  | .parked | .exchangeWeak | .passed => true
  | _ => false

/-- The waiter that an unlock has popped and not made the owner yet. -/
def popped : Pc Task → Option Task
  | .setUnlockType waiter | .exchangeOwner waiter => waiter
  | _ => none

def foundEmpty : Pc Task → Bool
  | .setUnlockType none | .exchangeOwner none => true
  | _ => false

end Pc

structure Valid (s : State Task) : Prop where
  no_panic : s.panicked = false
  owner : ∀ t, (s.pc t).owns = true → s.lockedBy = some t
  owner_position : ∀ t, s.lockedBy = some t → (s.pc t).owns = true ∨ (s.pc t).receives = true
  passed_type : ∀ t, s.lockedBy = some t → (s.pc t).receives = true →
    s.unlockType = .passedToWaiter ∧ s.handed = some t
  passed_owner : ∀ t, s.pc t = .passed → s.lockedBy = some t
  not_strong : ∀ t, s.pc t ≠ .strongPassed
  spinlock_holder : ∀ t, s.spinlock = some t ↔ (s.pc t).holdsSpinlock = true
  queued : ∀ t ∈ s.waitQueue, s.pc t = .unsafeUnlock ∨ s.pc t = .parked
  queued_appended : ∀ t, s.pc t = .unsafeUnlock → t ∈ s.waitQueue
  queue_nodup : s.waitQueue.Nodup
  queued_not_owner : ∀ t ∈ s.waitQueue, s.lockedBy ≠ some t
  queue_owned : s.lockedBy = none → s.waitQueue = []
  append_owned : ∀ t, s.pc t = .append → s.lockedBy ≠ none
  found_empty : ∀ t, (s.pc t).foundEmpty = true → s.waitQueue = []
  popped_waits : ∀ t w, (s.pc t).popped = some w →
    s.pc w = .parked ∧ w ∉ s.waitQueue ∧ s.handed = some w
  type_set : ∀ t w, s.pc t = .exchangeOwner (some w) → s.unlockType = .passedToWaiter
  waking : ∀ t w, s.pc t = .wakeFromBlocked w → s.pc w = .parked ∧ s.lockedBy = some w
  handed_owned : s.lockedBy = none → s.handed = none
  handed_position : ∀ w t, s.handed = some w → s.lockedBy = some t →
    (t = w ∧ (s.pc t).receives = true) ∨ (s.pc t).popped = some w
  in_order : s.parkedOrder = s.obtainedOrder ++ s.handed.toList ++ s.waitQueue

open Pc

theorem initial_valid {s : State Task} (h : Initial s) : Valid s := by
  subst h
  constructor <;> simp [owns, holdsSpinlock, foundEmpty, popped]

/-! ### One step of one task -/

variable {s : State Task} {t : Task}

theorem Valid.foundEmpty_spinlock (hv : Valid s) (h : (s.pc t).foundEmpty = true) :
    s.spinlock = some t := by
  rw [hv.spinlock_holder]
  cases hpc : s.pc t <;> simp_all [foundEmpty, holdsSpinlock]

variable {w : Task} {pc : Pc Task}

theorem Valid.popped_spinlock (hv : Valid s) (h : (s.pc t).popped = some w) :
    s.spinlock = some t ∧ s.lockedBy = some t := by
  refine ⟨(hv.spinlock_holder t).mpr ?_, hv.owner t ?_⟩ <;>
    cases hpc : s.pc t <;> simp_all [popped, holdsSpinlock, owns]

/-- Nobody is on its way to the mutex while its owner holds it and has popped no waiter. -/
theorem Valid.handed_none (hv : Valid s) (howns : (s.pc t).owns = true)
    (hpopped : (s.pc t).popped = none) : s.handed = none := by
  cases hh : s.handed with
  | none => rfl
  | some w =>
    rcases hv.handed_position w t hh (hv.owner t howns) with ⟨-, hreceives⟩ | hw
    · cases hpc : s.pc t <;> simp_all [owns, receives]
    · rw [hpopped] at hw
      cases hw

theorem Valid.not_queued (hv : Valid s) (h : s.pc t ≠ .unsafeUnlock ∧ s.pc t ≠ .parked) :
    t ∉ s.waitQueue :=
  fun hmem => (hv.queued t hmem).elim h.1 h.2

variable [DecidableEq Task]

attribute [local grind cases] Valid

attribute [local grind =] Pc.owns Pc.holdsSpinlock Pc.receives Pc.foundEmpty Pc.popped update_apply

/-- What a position asks of the state when a task comes to it that has popped no waiter. -/
structure Fits (s : State Task) (t : Task) (pc : Pc Task) : Prop where
  owner : pc.owns = true → s.lockedBy = some t
  owner_position : s.lockedBy = some t → pc.owns = true ∨ pc.receives = true
  receives : s.lockedBy = some t → (pc.receives = (s.pc t).receives)
  passed : pc = .passed → s.lockedBy = some t
  not_strong : pc ≠ .strongPassed
  queued : t ∈ s.waitQueue → pc = .unsafeUnlock ∨ pc = .parked
  appended : pc = .unsafeUnlock → t ∈ s.waitQueue
  append_owned : pc = .append → s.lockedBy ≠ none
  found_empty : pc.foundEmpty = true → s.waitQueue = []
  parked : s.pc t = .parked → pc = .parked
  popped : pc.popped = none ∧ (s.pc t).popped = none
  not_passing : ∀ w, pc ≠ .exchangeOwner (some w) ∧ pc ≠ .wakeFromBlocked w

open State

section

variable (hv : Valid s)
include hv

/-- A step that moves one task and at most takes or frees the spinlock. -/
theorem move_valid {spinlock : Option Task} (hfits : Fits s t pc)
    (hspinlock : ∀ u, spinlock = some u ↔ (update s.pc t pc u).holdsSpinlock = true) :
    Valid { s.goto t pc with spinlock } where
  no_panic := hv.no_panic
  owner u hu := by
    by_cases hut : u = t
    · subst hut
      exact hfits.owner (by simpa [goto] using hu)
    · exact hv.owner u (by simpa [goto, hut] using hu)
  owner_position u hu := by
    by_cases hut : u = t
    · subst hut
      simpa [goto] using hfits.owner_position hu
    · simpa [goto, hut] using hv.owner_position u hu
  passed_type u hu hr := by
    by_cases hut : u = t
    · subst hut
      refine hv.passed_type u hu ?_
      rw [← hfits.receives hu]
      simpa [goto] using hr
    · exact hv.passed_type u hu (by simpa [goto, hut] using hr)
  passed_owner u hu := by
    by_cases hut : u = t
    · subst hut
      exact hfits.passed (by simpa [goto] using hu)
    · exact hv.passed_owner u (by simpa [goto, hut] using hu)
  not_strong u := by
    by_cases hut : u = t
    · subst hut
      simpa [goto] using hfits.not_strong
    · simpa [goto, hut] using hv.not_strong u
  spinlock_holder := hspinlock
  queued u hu := by
    by_cases hut : u = t
    · subst hut
      simpa [goto] using hfits.queued hu
    · simpa [goto, hut] using hv.queued u hu
  queued_appended u hu := by
    by_cases hut : u = t
    · subst hut
      exact hfits.appended (by simpa [goto] using hu)
    · exact hv.queued_appended u (by simpa [goto, hut] using hu)
  queue_nodup := hv.queue_nodup
  queued_not_owner := hv.queued_not_owner
  queue_owned := hv.queue_owned
  append_owned u hu := by
    by_cases hut : u = t
    · subst hut
      exact hfits.append_owned (by simpa [goto] using hu)
    · exact hv.append_owned u (by simpa [goto, hut] using hu)
  found_empty u hu := by
    by_cases hut : u = t
    · subst hut
      exact hfits.found_empty (by simpa [goto] using hu)
    · exact hv.found_empty u (by simpa [goto, hut] using hu)
  popped_waits u w hu := by
    by_cases hut : u = t
    · subst hut
      simp [goto, hfits.popped.1] at hu
    · obtain ⟨hparked, hrest⟩ := hv.popped_waits u w (by simpa [goto, hut] using hu)
      refine ⟨?_, hrest⟩
      by_cases hwt : w = t
      · subst hwt
        simpa [goto] using hfits.parked hparked
      · simpa [goto, hwt] using hparked
  type_set u w hu := by
    by_cases hut : u = t
    · subst hut
      exact absurd (by simpa [goto] using hu) (hfits.not_passing w).1
    · exact hv.type_set u w (by simpa [goto, hut] using hu)
  waking u w hu := by
    by_cases hut : u = t
    · subst hut
      exact absurd (by simpa [goto] using hu) (hfits.not_passing w).2
    · obtain ⟨hparked, howner⟩ := hv.waking u w (by simpa [goto, hut] using hu)
      refine ⟨?_, howner⟩
      by_cases hwt : w = t
      · subst hwt
        simpa [goto] using hfits.parked hparked
      · simpa [goto, hwt] using hparked
  handed_owned := hv.handed_owned
  handed_position w u hw hu := by
    by_cases hut : u = t
    · subst hut
      rcases hv.handed_position w u hw hu with ⟨heq, hr⟩ | hpopped
      · refine .inl ⟨heq, ?_⟩
        rw [← hfits.receives hu] at hr
        simpa [goto] using hr
      · rw [hfits.popped.2] at hpopped
        cases hpopped
    · simpa [goto, hut] using hv.handed_position w u hw hu
  in_order := hv.in_order

/-- The spinlock stays with its holder when the task keeps or lacks it in both positions. -/
theorem Valid.spinlock_goto (h : pc.holdsSpinlock = (s.pc t).holdsSpinlock)
    (u : Task) : s.spinlock = some u ↔ (update s.pc t pc u).holdsSpinlock = true := by
  rw [hv.spinlock_holder]
  by_cases hut : u = t
  · subst hut
    rw [update_self, h]
  · rw [update_of_ne hut]

theorem lock_valid (hpc : s.pc t = .idle) : Valid (s.goto t .exchangeWeak) := by
  have hqueue := hv.not_queued (t := t) (by simp [hpc])
  have howner : s.lockedBy ≠ some t := by
    intro h
    simpa [hpc, owns, receives] using hv.owner_position t h
  refine move_valid hv ?_ (hv.spinlock_goto (by simp [hpc, holdsSpinlock]))
  constructor <;> simp [hpc, hqueue, howner, owns, foundEmpty, popped]

theorem unlock_valid (hpc : s.pc t = .holding) : Valid (s.goto t .unlockSpinlockLock) := by
  have hqueue := hv.not_queued (t := t) (by simp [hpc])
  have howner := hv.owner t (by simp [hpc, owns])
  refine move_valid hv ?_ (hv.spinlock_goto (by simp [hpc, holdsSpinlock]))
  constructor <;> simp [hpc, hqueue, howner, owns, receives, foundEmpty, popped]

theorem acquired_valid (hpc : s.pc t = .idle ∧ pc = .holding ∨ s.pc t = .exchangeWeak ∧
      pc = .holding ∨ s.pc t = .exchangeStrong ∧ pc = .spinlockUnlock)
    (hfree : s.lockedBy = none) : Valid { s.goto t pc with lockedBy := some t } := by
  unfold goto
  constructor <;> grind

theorem received_valid (hpc : s.pc t = .exchangeWeak)
    (howner : s.lockedBy = some t) : Valid (s.goto t .passed) := by
  have hqueue := hv.not_queued (t := t) (by simp [hpc])
  refine move_valid hv ?_ (hv.spinlock_goto (by simp [hpc, holdsSpinlock]))
  constructor <;> simp [hpc, hqueue, howner, owns, receives, foundEmpty, popped]

theorem contended_valid
    (hpc : s.pc t = .exchangeWeak ∧ pc = .spinlockLock ∨ s.pc t = .exchangeStrong ∧
      pc = .append ∧ s.lockedBy ≠ none)
    (howner : s.lockedBy ≠ some t) : Valid (s.goto t pc) := by
  have hqueue := hv.not_queued (t := t) (by rcases hpc with ⟨hpc, -⟩ | ⟨hpc, -⟩ <;> simp [hpc])
  rcases hpc with ⟨hpc, rfl⟩ | ⟨hpc, rfl, hheld⟩
  · refine move_valid hv ?_ (hv.spinlock_goto (by simp [hpc, holdsSpinlock]))
    constructor <;> simp [hpc, hqueue, howner, owns, foundEmpty, popped]
  · refine move_valid hv ?_ (hv.spinlock_goto (by simp [hpc, holdsSpinlock]))
    constructor <;> simp [hpc, hqueue, howner, hheld, owns, foundEmpty, popped]

theorem takePassed_valid (hpc : s.pc t = .passed) : Valid (s.takePassed t .holding) := by
  have howner := hv.passed_owner t hpc
  obtain ⟨htype, hhanded⟩ := hv.passed_type t howner (by simp [hpc, receives])
  have horder := hv.in_order
  rw [hhanded] at horder
  simp only [takePassed, htype]
  unfold goto
  constructor <;> grind

theorem spinlockLock_valid
    (hpc : s.pc t = .spinlockLock ∧ pc = .exchangeStrong ∨ s.pc t = .unlockSpinlockLock ∧ pc = .pop)
    (hfree : s.spinlock = none) : Valid { s.goto t pc with spinlock := some t } := by
  have hqueue := hv.not_queued (t := t) (by rcases hpc with ⟨hpc, -⟩ | ⟨hpc, -⟩ <;> simp [hpc])
  have hholder (u : Task) : (s.pc u).holdsSpinlock = false := by
    rw [← Bool.not_eq_true, ← hv.spinlock_holder, hfree]
    simp
  have hspinlock (h : pc.holdsSpinlock = true) (u : Task) :
      some t = some u ↔ (update s.pc t pc u).holdsSpinlock = true := by
    by_cases hut : u = t
    · subst hut
      simp [h]
    · simp [update_of_ne hut, hholder, Ne.symm hut]
  rcases hpc with ⟨hpc, rfl⟩ | ⟨hpc, rfl⟩
  · have howner : s.lockedBy ≠ some t := by
      intro h
      simpa [hpc, owns, receives] using hv.owner_position t h
    refine move_valid hv ?_ (hspinlock rfl)
    constructor <;> simp [hpc, hqueue, howner, owns, foundEmpty, popped]
  · have howner := hv.owner t (by simp [hpc, owns])
    refine move_valid hv ?_ (hspinlock rfl)
    constructor <;> simp [hpc, hqueue, howner, owns, receives, foundEmpty, popped]

theorem spinlockUnlock_valid
    (hpc : s.pc t = .spinlockUnlock ∧ pc = .holding ∨ s.pc t = .unsafeUnlock ∧
      pc = .parked ∨ s.pc t = .unlockSpinlockUnlock ∧ pc = .idle) :
    Valid { s.goto t pc with spinlock := none } := by
  unfold goto
  constructor <;> grind

theorem append_valid (hpc : s.pc t = .append) :
    Valid { s.goto t .unsafeUnlock with
      waitQueue := s.waitQueue ++ [t], parkedOrder := s.parkedOrder ++ [t] } := by
  have hempty := fun t => hv.foundEmpty_spinlock (t := t)
  have hpopped := fun t w => hv.popped_spinlock (t := t) (w := w)
  unfold goto
  constructor <;> grind

theorem pop_empty_valid (hpc : s.pc t = .pop) (hq : s.waitQueue = []) :
    Valid (s.goto t (.setUnlockType none)) := by
  have howner := hv.owner t (by simp [hpc, owns])
  refine move_valid hv ?_ (hv.spinlock_goto (by simp [hpc, holdsSpinlock]))
  constructor <;> simp [hpc, hq, howner, owns, receives, popped]

theorem pop_valid (hpc : s.pc t = .pop) {rest : List Task} (hq : s.waitQueue = w :: rest) :
    Valid { s.goto t (.setUnlockType (some w)) with waitQueue := rest, handed := some w } := by
  have hnone := hv.handed_none (t := t) (by simp [hpc, owns]) (by simp [hpc, popped])
  have horder := hv.in_order
  rw [hnone, hq] at horder
  unfold goto
  constructor <;> grind

theorem setUnlockType_valid {waiter : Option Task} {type : UnlockType}
    (hpc : s.pc t = .setUnlockType waiter) (htype : ∀ w, waiter = some w → type = .passedToWaiter) :
    Valid { s.goto t (.exchangeOwner waiter) with unlockType := type } := by
  unfold goto
  constructor <;> grind

theorem release_valid (hpc : s.pc t = .exchangeOwner none) :
    Valid { s.goto t .unlockSpinlockUnlock with lockedBy := none } := by
  have hnone := hv.handed_none (t := t) (by simp [hpc, owns]) (by simp [hpc, popped])
  unfold goto
  constructor <;> grind

theorem pass_valid (hpc : s.pc t = .exchangeOwner (some w)) :
    Valid { s.goto t (.wakeFromBlocked w) with lockedBy := some w } := by
  have hpopped := fun t w => hv.popped_spinlock (t := t) (w := w)
  unfold goto
  constructor <;> grind

theorem wake_valid (hpc : s.pc t = .wakeFromBlocked w) :
    Valid ((s.goto w .exchangeWeak).goto t .unlockSpinlockUnlock) := by
  have hpopped := fun t w => hv.popped_spinlock (t := t) (w := w)
  have hspinlock := (hv.spinlock_holder t).mpr (by simp [hpc, holdsSpinlock])
  obtain ⟨hparked, howner⟩ := hv.waking t w hpc
  have hne : w ≠ t := by
    rintro rfl
    rw [hpc] at hparked
    cases hparked
  obtain ⟨htype, hhanded⟩ := hv.passed_type w howner (by simp [hparked, receives])
  unfold goto
  constructor <;> grind

theorem exchange_weak_valid (hpc : s.pc t = .exchangeWeak) (fails : Bool) :
    Valid (s.exchange t fails .holding .passed .spinlockLock) := by
  unfold exchange
  split
  next hfree => exact acquired_valid hv (.inr (.inl ⟨hpc, rfl⟩)) hfree.1
  next =>
    split
    next howner => exact received_valid hv hpc howner
    next howner => exact contended_valid hv (.inl ⟨hpc, rfl⟩) howner

theorem exchange_strong_valid (hpc : s.pc t = .exchangeStrong) :
    Valid (s.exchange t false .spinlockUnlock .strongPassed .append) := by
  unfold exchange
  split
  next hfree => exact acquired_valid hv (.inr (.inr ⟨hpc, rfl⟩)) hfree.1
  next hheld =>
    have howner : s.lockedBy ≠ some t := by
      intro howner
      have hposition := hv.owner_position t howner
      simp [hpc, owns, receives] at hposition
    rw [if_neg howner]
    exact contended_valid hv (.inr ⟨hpc, rfl, by simpa using hheld⟩) howner

theorem proceed_valid {s' : State Task} (h : proceed s t = some s') : Valid s' := by
  cases hpc : s.pc t with
  | idle | holding | parked => simp [proceed, hpc] at h
  | exchangeWeak =>
    simp only [proceed, hpc, some.injEq] at h
    exact h ▸ exchange_weak_valid hv hpc false
  | passed =>
    simp only [proceed, hpc, some.injEq] at h
    exact h ▸ takePassed_valid hv hpc
  | spinlockLock =>
    simp only [proceed, hpc, ite_none_right_eq_some, some.injEq] at h
    exact h.2 ▸ spinlockLock_valid hv (.inl ⟨hpc, rfl⟩) h.1
  | exchangeStrong =>
    simp only [proceed, hpc, some.injEq] at h
    exact h ▸ exchange_strong_valid hv hpc
  | strongPassed => exact absurd hpc (hv.not_strong t)
  | spinlockUnlock =>
    simp only [proceed, hpc, some.injEq] at h
    exact h ▸ spinlockUnlock_valid hv (.inl ⟨hpc, rfl⟩)
  | append =>
    simp only [proceed, hpc, some.injEq] at h
    exact h ▸ append_valid hv hpc
  | unsafeUnlock =>
    simp only [proceed, hpc, some.injEq] at h
    exact h ▸ spinlockUnlock_valid hv (.inr (.inl ⟨hpc, rfl⟩))
  | unlockSpinlockLock =>
    simp only [proceed, hpc, ite_none_right_eq_some, some.injEq] at h
    exact h.2 ▸ spinlockLock_valid hv (.inr ⟨hpc, rfl⟩) h.1
  | pop =>
    cases hq : s.waitQueue with
    | nil =>
      simp only [proceed, hpc, hq, some.injEq] at h
      exact h ▸ pop_empty_valid hv hpc hq
    | cons w rest =>
      simp only [proceed, hpc, hq, some.injEq] at h
      exact h ▸ pop_valid hv hpc hq
  | setUnlockType waiter =>
    cases waiter with
    | none | some w =>
      simp only [proceed, hpc, some.injEq] at h
      exact h ▸ setUnlockType_valid hv hpc (by simp)
  | exchangeOwner waiter =>
    have howner := hv.owner t (by simp [hpc, owns])
    cases waiter with
    | none =>
      simp only [proceed, hpc, howner, if_true, some.injEq] at h
      exact h ▸ release_valid hv hpc
    | some w =>
      simp only [proceed, hpc, howner, if_true, some.injEq] at h
      exact h ▸ pass_valid hv hpc
  | wakeFromBlocked w =>
    simp only [proceed, hpc, (hv.waking t w hpc).1, if_true, some.injEq] at h
    exact h ▸ wake_valid hv hpc
  | unlockSpinlockUnlock =>
    simp only [proceed, hpc, some.injEq] at h
    exact h ▸ spinlockUnlock_valid hv (.inr (.inr ⟨hpc, rfl⟩))

theorem tryLock_valid (hpc : s.pc t = .idle) : Valid (tryLock s t) := by
  unfold tryLock
  split
  next hfree => exact acquired_valid hv (.inl ⟨hpc, rfl⟩) hfree
  next =>
    have howner : s.lockedBy ≠ some t := by
      intro howner
      have hposition := hv.owner_position t howner
      simp [hpc, owns, receives] at hposition
    rw [if_neg howner]
    exact hv

theorem next_valid {s' : State Task} {l : Task × Action} (h : next s l = some s') : Valid s' := by
  obtain ⟨t, action⟩ := l
  cases action with
  | lock =>
    simp only [next, ite_none_right_eq_some, some.injEq] at h
    exact h.2 ▸ lock_valid hv h.1
  | tryLock =>
    simp only [next, ite_none_right_eq_some, some.injEq] at h
    exact h.2 ▸ tryLock_valid hv h.1
  | unlock =>
    simp only [next, ite_none_right_eq_some, some.injEq] at h
    exact h.2 ▸ unlock_valid hv h.1
  | proceed => exact proceed_valid hv h
  | failSpuriously =>
    simp only [next, ite_none_right_eq_some, some.injEq] at h
    exact h.2 ▸ exchange_weak_valid hv h.1 true

end

theorem reachable_valid (h : (system Task).Reachable anyStep s) : Valid s :=
  @System.Reachable.invariant _ _ (system Task) anyStep Valid (fun _ => initial_valid)
    (fun _ _ _ hv _ => next_valid hv) s h

/-- What users of the mutex rely on. -/
structure Correct (s : State Task) : Prop where
  mutual_exclusion : ∀ t u, (s.pc t).owns = true → (s.pc u).owns = true → t = u
  no_panic : s.panicked = false
  queue_empty : s.lockedBy = none → s.spinlock = none → s.waitQueue = []
  in_order : s.obtainedOrder <+: s.parkedOrder

/-- Every interleaving of `lock`, `tryLock` and `unlock` keeps the mutex correct. -/
theorem mutex_correct (Task : Type) [DecidableEq Task] (s : State Task)
    (h : (system Task).Reachable anyStep s) : Correct s := by
  have hv := reachable_valid h
  refine ⟨fun t u ht hu => ?_, hv.no_panic, fun hfree _ => hv.queue_owned hfree, ?_⟩
  · exact Option.some.inj ((hv.owner t ht).symm.trans (hv.owner u hu))
  · rw [hv.in_order, List.append_assoc]
    exact List.prefix_append ..

/-- Two tasks park behind a holder, and the first of them has been passed the mutex. -/
theorem mutex_correct_contended : ∃ s : State (Fin 3), (system (Fin 3)).Reachable anyStep s ∧
    s.parkedOrder = [1, 2] ∧ s.obtainedOrder = [1] ∧ s.pc 1 = .holding ∧ Correct s := by
  have hrun : (System.runNext next ({} : State (Fin 3))
      ([(0, .tryLock), (1, .lock), (1, .proceed), (1, .proceed), (1, .proceed), (1, .proceed),
        (1, .proceed), (2, .lock), (2, .failSpuriously), (2, .proceed), (2, .proceed),
        (2, .proceed), (2, .proceed), (0, .unlock), (0, .proceed), (0, .proceed), (0, .proceed),
        (0, .proceed), (0, .proceed), (1, .proceed), (1, .proceed)])).map
      (fun s => (s.parkedOrder, s.obtainedOrder, s.pc 1)) = some ([1, 2], [1], .holding) := by
    decide
  obtain ⟨s, hs, h⟩ := map_eq_some_iff.mp hrun
  have hr : (system (Fin 3)).Reachable anyStep s := System.runNext_reachable _ (.init rfl) hs
  simp only [Prod.mk.injEq] at h
  exact ⟨s, hr, h.1, h.2.1, h.2.2, mutex_correct (Fin 3) s hr⟩

end Innigkeit.Sync.Mutex

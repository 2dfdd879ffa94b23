import Innigkeit.Library.Transition

/-!
The hand-over between a user thread that completes and the handle on it, which is
joined or detached once. Both sides decide by one atomic exchange who destroys
the instance. The system call behind the futex wait may return at any time, but
the wait looks at the state again until the thread has completed. A wake passes
the address of the state to the kernel and reads nothing.
-/

namespace Innigkeit.User.ThreadHandle

open Transition Option

inductive Status where
  | running
  | completed
  | detached
  deriving DecidableEq

inductive ThreadPc where
  | start
  | function
  | swap
  | futexWake
  | destroy
  | exited
  deriving DecidableEq

/-- The thread function has returned, and the exchange is made. -/
def ThreadPc.completes : ThreadPc → Bool
  | .futexWake | .destroy | .exited => true
  | _ => false

inductive HandlePc where
  | idle
  | futexWait
  /-- In the system call of the wait. -/
  | asleep
  | exchange
  | swap
  | destroy (joins : Bool)
  | joined
  | detached
  deriving DecidableEq

structure State where
  status : Status := .running
  thread : ThreadPc := .start
  handle : HandlePc := .idle
  destroyed : ℕ := 0
  /-- A field was accessed after the instance had been destroyed. -/
  dangling : Bool := false
  /-- Control has come to an `unreachable`. -/
  trapped : Bool := false
  deriving DecidableEq

inductive Action where
  | thread
  | join
  | detach
  | handle
  /-- The system call of the wait returns, woken or not. -/
  | awake
  deriving DecidableEq

namespace State

def access (s : State) : State := { s with dangling := s.dangling || s.destroyed != 0 }

/-- `completion.destroy`, which is read from the instance. -/
def destroy (s : State) : State := { s.access with destroyed := s.destroyed + 1 }

def entryFn (s : State) : Option State :=
  match s.thread with
  | .start => some { s.access with thread := .function }
  | .function => some { s with thread := .swap }
  | .swap =>
    let s' := { s.access with status := .completed }
    match s.status with
    | .running => some { s' with thread := .futexWake }
    | .detached => some { s' with thread := .destroy }
    | .completed => some { s' with trapped := true }
  | .futexWake => some { s with thread := .exited }
  | .destroy => some { s.destroy with thread := .exited }
  | .exited => none

def joinOrDetach (s : State) : Option State :=
  match s.handle with
  | .idle | .asleep | .joined | .detached => none
  | .futexWait =>
    some { s.access with handle := if s.status = .running then .asleep else .exchange }
  | .exchange =>
    if s.status = .completed then some { s.access with status := .detached, handle := .destroy true }
    else some { s.access with handle := .joined }
  | .swap =>
    let s' := { s.access with status := .detached }
    match s.status with
    | .running => some { s' with handle := .detached }
    | .completed => some { s' with handle := .destroy false }
    | .detached => some { s' with trapped := true }
  | .destroy joins => some { s.destroy with handle := if joins then .joined else .detached }

def next (s : State) : Action → Option State
  | .thread => s.entryFn
  | .join => if s.handle = .idle then some { s with handle := .futexWait } else none
  | .detach => if s.handle = .idle then some { s with handle := .swap } else none
  | .handle => s.joinOrDetach
  | .awake => if s.handle = .asleep then some { s with handle := .futexWait } else none

def system : System State Action := System.ofNext (· = {}) next

/-- Who has destroyed the instance or will. -/
def Owned (s : State) : Prop :=
  match s.handle with
  | .idle | .futexWait | .asleep | .swap =>
    s.status = (if s.thread.completes then .completed else .running) ∧ s.thread ≠ .destroy ∧
      s.destroyed = 0
  | .exchange =>
    s.status = .completed ∧ s.thread.completes ∧ s.thread ≠ .destroy ∧ s.destroyed = 0
  | .destroy _ => s.thread.completes ∧ s.thread ≠ .destroy ∧ s.destroyed = 0
  | .joined => s.thread.completes ∧ s.thread ≠ .destroy ∧ s.destroyed = 1
  | .detached =>
    if s.thread.completes then s.destroyed = if s.thread = .destroy then 0 else 1
    else s.status = .detached ∧ s.destroyed = 0

structure Valid (s : State) : Prop where
  owned : s.Owned
  not_dangling : s.dangling = false
  not_trapped : s.trapped = false

variable {s s' : State} {a : Action}

open State

theorem entryFn_valid (hv : s.Valid) (h : s.entryFn = some s') : s'.Valid := by
  obtain ⟨howned, hdangling, htrapped⟩ := hv
  cases hthread : s.thread with
  | start | function | futexWake | destroy =>
    simp only [entryFn, hthread, some.injEq] at h
    subst h
    constructor <;> grind [Owned, ThreadPc.completes, access, destroy]
  | swap =>
    simp only [entryFn, hthread] at h
    split at h <;> cases h <;>
      constructor <;> grind [Owned, ThreadPc.completes, access, destroy]
  | exited => simp [entryFn, hthread] at h

theorem joinOrDetach_valid (hv : s.Valid) (h : s.joinOrDetach = some s') : s'.Valid := by
  obtain ⟨howned, hdangling, htrapped⟩ := hv
  cases hhandle : s.handle with
  | idle | asleep | joined | detached => simp [joinOrDetach, hhandle] at h
  | futexWait | destroy _ =>
    simp only [joinOrDetach, hhandle, some.injEq] at h
    subst h
    constructor <;> grind [Owned, ThreadPc.completes, access, destroy]
  | exchange | swap =>
    simp only [joinOrDetach, hhandle] at h
    split at h <;> cases h <;>
      constructor <;> grind [Owned, ThreadPc.completes, access, destroy]

theorem next_valid (hv : s.Valid) (h : s.next a = some s') : s'.Valid := by
  cases a with
  | thread => exact entryFn_valid hv h
  | handle => exact joinOrDetach_valid hv h
  | join | detach | awake =>
    obtain ⟨hpc, heq⟩ := ite_none_right_eq_some.mp h
    cases heq
    refine ⟨?_, hv.not_dangling, hv.not_trapped⟩
    have howned := hv.owned
    simpa only [Owned, hpc] using howned

/-- What the owner of a handle relies on. An instance that both sides are done with has been
destroyed once. -/
structure Correct (s : State) : Prop where
  joined : s.handle = .joined → s.thread.completes
  once : s.destroyed ≤ 1
  finished : s.thread = .exited → s.handle = .joined ∨ s.handle = .detached → s.destroyed = 1
  not_dangling : s.dangling = false

/-- In every interleaving of the thread and the owner of its handle, the instance is destroyed once
both are done with it, not twice, and nobody uses it afterwards. -/
theorem handle_correct (h : system.Reachable anyStep s) : s.Correct := by
  have hv : s.Valid := @System.Reachable.invariant _ _ system anyStep Valid
    (by rintro _ rfl; exact ⟨⟨rfl, by decide, rfl⟩, rfl, rfl⟩) (fun _ _ _ hv _ => next_valid hv) s h
  have howned := hv.owned
  refine ⟨fun hjoined => ?_, ?_, fun hexited hdone => ?_, hv.not_dangling⟩
  · simp only [Owned, hjoined] at howned
    exact howned.1
  · grind [Owned]
  · grind [Owned, ThreadPc.completes]

/-- The system call returns before the thread has completed, and `join` waits on. -/
theorem handle_correct_awake :
    let s : State :=
      { status := .detached, thread := .exited, handle := .joined, destroyed := 1 }
    system.Reachable anyStep s ∧ s.Correct := by
  intro s
  have hrun : System.runNext next {} [.thread, .join, .handle, .awake, .handle, .awake, .thread,
      .thread, .handle, .handle, .handle, .thread] = some s := by
    decide
  have h : system.Reachable anyStep s := System.runNext_reachable _ (.init rfl) hrun
  exact ⟨h, handle_correct h⟩

end State

end Innigkeit.User.ThreadHandle

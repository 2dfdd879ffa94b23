import Innigkeit.Capabilities.Notify

/-!
The exit status of a process. It travels through the exit notification as bits 8
to 15 of the pending word, beside the exit flag in bit 0, and a wait takes what
has come together under its mask. So the status that `waitProcess` returns is one
that was sent as long as no signal mixes two statuses and no other wait takes a
part of the bits.
-/

namespace Innigkeit.User

open Capabilities Transition List Option System BitVec

def exitBits (status : BitVec 8) : BitVec 64 := 1 ||| (status.setWidth 64 <<< 8)

def exitMask : BitVec 64 := 0xFF01

def exitStatus (bits : BitVec 64) : BitVec 8 := (bits >>> 8).truncate 8

/-- `Process.ExitStatus.sigint` -/
def sigint : BitVec 8 := 130

theorem exitStatus_exitBits (status : BitVec 8) : exitStatus (exitBits status) = status := by
  revert status
  decide +kernel

theorem exitBits_and_mask (status : BitVec 8) : exitBits status &&& exitMask = exitBits status := by
  revert status
  decide +kernel

theorem exitBits_or (a b : BitVec 8) : exitBits a ||| exitBits b = exitBits (a ||| b) := by
  ext i hi
  simp only [exitBits, getElem_or, setWidth_or, shiftLeft_or_distrib]
  grind

theorem exitStatus_and_mask (bits : BitVec 64) :
    exitStatus (bits &&& exitMask) = exitStatus bits := by
  have hmask : exitStatus exitMask = allOnes 8 := by decide
  have hand : exitStatus (bits &&& exitMask) = exitStatus bits &&& exitStatus exitMask := by
    simp [exitStatus, ushiftRight_and_distrib]
  rw [hand, hmask, and_allOnes]

/-- The exit notification with the statuses sent, and for each status returned whether the exit
flag was pending. -/
structure ExitNotify (Task : Type) where
  notify : Notify Task
  sent : List (BitVec 8) := []
  returned : List (BitVec 8 × Bool) := []

namespace ExitNotify

/-- `waitProcess` and `waitProcessNb` are a wait and a poll for `exitMask`. -/
inductive Call (Task : Type) where
  | cleanupProcess (exitStatus : BitVec 8)
  | processKill
  | wait (task : Task) (clearMask : BitVec 64)
  | resume (task : Task)
  | poll (clearMask : BitVec 64)

variable {Task : Type} [DecidableEq Task]

def signal (s : ExitNotify Task) (status : BitVec 8) : ExitNotify Task :=
  { s with notify := s.notify.signal (exitBits status), sent := status :: s.sent }

/-- A wait or a poll is over with these bits, or the task parks without any. -/
def take (s : ExitNotify Task) (clearMask bits : BitVec 64) (notify : Notify Task) :
    ExitNotify Task :=
  { s with
    notify
    returned := if clearMask = exitMask ∧ bits ≠ 0
      then (exitStatus bits, bits.getLsbD 0) :: s.returned else s.returned }

def wait (s : ExitNotify Task) (t : Task) (clearMask : BitVec 64) : ExitNotify Task :=
  let (bits, notify) := s.notify.wait t clearMask
  s.take clearMask (bits.getD 0) notify

def next (s : ExitNotify Task) : Call Task → Option (ExitNotify Task)
  | .cleanupProcess status => some (s.signal status)
  | .processKill => some (s.signal sigint)
  | .wait t clearMask => if s.notify.waiting t = .idle then some (s.wait t clearMask) else none
  | .resume t =>
    match s.notify.waiting t with
    | .woken clearMask => some (s.wait t clearMask)
    | _ => none
  | .poll clearMask =>
    let (bits, notify) := s.notify.poll clearMask
    some (s.take clearMask bits notify)

def Initial (s : ExitNotify Task) : Prop :=
  s.notify.Initial ∧ s.notify.pending = 0 ∧ s.sent = [] ∧ s.returned = []

def system : System (ExitNotify Task) (Call Task) := System.ofNext Initial next

def Honest (s : ExitNotify Task) : Prop := ∀ r ∈ s.returned, r.1 ∈ s.sent ∧ r.2 = true

def Fits (s : ExitNotify Task) (status : BitVec 8) : Prop :=
  exitStatus s.notify.pending ||| status = exitStatus s.notify.pending ∨
    exitStatus s.notify.pending ||| status = status

/-- A mask with the flag and the whole status, or with nothing of them. -/
def Whole (clearMask : BitVec 64) : Prop :=
  exitMask &&& clearMask = 0 ∨ exitMask &&& clearMask = exitMask

/-- Signals do not mix statuses, and no wait takes a part of the bits. -/
def clean (s : ExitNotify Task) : Call Task → Prop
  | .cleanupProcess status => s.Fits status
  | .processKill => s.Fits sigint
  | .wait _ clearMask | .poll clearMask => Whole clearMask
  | .resume t => ∀ clearMask, s.notify.waiting t = .woken clearMask → Whole clearMask

/-- Nothing of an exit is pending, or one status that was sent. -/
structure Packed (s : ExitNotify Task) : Prop where
  pending : s.notify.pending &&& exitMask = 0 ∨
    ∃ status ∈ s.sent, s.notify.pending &&& exitMask = exitBits status
  honest : s.Honest

variable {s s' : ExitNotify Task}
variable {clearMask : BitVec 64}

theorem Whole.rest (h : Whole clearMask) :
    ~~~clearMask &&& exitMask = exitMask ∨ ~~~clearMask &&& exitMask = 0 := by
  refine h.imp (fun h => ?_) fun h => ?_ <;>
    ext i hi <;> have hbit := congrArg (·[i]) h <;> simp at hbit ⊢ <;> grind

omit [DecidableEq Task] in
theorem take_packed (hp : s.Packed) (hwhole : Whole clearMask)
    {notify : Notify Task} (hnotify : notify.pending = s.notify.pending &&& ~~~clearMask) :
    (s.take clearMask (s.notify.pending &&& clearMask) notify).Packed := by
  refine ⟨?_, fun r hr => ?_⟩
  · simp only [take, hnotify, BitVec.and_assoc]
    rcases hwhole.rest with hrest | hrest
    · rw [hrest]
      exact hp.pending
    · rw [hrest]
      exact .inl BitVec.and_zero
  · simp only [take] at hr
    split at hr
    next htaken =>
      rw [mem_cons] at hr
      rcases hr with rfl | hr
      · -- The bits taken are the whole status that was pending.
        obtain ⟨rfl, htaken⟩ := htaken
        obtain ⟨status, hsent, hbits⟩ := hp.pending.resolve_left htaken
        rw [hbits, exitStatus_exitBits]
        exact ⟨hsent, by simp [exitBits]⟩
      · exact hp.honest r hr
    next => exact hp.honest r hr

theorem wait_bits (n : Notify Task) (t : Task) (clearMask : BitVec 64) :
    (n.wait t clearMask).1.getD 0 = n.pending &&& clearMask ∧
      (n.wait t clearMask).2.pending = n.pending &&& ~~~clearMask := by
  unfold Notify.wait
  split
  next hnone =>
    refine ⟨hnone.symm, ?_⟩
    ext i hi
    have hbit := congrArg (·[i]) hnone
    simp at hbit ⊢
    grind
  next => exact ⟨rfl, rfl⟩

theorem wait_packed (hp : s.Packed) {t : Task} (hwhole : Whole clearMask) :
    (s.wait t clearMask).Packed := by
  obtain ⟨hbits, hpending⟩ := wait_bits s.notify t clearMask
  simp only [wait, hbits]
  exact take_packed hp hwhole hpending

theorem signal_packed (hp : s.Packed) {status : BitVec 8} (hfits : s.Fits status) :
    (s.signal status).Packed := by
  have hpending : (s.signal status).notify.pending = s.notify.pending ||| exitBits status := by
    simp only [signal, Notify.signal, Notify.wakeOne]
    split <;> rfl
  refine ⟨.inr ?_, fun r hr => ⟨mem_cons_of_mem _ (hp.honest r hr).1, (hp.honest r hr).2⟩⟩
  have hmasked : (s.notify.pending ||| exitBits status) &&& exitMask =
      (s.notify.pending &&& exitMask) ||| exitBits status := by
    ext i hi
    have hbit := congrArg (·[i]) (exitBits_and_mask status)
    simp at hbit ⊢
    grind
  rw [hpending, hmasked]
  rcases hp.pending with hnone | ⟨old, hsent, hold⟩
  · exact ⟨status, mem_cons_self, by rw [hnone]; exact zero_or⟩
  · rw [Fits, ← exitStatus_and_mask, hold, exitStatus_exitBits] at hfits
    rw [hold, exitBits_or]
    rcases hfits with hfits | hfits
    · exact ⟨old, mem_cons_of_mem _ hsent, by rw [hfits]⟩
    · exact ⟨status, mem_cons_self, by rw [hfits]⟩

theorem next_packed {c : Call Task} (hp : s.Packed) (hclean : s.clean c)
    (h : s.next c = some s') : s'.Packed := by
  cases c with
  | cleanupProcess | processKill =>
    cases h
    exact signal_packed hp hclean
  | wait t clearMask =>
    obtain ⟨-, heq⟩ := ite_none_right_eq_some.mp h
    cases heq
    exact wait_packed hp hclean
  | resume t =>
    simp only [next] at h
    split at h
    next clearMask hwoken =>
      cases h
      exact wait_packed hp (hclean clearMask hwoken)
    next => cases h
  | poll clearMask =>
    cases h
    exact take_packed hp hclean rfl

/-- Whoever waits for the process gets a status that was sent, if no two statuses mix and no wait
takes a part of the bits. -/
theorem returned_sent (h : system.Reachable clean s) : s.Honest := by
  have hp : s.Packed := @System.Reachable.invariant _ _ system clean Packed
    (fun s hs => ⟨.inl (by rw [hs.2.1]; rfl), by simp [Honest, hs.2.2.2]⟩)
    (fun _ _ _ hp hclean => next_packed hp hclean) s h
  exact hp.honest

/-- Nothing is pending and nobody waits. -/
def blank : ExitNotify Unit := { notify := { waiting := fun _ => .idle } }

theorem blank_reachable {allowed : ExitNotify Unit → Call Unit → Prop} :
    system.Reachable allowed blank :=
  .init ⟨⟨rfl, fun _ => rfl⟩, rfl, rfl, rfl⟩

theorem returned_sent_three : ∃ s : ExitNotify Unit, system.Reachable clean s ∧
    s.returned = [(3, true)] ∧ s.Honest := by
  have hsignal : clean blank (.cleanupProcess 3) := .inr (by decide)
  have hwait : clean (blank.signal 3) (.wait () exitMask) := .inr (by decide)
  have h : system.Reachable clean ((blank.signal 3).wait () exitMask) :=
    .step (.step blank_reachable hsignal rfl) hwait rfl
  exact ⟨_, h, by decide, returned_sent h⟩

/-- A process that ends with status 1 is killed too, and the status returned is 131. Or another wait
takes the exit flag, and `waitProcess` returns without it. -/
theorem statuses_mix :
    (∃ s : ExitNotify Unit, system.Reachable anyStep s ∧
      s.sent = [130, 1] ∧ s.returned = [(131, true)]) ∧
    ∃ s : ExitNotify Unit, system.Reachable anyStep s ∧ s.sent = [1] ∧ s.returned = [(1, false)] := by
  have hmixed : (runNext next blank [.cleanupProcess 1, .processKill, .wait () exitMask]).map
      (fun s => (s.sent, s.returned)) = some ([130, 1], [(131, true)]) := by
    decide
  have hflag : (runNext next blank [.cleanupProcess 1, .poll 1, .wait () exitMask]).map
      (fun s => (s.sent, s.returned)) = some ([1], [(1, false)]) := by
    decide
  obtain ⟨s, hs, hstate⟩ := map_eq_some_iff.mp hmixed
  obtain ⟨s', hs', hstate'⟩ := map_eq_some_iff.mp hflag
  simp only [Prod.mk.injEq] at hstate hstate'
  exact ⟨⟨s, runNext_reachable _ blank_reachable hs, hstate⟩,
    s', runNext_reachable _ blank_reachable hs', hstate'⟩

end ExitNotify

end Innigkeit.User

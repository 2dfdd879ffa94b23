import Innigkeit.Library.Transition

/-!
Notifications. A signal sets bits and wakes the task at the head of the wait
queue, whatever that task waits for; a woken task whose bits are not set parks
again at the tail, and nobody else is woken. So the bits of a signal may be left
pending for a task that is parked.

Each section under the lock of the notification is one step. Between its wakeup
and its next section a task is on its way back to the lock.
-/

namespace Innigkeit.Capabilities

open Function Transition List System

namespace Notify

inductive Waiting where
  | idle
  | parked (clearMask : BitVec 64)
  /-- Woken, and on the way back to the lock. -/
  | woken (clearMask : BitVec 64)
  deriving DecidableEq, Repr

def Waiting.wake : Waiting → Waiting
  | .parked clearMask => .woken clearMask
  | waiting => waiting

end Notify

structure Notify (Task : Type) where
  pending : BitVec 64 := 0
  waitQueue : List Task := []
  waiting : Task → Notify.Waiting

namespace Notify

inductive Section (Task : Type) where
  | signal (bits : BitVec 64)
  /-- `wait` from its call on. -/
  | wait (task : Task) (clearMask : BitVec 64)
  /-- `wait` from the return of `WaitQueue.wait` on. -/
  | resume (task : Task)
  | poll (clearMask : BitVec 64)
  deriving DecidableEq

variable {Task : Type} [DecidableEq Task]

def wakeOne (s : Notify Task) : Notify Task :=
  match s.waitQueue with
  | [] => s
  | t :: rest =>
    { s with waitQueue := rest, waiting := update s.waiting t (s.waiting t).wake }

def signal (s : Notify Task) (bits : BitVec 64) : Notify Task :=
  { s with pending := s.pending ||| bits }.wakeOne

omit [DecidableEq Task] in
def poll (s : Notify Task) (clearMask : BitVec 64) : BitVec 64 × Notify Task :=
  (s.pending &&& clearMask, { s with pending := s.pending &&& ~~~clearMask })

/-- A round of the loop of `wait`; `none` when the task parks. -/
def wait (s : Notify Task) (t : Task) (clearMask : BitVec 64) :
    Option (BitVec 64) × Notify Task :=
  if s.pending &&& clearMask = 0 then
    (none, { s with
      waitQueue := s.waitQueue ++ [t]
      waiting := update s.waiting t (.parked clearMask) })
  else
    (some (s.pending &&& clearMask), { s with
      pending := s.pending &&& ~~~clearMask
      waiting := update s.waiting t .idle })

def next (s : Notify Task) : Section Task → Option (Notify Task)
  | .signal bits => some (s.signal bits)
  | .wait t clearMask => if s.waiting t = .idle then some (s.wait t clearMask).2 else none
  | .resume t =>
    match s.waiting t with
    | .woken clearMask => some (s.wait t clearMask).2
    | _ => none
  | .poll clearMask => some (s.poll clearMask).2

/-- Nobody waits; any bits may be pending. -/
def Initial (s : Notify Task) : Prop := s.waitQueue = [] ∧ ∀ t, s.waiting t = .idle

def system : System (Notify Task) (Section Task) := System.ofNext Initial next

/-- When nobody is on the way back to the lock, no parked task has a bit of its mask pending. -/
def NoLostWakeup (s : Notify Task) : Prop :=
  (∀ t clearMask, s.waiting t ≠ .woken clearMask) →
    ∀ t clearMask, s.waiting t = .parked clearMask → s.pending &&& clearMask = 0

/-- A task on its way back waits for the bit. -/
def Awaited (s : Notify Task) (i : ℕ) : Prop :=
  ∃ t clearMask, s.waiting t = .woken clearMask ∧ clearMask.getLsbD i = true

/-- Every bit of a signal that a task in the queue waits for is also one that the head of the queue
or a task on its way back waits for. -/
def covers (s : Notify Task) : Section Task → Prop
  | .signal bits => ∀ t ∈ s.waitQueue, ∀ clearMask, s.waiting t = .parked clearMask →
      ∀ i, bits.getLsbD i = true → clearMask.getLsbD i = true →
        s.Awaited i ∨ ∃ head headMask, s.waitQueue.head? = some head ∧
          s.waiting head = .parked headMask ∧ headMask.getLsbD i = true
  | _ => True

/-- A parked task has a bit pending that nobody on the way back will take. -/
def Strands (s : Notify Task) : Prop :=
  ∃ t clearMask i, s.waiting t = .parked clearMask ∧ clearMask.getLsbD i = true ∧
    s.pending.getLsbD i = true ∧ ¬ s.Awaited i

/-- The queue holds the parked tasks, each once. -/
structure Queued (s : Notify Task) : Prop where
  nodup : s.waitQueue.Nodup
  parked : ∀ t, t ∈ s.waitQueue ↔ ∃ clearMask, s.waiting t = .parked clearMask

variable {s s' : Notify Task} {a : Section Task}

section

variable {t : Task}

private theorem Queued.leave {waiting : Waiting} {pending : BitVec 64} (h : s.Queued)
    (ht : ∀ clearMask, s.waiting t ≠ .parked clearMask)
    (hw : ∀ clearMask, waiting ≠ .parked clearMask) :
    Queued { s with pending, waiting := update s.waiting t waiting } := by
  refine ⟨h.nodup, fun u => ?_⟩
  simp only [update_apply]
  split
  · next heq =>
    rw [h.parked, heq]
    constructor
    · intro hp
      obtain ⟨clearMask, hp⟩ := hp
      exact absurd hp (ht clearMask)
    · intro hp
      obtain ⟨clearMask, hp⟩ := hp
      exact absurd hp (hw clearMask)
  · exact h.parked u

variable {clearMask : BitVec 64}

private theorem Queued.park (h : s.Queued) (ht : ∀ clearMask, s.waiting t ≠ .parked clearMask) :
    Queued { s with
      waitQueue := s.waitQueue ++ [t], waiting := update s.waiting t (.parked clearMask) } := by
  have hnot : t ∉ s.waitQueue := by
    intro hmem
    obtain ⟨mask, hmask⟩ := (h.parked t).mp hmem
    exact ht mask hmask
  refine ⟨?_, fun u => ?_⟩
  · rw [(perm_append_singleton t s.waitQueue).nodup_iff]
    exact nodup_cons.mpr ⟨hnot, h.nodup⟩
  · simp only [update_apply, mem_append, mem_singleton]
    split
    · next heq => exact iff_of_true (.inr heq) ⟨clearMask, rfl⟩
    · next hne =>
      rw [or_iff_left hne]
      exact h.parked u

private theorem Queued.wait (h : s.Queued)
    (ht : ∀ clearMask, s.waiting t ≠ .parked clearMask) : (s.wait t clearMask).2.Queued := by
  rw [Notify.wait]
  split
  · exact h.park ht
  · exact h.leave ht (by simp)

private theorem Queued.wakeOne (h : s.Queued) : s.wakeOne.Queued := by
  rw [Notify.wakeOne]
  split
  · exact h
  · next t rest hqueue =>
    have hnodup := h.nodup
    rw [hqueue, nodup_cons] at hnodup
    obtain ⟨clearMask, ht⟩ := (h.parked t).mp (hqueue ▸ mem_cons_self)
    refine ⟨hnodup.2, fun u => ?_⟩
    simp only [update_apply]
    split
    · next heq =>
      rw [heq, ht]
      exact iff_of_false hnodup.1 (by simp [Waiting.wake])
    · next hne =>
      rw [← h.parked u, hqueue, mem_cons, or_iff_right hne]

theorem Queued.next (h : s.Queued) (hnext : s.next a = some s') : s'.Queued := by
  cases a with
  | signal bits =>
    cases hnext
    exact Queued.wakeOne ⟨h.nodup, h.parked⟩
  | wait t clearMask =>
    simp only [Notify.next] at hnext
    split at hnext
    · next hidle =>
      cases hnext
      exact h.wait (by simp [hidle])
    · cases hnext
  | resume t =>
    simp only [Notify.next] at hnext
    split at hnext
    · next clearMask hwoken =>
      cases hnext
      exact h.wait (by simp [hwoken])
    · cases hnext
  | poll clearMask =>
    cases hnext
    exact ⟨h.nodup, h.parked⟩

omit [DecidableEq Task] in
theorem Initial.queued (h : s.Initial) : s.Queued := by
  refine ⟨h.1 ▸ nodup_nil, fun t => ?_⟩
  rw [h.1, h.2]
  exact iff_of_false not_mem_nil (by simp)

end

section

omit [DecidableEq Task] in
private theorem not_strands_iff : ¬ s.Strands ↔
    ∀ t clearMask, s.waiting t = .parked clearMask → ∀ i, s.pending.getLsbD i = true →
      clearMask.getLsbD i = true → s.Awaited i := by
  constructor
  · intro h t clearMask ht i hp hm
    by_contra hno
    exact h ⟨t, clearMask, i, ht, hm, hp, hno⟩
  · intro h hstrands
    obtain ⟨t, clearMask, i, ht, hm, hp, hno⟩ := hstrands
    exact hno (h t clearMask ht i hp hm)

private theorem disjoint_of_and_eq_zero {x y : BitVec 64} {i : ℕ} (h : x &&& y = 0)
    (hx : x.getLsbD i = true) : y.getLsbD i = false := by
  have hbit := congrArg (fun z => z.getLsbD i) h
  simp only [BitVec.getLsbD_and, hx, Bool.true_and] at hbit
  simpa using hbit

private theorem getLsbD_and_not {x y : BitVec 64} {i : ℕ} :
    (x &&& ~~~y).getLsbD i = true ↔ x.getLsbD i = true ∧ y.getLsbD i = false := by
  rw [BitVec.getLsbD_and, BitVec.getLsbD_not, Bool.and_eq_true]
  constructor
  · intro h
    simp only [Bool.and_eq_true, decide_eq_true_eq, Bool.not_eq_true'] at h
    exact ⟨h.1, h.2.2⟩
  · intro h
    have hi : i < 64 := BitVec.lt_of_getLsbD h.1
    rw [h.1, h.2, decide_eq_true hi]
    exact ⟨rfl, rfl⟩

variable {clearMask : BitVec 64}

/-- Nobody is stranded by a round of `wait`: a task that parks has no bit pending, and one that
returns has taken its bits. -/
private theorem not_strands_wait {t : Task} (h : ¬ s.Strands)
    (ht : s.waiting t = .idle ∨ s.waiting t = .woken clearMask) :
    ¬ (s.wait t clearMask).2.Strands := by
  rw [not_strands_iff] at h ⊢
  -- A bit that a task on the way back awaits is awaited after the step or was one of this task's.
  have hkeep {i : ℕ} {waiting : Waiting} (hi : clearMask.getLsbD i = false)
      (hawaited : s.Awaited i) : ∃ u mask, update s.waiting t waiting u = .woken mask ∧
        mask.getLsbD i = true := by
    obtain ⟨u, mask, hu, hm⟩ := hawaited
    have hne : u ≠ t := by
      intro heq
      rw [heq] at hu
      cases ht with
      | inl hidle =>
        rw [hidle] at hu
        cases hu
      | inr hwoken =>
        rw [hwoken] at hu
        cases hu
        rw [hi] at hm
        cases hm
    exact ⟨u, mask, by rw [update_of_ne hne, hu], hm⟩
  rw [Notify.wait]
  split
  · next hnone =>
    intro u mask hu i hp hm
    simp only [update_apply] at hu
    split at hu
    · cases hu
      rw [disjoint_of_and_eq_zero hnone hp] at hm
      cases hm
    · exact hkeep (disjoint_of_and_eq_zero hnone hp) (h u mask hu i hp hm)
  · intro u mask hu i hp hm
    obtain ⟨hp, hi⟩ := getLsbD_and_not.mp hp
    simp only [update_apply] at hu
    split at hu
    · cases hu
    · exact hkeep hi (h u mask hu i hp hm)

omit [DecidableEq Task] in
private theorem not_strands_poll (h : ¬ s.Strands) : ¬ (s.poll clearMask).2.Strands := by
  rw [not_strands_iff] at h ⊢
  intro u mask hu i hp hm
  exact h u mask hu i (getLsbD_and_not.mp hp).1 hm

variable {bits : BitVec 64}

private theorem not_strands_signal_nil (hq : s.Queued)
    (hqueue : s.waitQueue = []) : ¬ (s.signal bits).Strands := by
  intro hstrands
  obtain ⟨u, mask, i, hu, -⟩ := hstrands
  have hnot : ∀ mask, s.waiting u ≠ .parked mask := by
    intro mask hmask
    have hmem := (hq.parked u).mpr ⟨mask, hmask⟩
    rw [hqueue] at hmem
    cases hmem
  have hsame : (s.signal bits).waiting = s.waiting := by
    simp only [signal, wakeOne, hqueue]
  rw [hsame] at hu
  exact hnot mask hu

variable {head : Task} {rest : List Task} {headMask : BitVec 64}

/-- After a signal the head of the queue is on the way back; the others are as before. -/
private theorem signal_cons (bits : BitVec 64) (hqueue : s.waitQueue = head :: rest)
    (hhead : s.waiting head = .parked headMask) :
    (s.signal bits).waiting = update s.waiting head (.woken headMask) ∧
      (s.signal bits).pending = s.pending ||| bits := by
  simp only [signal, wakeOne, hqueue, hhead, Waiting.wake, and_self]

private theorem awaited_signal_iff (hqueue : s.waitQueue = head :: rest)
    (hhead : s.waiting head = .parked headMask) (i : ℕ) :
    (s.signal bits).Awaited i ↔ s.Awaited i ∨ headMask.getLsbD i = true := by
  rw [Awaited, (signal_cons _ hqueue hhead).1]
  constructor
  · intro h
    obtain ⟨u, mask, hu, hm⟩ := h
    rw [update_apply] at hu
    split at hu
    · cases hu
      exact .inr hm
    · exact .inl ⟨u, mask, hu, hm⟩
  · intro h
    cases h with
    | inl hold =>
      obtain ⟨u, mask, hu, hm⟩ := hold
      have hne : u ≠ head := by
        intro heq
        rw [heq, hhead] at hu
        cases hu
      exact ⟨u, mask, by rw [update_of_ne hne, hu], hm⟩
    | inr hnew => exact ⟨head, headMask, update_self .., hnew⟩

/-- From a state that strands nobody, a signal strands somebody if and only if its bits are not
covered. -/
private theorem signal_strands_iff (hq : s.Queued) (h : ¬ s.Strands) :
    (s.signal bits).Strands ↔ ¬ s.covers (.signal bits) := by
  rw [not_strands_iff] at h
  cases hqueue : s.waitQueue with
  | nil =>
    refine iff_of_false (not_strands_signal_nil hq hqueue) (not_not.mpr ?_)
    intro t ht
    rw [hqueue] at ht
    cases ht
  | cons head rest =>
    obtain ⟨headMask, hhead⟩ := (hq.parked head).mp (hqueue ▸ mem_cons_self)
    obtain ⟨hwaiting, hpending⟩ := signal_cons bits hqueue hhead
    rw [← not_iff_not, not_not, not_strands_iff]
    simp only [awaited_signal_iff hqueue hhead, hwaiting, hpending]
    constructor
    · intro hall t ht mask hmask i hb hm
      by_cases heq : t = head
      · rw [heq, hhead] at hmask
        cases hmask
        exact .inr ⟨head, headMask, by rw [hqueue]; rfl, hhead, hm⟩
      · have hp : (s.pending ||| bits).getLsbD i = true := by
          rw [BitVec.getLsbD_or, hb, Bool.or_true]
        cases hall t mask (by rw [update_of_ne heq, hmask]) i hp hm with
        | inl hold => exact .inl hold
        | inr hnew => exact .inr ⟨head, headMask, by rw [hqueue]; rfl, hhead, hnew⟩
    · intro hcovers t mask ht i hp hm
      rw [update_apply] at ht
      split at ht
      · cases ht
      · rw [BitVec.getLsbD_or, Bool.or_eq_true] at hp
        cases hp with
        | inl hold => exact .inl (h t mask ht i hold hm)
        | inr hbits =>
          cases hcovers t ((hq.parked t).mpr ⟨mask, ht⟩) mask ht i hbits hm with
          | inl hawaited => exact .inl hawaited
          | inr hfirst =>
            obtain ⟨first, firstMask, hfirst, hparked, hbit⟩ := hfirst
            rw [hqueue] at hfirst
            cases hfirst
            rw [hhead] at hparked
            cases hparked
            exact .inr hbit

omit [DecidableEq Task] in
private theorem noLostWakeup_of_not_strands (h : ¬ s.Strands) : s.NoLostWakeup := by
  rw [not_strands_iff] at h
  intro hnobody t mask ht
  refine BitVec.eq_of_getLsbD_eq fun i _ => ?_
  cases hp : s.pending.getLsbD i with
  | false => simp [BitVec.getLsbD_and, hp]
  | true =>
    cases hm : mask.getLsbD i with
    | false => simp [BitVec.getLsbD_and, hm]
    | true =>
      obtain ⟨u, umask, hu, -⟩ := h t mask ht i hp hm
      exact absurd hu (hnobody u umask)

end

/-- In a run in which every signal is covered no wakeup is lost. The first signal of such a run
that is not covered leaves a bit pending for a parked task that nobody will take. -/
theorem signals_not_lost :
    (system.Reachable covers s → s.NoLostWakeup) ∧
    (system.Reachable covers s → ¬ covers s a → s.next a = some s' → s'.Strands) := by
  have hinv (h : system.Reachable covers s) : s.Queued ∧ ¬ s.Strands := by
    refine @System.Reachable.invariant _ _ system covers
      (fun s => s.Queued ∧ ¬ s.Strands) ?_ ?_ s h
    · intro s hs
      refine ⟨Initial.queued hs, fun hstrands => ?_⟩
      obtain ⟨t, mask, -, ht, -⟩ := hstrands
      rw [hs.2] at ht
      cases ht
    · intro s a s' hinv hcovers hstep
      refine ⟨hinv.1.next hstep, ?_⟩
      have hnext : s.next a = some s' := hstep
      cases a with
      | signal bits =>
        cases hnext
        rw [signal_strands_iff hinv.1 hinv.2, not_not]
        exact hcovers
      | wait t clearMask =>
        simp only [next] at hnext
        split at hnext
        · next hidle =>
          cases hnext
          exact not_strands_wait hinv.2 (.inl hidle)
        · cases hnext
      | resume t =>
        simp only [next] at hnext
        split at hnext
        · next clearMask hwoken =>
          cases hnext
          exact not_strands_wait hinv.2 (.inr hwoken)
        · cases hnext
      | poll clearMask =>
        cases hnext
        exact not_strands_poll hinv.2
  refine ⟨fun h => noLostWakeup_of_not_strands (hinv h).2, fun h hnot hnext => ?_⟩
  cases a with
  | signal bits =>
    cases hnext
    exact (signal_strands_iff (hinv h).1 (hinv h).2).mpr hnot
  | wait | resume | poll => exact absurd trivial hnot

/-- Nobody waits and nothing is pending. -/
def blank : Notify Bool where
  waiting := fun _ => .idle

theorem blank_initial : blank.Initial := ⟨rfl, fun _ => rfl⟩

/-- At most one task is in the queue at a signal. -/
private def signalsOne (s : Notify Bool) : Section Bool → Prop
  | .signal _ => s.waitQueue.length ≤ 1
  | _ => True

private instance (s : Notify Bool) : (a : Section Bool) → Decidable (signalsOne s a)
  | .signal _ => inferInstanceAs (Decidable (s.waitQueue.length ≤ 1))
  | .wait .. | .resume _ | .poll _ => inferInstanceAs (Decidable True)

private theorem covers_of_signalsOne (s : Notify Bool) (a : Section Bool)
    (h : signalsOne s a) : covers s a := by
  cases a with
  | signal bits =>
    intro t ht mask hmask i _ hm
    obtain ⟨head, hhead⟩ := length_eq_one_iff.mp
      (Nat.le_antisymm h (length_pos_of_mem ht))
    rw [hhead, mem_singleton] at ht
    refine .inr ⟨head, mask, by rw [hhead]; rfl, ?_, hm⟩
    rw [← ht, hmask]
  | wait | resume | poll => trivial

/-- One task waits for bit 0 and bit 1 is signalled: it parks again, and nothing is lost. -/
theorem signals_not_lost_other_bit : ∃ s : Notify Bool, system.Reachable covers s ∧
    s.pending = 2 ∧ s.waiting true = .parked 1 ∧ s.NoLostWakeup := by
  have hrun : (runNext (restrict signalsOne next) blank
      [.wait true 1, .signal 2, .resume true]).map (fun s => (s.pending, s.waiting true)) =
      some (2, .parked 1) := by decide
  obtain ⟨s, hs, hstate⟩ := Option.map_eq_some_iff.mp hrun
  obtain ⟨hpending, hparked⟩ := Prod.mk.inj hstate
  have hblank : (ofNext Initial next).Reachable signalsOne blank := .init blank_initial
  have hreach : system.Reachable covers s :=
    (restrict_reachable _ hblank hs).mono covers_of_signalsOne
  exact ⟨s, hreach, hpending, hparked,
    (@signals_not_lost _ _ s s (.poll 0)).1 hreach⟩

/-- A task waits for bit 0 and then another for bit 1. The signal of bit 1 wakes the first one, which
parks again: the second one is parked with its bit pending. -/
theorem signal_goes_astray : ∃ s : Notify Bool, system.Reachable anyStep s ∧
    s.pending = 2 ∧ s.waiting false = .parked 1 ∧ s.waiting true = .parked 2 ∧
    ¬ s.NoLostWakeup := by
  have hrun : (runNext next blank
      [.wait false 1, .wait true 2, .signal 2, .resume false]).map
        (fun s => (s.pending, s.waiting false, s.waiting true)) =
      some (2, .parked 1, .parked 2) := by decide
  obtain ⟨s, hs, hstate⟩ := Option.map_eq_some_iff.mp hrun
  simp only [Prod.mk.injEq] at hstate
  obtain ⟨hpending, hfirst, hsecond⟩ := hstate
  have hblank : (ofNext Initial next).Reachable anyStep blank := .init blank_initial
  refine ⟨s, runNext_reachable _ hblank hs, hpending, hfirst, hsecond, fun hnone => ?_⟩
  have hnobody : ∀ t mask, s.waiting t ≠ .woken mask := by
    intro t mask
    cases t with
    | false => simp [hfirst]
    | true => simp [hsecond]
  have hzero := hnone hnobody true 2 hsecond
  rw [hpending] at hzero
  exact absurd hzero (by decide)

end Notify

end Innigkeit.Capabilities

import Innigkeit.Library.Transition

/-!
Termination of a process. The first thread that wins the exchange of `terminating`
marks the threads that it finds in the thread list, once, under the lock of the list.
`createThread` does not look at `terminating`: a thread that a sibling adds after
the marking is never marked.

The exchange, the marking and the insertion of a new thread are steps of their
own. A thread that finds its mark clears it and terminates in the same step, since
it does nothing for its siblings in between. Threads are identified for good:
the identity of a thread that is gone is not used again.
-/

namespace Innigkeit.User.Process

open Function Transition List Option System

inductive Activity where
  | unborn
  | running
  /-- In `terminateCallingThread`, before `forceTerminateSiblings`, as the winner. -/
  | won (status : BitVec 8)
  | terminated
  deriving DecidableEq, Repr

structure Threads (Thread : Type) where
  threads : List Thread
  activity : Thread → Activity
  pendingKill : Thread → Bool
  terminating : Bool := false
  exitStatus : BitVec 8 := 0
  /-- The caller of `forceTerminateSiblings` once that has returned. -/
  winner : Option Thread := none

inductive ThreadStep (Thread : Type) where
  /-- The section of `createThread` under the lock, in a call by `creator`. -/
  | createThread (creator thread : Thread)
  /-- `terminateCallingThread` up to the exchange. -/
  | compareExchange (thread : Thread) (status : BitVec 8)
  /-- The section of `forceTerminateSiblings` under the lock. -/
  | forceTerminateSiblings (thread : Thread)
  | exitThread (thread : Thread)
  | checkPendingKill (thread : Thread)
  /-- A terminated thread is taken from the list. -/
  | cleanup (thread : Thread)
  deriving DecidableEq

namespace Threads

variable {Thread : Type} [DecidableEq Thread]

/-- The exchange of `terminating`; the loser terminates at once. -/
def terminateCallingThread (s : Threads Thread) (t : Thread) (status : BitVec 8) :
    Threads Thread :=
  if s.terminating then { s with activity := update s.activity t .terminated }
  else { s with terminating := true, activity := update s.activity t (.won status) }

def next (s : Threads Thread) : ThreadStep Thread → Option (Threads Thread)
  | .createThread creator t =>
    if s.activity creator = .running ∧ creator ∈ s.threads ∧ s.activity t = .unborn then
      some { s with
        threads := t :: s.threads
        activity := update s.activity t .running
        pendingKill := update s.pendingKill t false }
    else none
  | .compareExchange t status =>
    if s.activity t = .running ∧ t ∈ s.threads then some (s.terminateCallingThread t status)
    else none
  | .forceTerminateSiblings t =>
    match s.activity t with
    | .won status =>
      some { s with
        activity := update s.activity t .terminated
        pendingKill := fun u => if u ∈ s.threads ∧ u ≠ t then true else s.pendingKill u
        exitStatus := status
        winner := some t }
    | _ => none
  | .exitThread t =>
    if s.activity t = .running ∧ t ∈ s.threads then
      some { s with activity := update s.activity t .terminated }
    else none
  | .checkPendingKill t =>
    if s.activity t = .running ∧ t ∈ s.threads ∧ s.pendingKill t = true then
      some { s.terminateCallingThread t s.exitStatus with
        pendingKill := update s.pendingKill t false }
    else none
  | .cleanup t =>
    if s.activity t = .terminated then some { s with threads := s.threads.filter (· ≠ t) }
    else none

/-- Any number of running threads, and nobody terminates the process. -/
def Initial (s : Threads Thread) : Prop :=
  (∀ t, s.activity t = if t ∈ s.threads then .running else .unborn) ∧
    (∀ t, s.pendingKill t = false) ∧ s.terminating = false ∧ s.winner = none

def system : System (Threads Thread) (ThreadStep Thread) := System.ofNext Initial next

/-- After the marking every thread of the list but the caller is marked or has terminated. A
thread that took its mark counts as terminated: taking the mark and terminating are one step. -/
def AllReached (s : Threads Thread) : Prop :=
  ∀ w, s.winner = some w → ∀ t ∈ s.threads, t ≠ w →
    s.pendingKill t = true ∨ s.activity t = .terminated

def addsBefore (s : Threads Thread) : ThreadStep Thread → Prop
  | .createThread _ _ => s.winner = none
  | _ => True

instance (s : Threads Thread) : (a : ThreadStep Thread) → Decidable (addsBefore s a)
  | .createThread _ _ => inferInstanceAs (Decidable (s.winner = none))
  | .compareExchange .. | .forceTerminateSiblings _ | .exitThread _ | .checkPendingKill _
  | .cleanup _ => inferInstanceAs (Decidable True)

/-- The marks and the winner come from a thread that has won the exchange, and one thread wins. -/
structure Coherent (s : Threads Thread) : Prop where
  unborn : ∀ t ∈ s.threads, s.activity t ≠ .unborn
  won : ∀ t status, s.activity t = .won status → s.terminating = true ∧ s.winner = none
  unique : ∀ t u status status', s.activity t = .won status → s.activity u = .won status' → t = u
  pending : ∀ t, s.pendingKill t = true → s.terminating = true
  winner : ∀ t, s.winner = some t → s.terminating = true ∧ s.activity t = .terminated

variable {s s' : Threads Thread} {a : ThreadStep Thread}

theorem Initial.coherent (h : s.Initial) : s.Coherent := by
  obtain ⟨hactivity, hpending, -, hwinner⟩ := h
  have hnever (t : Thread) (status : BitVec 8) : s.activity t ≠ .won status := by
    rw [hactivity]
    split <;> simp
  refine ⟨?_, ?_, ?_, ?_, ?_⟩
  · intro t ht
    rw [hactivity, if_pos ht]
    simp
  · intro t status hwon
    exact absurd hwon (hnever t status)
  · intro t u status status' hwon
    exact absurd hwon (hnever t status)
  · intro t hmark
    rw [hpending] at hmark
    cases hmark
  · intro t hsome
    rw [hwinner] at hsome
    cases hsome

variable {t : Thread}

private theorem Coherent.set {activity : Activity} {threads : List Thread}
    {pendingKill : Thread → Bool} (h : s.Coherent)
    (hset : activity = .running ∧ s.activity t = .unborn ∨ activity = .terminated)
    (hthreads : ∀ u ∈ threads, u ≠ t → u ∈ s.threads)
    (hmarks : ∀ u, pendingKill u = true → s.pendingKill u = true) :
    Coherent { s with threads, activity := update s.activity t activity, pendingKill } := by
  have hstill (u : Thread) (status : BitVec 8)
      (hwon : update s.activity t activity u = .won status) : s.activity u = .won status := by
    rw [update_apply] at hwon
    split at hwon
    · rcases hset with ⟨rfl, -⟩ | rfl <;> cases hwon
    · exact hwon
  refine ⟨?_, ?_, ?_, ?_, ?_⟩
  · intro u hu
    simp only [update_apply]
    split
    · rcases hset with ⟨rfl, -⟩ | rfl <;> simp
    · next hne => exact h.unborn u (hthreads u hu hne)
  · intro u status hwon
    exact h.won u status (hstill u status hwon)
  · intro u v status status' hu hv
    exact h.unique u v status status' (hstill u status hu) (hstill v status' hv)
  · intro u hmark
    exact h.pending u (hmarks u hmark)
  · intro u hsome
    obtain ⟨hterm, hended⟩ := h.winner u hsome
    refine ⟨hterm, ?_⟩
    simp only [update_apply]
    split
    · next heq =>
      rcases hset with ⟨-, hunborn⟩ | rfl
      · rw [heq, hunborn] at hended
        cases hended
      · rfl
    · exact hended

private theorem marked_of_update {u : Thread} (h : update s.pendingKill t false u = true) :
    s.pendingKill u = true := by
  rw [update_apply] at h
  split at h
  · cases h
  · exact h

variable {status : BitVec 8}

private theorem Coherent.win (h : s.Coherent) (hterm : s.terminating = false) :
    Coherent { s with terminating := true, activity := update s.activity t (.won status) } := by
  have hnone (u : Thread) (status' : BitVec 8) : s.activity u ≠ .won status' := by
    intro hwon
    rw [(h.won u status' hwon).1] at hterm
    cases hterm
  have hwinner : s.winner = none := by
    cases hw : s.winner with
    | none => rfl
    | some u =>
      rw [(h.winner u hw).1] at hterm
      cases hterm
  have hself (u : Thread) (status' : BitVec 8)
      (hwon : update s.activity t (.won status) u = .won status') : u = t := by
    rw [update_apply] at hwon
    split at hwon
    · assumption
    · exact absurd hwon (hnone u status')
  refine ⟨?_, ?_, ?_, ?_, ?_⟩
  · intro u hu
    simp only [update_apply]
    split
    · simp
    · exact h.unborn u hu
  · intro u status' _
    exact ⟨rfl, hwinner⟩
  · intro u v status₁ status₂ hu hv
    rw [hself u status₁ hu, hself v status₂ hv]
  · intro _ _
    rfl
  · intro u hsome
    rw [hwinner] at hsome
    cases hsome

private theorem AllReached.terminate {pendingKill : Thread → Bool}
    (h : s.AllReached) (hmarks : ∀ u, u ≠ t → pendingKill u = s.pendingKill u) :
    AllReached { s with activity := update s.activity t .terminated, pendingKill } := by
  intro w hw u hu hne
  simp only [update_apply]
  split
  · exact .inr rfl
  · next hut =>
    rw [hmarks u hut]
    exact h w hw u hu hne

/-- What a step keeps: the marks come from the winner, and it reaches every sibling while no thread
is added. -/
structure Keeps (s : Threads Thread) (a : ThreadStep Thread) (s' : Threads Thread) : Prop where
  coherent : s'.Coherent
  reached : addsBefore s a → s.AllReached → s'.AllReached

private theorem Coherent.terminateCallingThread (h : s.Coherent) :
    s.Keeps a (s.terminateCallingThread t status) := by
  rw [Threads.terminateCallingThread]
  split
  · exact ⟨h.set (.inr rfl) (fun _ hu _ => hu) fun _ => id,
      fun _ hall => hall.terminate fun _ _ => rfl⟩
  · next hterm =>
    exact ⟨h.win (Bool.eq_false_iff.mpr hterm), fun _ _ w hw => absurd (h.winner w hw).1 hterm⟩

theorem Coherent.next (h : s.Coherent) (hnext : s.next a = some s') : s.Keeps a s' := by
  cases a with
  | createThread creator t =>
    simp only [Threads.next] at hnext
    split at hnext
    · next henabled =>
      cases hnext
      refine ⟨h.set (.inl ⟨rfl, henabled.2.2⟩)
        (fun u hu hne => (mem_cons.mp hu).resolve_left hne) fun _ => marked_of_update,
        fun ha _ w hw => ?_⟩
      rw [show s.winner = none from ha] at hw
      cases hw
    · cases hnext
  | compareExchange t status =>
    simp only [Threads.next] at hnext
    split at hnext
    · cases hnext
      exact h.terminateCallingThread
    · cases hnext
  | forceTerminateSiblings t =>
    simp only [Threads.next] at hnext
    split at hnext
    · next status hwon =>
      cases hnext
      obtain ⟨hterm, -⟩ := h.won t status hwon
      have hnone (u : Thread) (status' : BitVec 8) :
          update s.activity t .terminated u ≠ .won status' := by
        rw [update_apply]
        split
        · simp
        · next hne => exact fun hu => hne (h.unique u t status' status hu hwon)
      refine ⟨⟨?_, ?_, ?_, ?_, ?_⟩, fun _ _ w hw u hu hne => ?_⟩
      · intro u hu
        simp only [update_apply]
        split
        · simp
        · exact h.unborn u hu
      · intro u status' hu
        exact absurd hu (hnone u status')
      · intro u v status₁ status₂ hu
        exact absurd hu (hnone u status₁)
      · intro _ _
        exact hterm
      · intro u hsome
        cases hsome
        exact ⟨hterm, update_self ..⟩
      · cases hw
        exact .inl (if_pos ⟨hu, hne⟩)
    · cases hnext
  | exitThread t =>
    simp only [Threads.next] at hnext
    split at hnext
    · cases hnext
      exact ⟨h.set (.inr rfl) (fun _ hu _ => hu) fun _ => id,
        fun _ hall => hall.terminate fun _ _ => rfl⟩
    · cases hnext
  | checkPendingKill t =>
    simp only [Threads.next] at hnext
    split at hnext
    · next henabled =>
      cases hnext
      rw [Threads.terminateCallingThread, if_pos (h.pending t henabled.2.2)]
      exact ⟨h.set (.inr rfl) (fun _ hu _ => hu) fun _ => marked_of_update,
        fun _ hall => hall.terminate fun u hu => update_of_ne hu ..⟩
    · cases hnext
  | cleanup t =>
    simp only [Threads.next] at hnext
    split at hnext
    · cases hnext
      exact ⟨⟨fun u hu => h.unborn u (mem_filter.mp hu).1, h.won, h.unique, h.pending,
        h.winner⟩, fun _ hall w hw u hu => hall w hw u (mem_filter.mp hu).1⟩
    · cases hnext

theorem not_allReached_of_createThread {creator : Thread} (hc : s.Coherent)
    (hwinner : s.winner ≠ none) (hnext : s.next (.createThread creator t) = some s') :
    ¬ s'.AllReached := by
  simp only [Threads.next] at hnext
  split at hnext
  · next henabled =>
    cases hnext
    obtain ⟨w, hw⟩ := ne_none_iff_exists'.mp hwinner
    have hne : t ≠ w := by
      intro heq
      have hended := (hc.winner w hw).2
      rw [← heq, henabled.2.2] at hended
      cases hended
    intro hall
    have ht := hall w hw t mem_cons_self hne
    simp at ht
  · cases hnext

/-- While threads are added before the marking only, every sibling is reached; one that is added
later is missed. -/
theorem siblings_reached :
    (system.Reachable addsBefore s → s.AllReached) ∧
    (system.Reachable anyStep s → ¬ addsBefore s a → s.next a = some s' → ¬ s'.AllReached) := by
  refine ⟨fun h => ?_, fun h ha hnext => ?_⟩
  · refine (@System.Reachable.invariant _ _ system addsBefore
      (fun s => s.Coherent ∧ s.AllReached) ?_ ?_ s h).2
    · intro s hs
      refine ⟨Initial.coherent hs, fun w hw => ?_⟩
      rw [hs.2.2.2] at hw
      cases hw
    · intro s a s' hinv hadds hstep
      exact ⟨(hinv.1.next hstep).coherent, (hinv.1.next hstep).reached hadds hinv.2⟩
  · have hc : s.Coherent := h.invariant (fun _ => Initial.coherent)
      fun _ _ _ hinv _ hstep => (hinv.next hstep).coherent
    cases a with
    | createThread creator t => exact not_allReached_of_createThread hc ha hnext
    | compareExchange | forceTerminateSiblings | exitThread | checkPendingKill | cleanup =>
      exact absurd trivial ha

def pair : Threads ℕ where
  threads := [0, 1]
  activity := fun t => if t ∈ [0, 1] then .running else .unborn
  pendingKill := fun _ => false

theorem pair_initial : pair.Initial := ⟨fun _ => rfl, fun _ => rfl, rfl, rfl⟩

/-- A thread that is added between the exchange and the marking is marked. -/
theorem siblings_reached_added : ∃ s : Threads ℕ,
    system.Reachable addsBefore s ∧ s.winner = some 0 ∧ s.threads = [2, 0, 1] ∧
    s.AllReached := by
  have hrun : (runNext (restrict addsBefore next) pair
      [.compareExchange 0 1, .createThread 1 2, .forceTerminateSiblings 0]).map
      (fun s => (s.winner, s.threads)) = some (some 0, [2, 0, 1]) := by decide
  obtain ⟨s, hs, hstate⟩ := map_eq_some_iff.mp hrun
  obtain ⟨hwinner, hthreads⟩ := Prod.mk.inj hstate
  have hpair : (ofNext Initial next).Reachable addsBefore pair := .init pair_initial
  have hreach : system.Reachable addsBefore s := restrict_reachable _ hpair hs
  exact ⟨s, hreach, hwinner, hthreads, (@siblings_reached _ _ s s (.cleanup 0)).1 hreach⟩

/-- Thread 1 adds thread 2 after thread 0 has marked its siblings. -/
theorem sibling_missed : ∃ s : Threads ℕ, system.Reachable anyStep s ∧ s.winner = some 0 ∧
    2 ∈ s.threads ∧ s.pendingKill 2 = false ∧ s.activity 2 = .running := by
  have hrun : (runNext next pair
      [.compareExchange 0 1, .forceTerminateSiblings 0, .createThread 1 2]).map
      (fun s => (s.winner, s.threads, s.pendingKill 2, s.activity 2)) =
        some (some 0, [2, 0, 1], false, .running) := by decide
  obtain ⟨s, hs, hstate⟩ := map_eq_some_iff.mp hrun
  simp only [Prod.mk.injEq] at hstate
  obtain ⟨hwinner, hthreads, hmark, hrunning⟩ := hstate
  have hpair : (ofNext Initial next).Reachable anyStep pair := .init pair_initial
  refine ⟨s, runNext_reachable _ hpair hs, hwinner, ?_, hmark, hrunning⟩
  rw [hthreads]
  exact mem_cons_self

end Threads

end Innigkeit.User.Process

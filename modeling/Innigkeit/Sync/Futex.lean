import Innigkeit.Library.Transition
import Innigkeit.User.Syscall
import Mathlib.Data.Finset.Card
import Mathlib.Data.Fintype.Basic

/-!
The futexes of the kernel. All processes share the buckets, and a task in a bucket is
known by the virtual address that it waits for, not by its address space. A wake
therefore takes the first tasks that wait for the address, of whatever process.

Every section under the lock of a bucket is one step. The loops that sort the queue
of a bucket into the tasks that leave and the tasks that stay are one loop, with
what makes a task leave and what is done to it as parameters.
-/

namespace Innigkeit.Sync

open Function Transition List System

def numBuckets : ℕ := 256

instance : NeZero numBuckets := ⟨by decide⟩

inductive Futex.Activity where
  | running
  | blocked
  /-- Woken, and not yet back in `wait`. -/
  | woken
  /-- Taken from its bucket without being woken. -/
  | cancelled
  deriving DecidableEq, Repr

/-- The reasons that a wait on a futex word gives for blocking. -/
inductive Futex.BlockReason where
  | futex
  | futexTimeout

structure Futex (Task : Type) where
  queues : Fin numBuckets → List Task
  futexAddr : Task → ℕ
  futexTimeoutMs : Task → ℕ
  blockReason : Task → Futex.BlockReason
  activity : Task → Futex.Activity

namespace Futex

/-- `((addr >> 2) *% 2654435761) % num_buckets` -/
def bucketOf (addr : ℕ) : Fin numBuckets :=
  Fin.ofNat numBuckets ((addr >>> 2) * 2654435761 % 2 ^ 64)

def userBuffer (ptr len : ℕ) : Bool :=
  if len = 0 then true
  else if (ptr + len) % 2 ^ 64 < ptr then false
  else User.userMemoryRange.address ≤ ptr && ptr + len ≤ User.userMemoryRange.stop

variable {Task : Type} [DecidableEq Task]

/-- The loop over a queue: the tasks that are left, and what became of the state. -/
def drain {State : Type} (leaves : State → Task → Bool) (act : State → Task → State) :
    State → List Task → List Task × State
  | s, [] => ([], s)
  | s, t :: rest =>
    if leaves s t then drain leaves act (act s t) rest
    else
      let (unmatched, s) := drain leaves act s rest
      (t :: unmatched, s)

def setQueue (s : Futex Task) (bucket : Fin numBuckets) (queue : List Task) : Futex Task :=
  { s with queues := update s.queues bucket queue }

def block (s : Futex Task) (t : Task) (addr deadlineMs : ℕ) (reason : BlockReason) :
    Futex Task :=
  let bucket := bucketOf addr
  { s with
    queues := update s.queues bucket (s.queues bucket ++ [t])
    futexAddr := update s.futexAddr t addr
    futexTimeoutMs := update s.futexTimeoutMs t deadlineMs
    blockReason := update s.blockReason t reason
    activity := update s.activity t .blocked }

/-- Both waits up to their return or to the wait in the queue; `loaded` is the result of the load
of the futex word. -/
def waitFor (s : Futex Task) (t : Task) (addr expected : ℕ) (loaded : Option ℕ)
    (deadlineMs : ℕ) (reason : BlockReason) : Futex Task :=
  if userBuffer addr 4 ∧ loaded = some expected then s.block t addr deadlineMs reason else s

def waitTimeout (s : Futex Task) (t : Task) (addr expected : ℕ) (loaded : Option ℕ)
    (deadlineMs : ℕ) : Futex Task :=
  s.waitFor t addr expected loaded deadlineMs .futexTimeout

/-- `wait` leaves `futex_timeout_ms` as it is. -/
def wait (s : Futex Task) (t : Task) (addr expected : ℕ) (loaded : Option ℕ) : Futex Task :=
  s.waitFor t addr expected loaded (s.futexTimeoutMs t) .futex

/-- The rest of `wait` and `waitTimeout` after the wakeup. -/
def resume (s : Futex Task) (t : Task) : Futex Task :=
  { s with
    futexAddr := update s.futexAddr t 0
    futexTimeoutMs := match s.blockReason t with
      | .futex => s.futexTimeoutMs
      | .futexTimeout => update s.futexTimeoutMs t 0
    activity := update s.activity t .running }

def wakeTask (s : Futex Task) (t : Task) : Futex Task :=
  { s with futexAddr := update s.futexAddr t 0, activity := update s.activity t .woken }

def wake (s : Futex Task) (addr maxWake : ℕ) : ℕ × Futex Task :=
  if maxWake = 0 then (0, s)
  else
    let bucket := bucketOf addr
    let (unmatched, s, woken) := drain
      (fun (s, woken) t => s.futexAddr t = addr ∧ woken < maxWake)
      (fun (s, woken) t => (s.wakeTask t, woken + 1))
      (s, 0) (s.queues bucket)
    (woken, s.setQueue bucket unmatched)

def timeoutTask (s : Futex Task) (t : Task) : Futex Task :=
  { s.wakeTask t with futexTimeoutMs := update s.futexTimeoutMs t 0 }

def tickBucket (nowMs : ℕ) (s : Futex Task) (bucket : Fin numBuckets) : Futex Task :=
  let (unmatched, s) := drain
    (fun s t => s.futexTimeoutMs t ≠ 0 ∧ s.futexTimeoutMs t ≤ nowMs)
    timeoutTask s (s.queues bucket)
  s.setQueue bucket unmatched

def tick (s : Futex Task) (nowMs : ℕ) : Futex Task :=
  (List.finRange numBuckets).foldl (tickBucket nowMs) s

/-- A task that is taken from its queue without being woken. -/
def cancelTask (s : Futex Task) (t : Task) : Futex Task :=
  { s with activity := update s.activity t .cancelled }

/-- `cancel`; the task is about to be freed. -/
def cancel (s : Futex Task) (t : Task) : Futex Task :=
  if s.futexAddr t = 0 then s
  else
    let bucket := bucketOf (s.futexAddr t)
    let (unmatched, s) := drain (fun _ u => u = t) cancelTask s (s.queues bucket)
    let s := s.setQueue bucket unmatched
    { s with
      futexAddr := update s.futexAddr t 0
      futexTimeoutMs := update s.futexTimeoutMs t 0 }

inductive Section (Task : Type) where
  | wait (task : Task) (addr expected : ℕ) (loaded : Option ℕ)
  | waitTimeout (task : Task) (addr expected : ℕ) (loaded : Option ℕ) (deadlineMs : ℕ)
  | resume (task : Task)
  | wake (addr maxWake : ℕ)
  | tick (nowMs : ℕ)
  | cancel (task : Task)
  deriving DecidableEq

def next (s : Futex Task) : Section Task → Option (Futex Task)
  | .wait t addr expected loaded =>
    if s.activity t = .running then some (s.wait t addr expected loaded) else none
  | .waitTimeout t addr expected loaded deadlineMs =>
    if s.activity t = .running then some (s.waitTimeout t addr expected loaded deadlineMs)
    else none
  | .resume t => if s.activity t = .woken then some (s.resume t) else none
  | .wake addr maxWake => some (s.wake addr maxWake).2
  | .tick nowMs => some (s.tick nowMs)
  | .cancel t => some (s.cancel t)

def Initial (s : Futex Task) : Prop :=
  (∀ bucket, s.queues bucket = []) ∧ ∀ t, s.activity t = .running ∧ s.futexAddr t = 0

def system : System (Futex Task) (Section Task) := System.ofNext Initial next

/-- The queue of a bucket holds the tasks that are blocked on its addresses, each once. -/
structure Queued (s : Futex Task) : Prop where
  nodup : ∀ bucket, (s.queues bucket).Nodup
  mem : ∀ bucket t,
    t ∈ s.queues bucket ↔ s.activity t = .blocked ∧ bucketOf (s.futexAddr t) = bucket
  cleared : ∀ t, s.activity t ≠ .blocked → s.futexAddr t = 0

variable {s s' : Futex Task} {a : Section Task}

/-- What a loop over a queue does: the tasks that leave are no longer blocked, and nothing happens
to the others. -/
structure Drained (s : Futex Task) (queue unmatched : List Task) (s' : Futex Task) : Prop where
  sublist : unmatched.Sublist queue
  queues : s'.queues = s.queues
  kept : ∀ t, t ∉ queue ∨ t ∈ unmatched →
    s'.activity t = s.activity t ∧ s'.futexAddr t = s.futexAddr t
  left : ∀ t ∈ queue, t ∉ unmatched → s'.activity t ≠ .blocked

section

/-- A change of one task, which then is not blocked. -/
structure Unblocks (s : Futex Task) (t : Task) (s' : Futex Task) : Prop where
  queues : s'.queues = s.queues
  kept : ∀ u, u ≠ t → s'.activity u = s.activity u ∧ s'.futexAddr u = s.futexAddr u
  left : s'.activity t ≠ .blocked

theorem wakeTask_unblocks (s : Futex Task) (t : Task) : s.Unblocks t (s.wakeTask t) := by
  refine ⟨rfl, fun u hu => ?_, ?_⟩
  · simp [wakeTask, update_of_ne hu]
  · simp [wakeTask]

theorem timeoutTask_unblocks (s : Futex Task) (t : Task) : s.Unblocks t (s.timeoutTask t) := by
  obtain ⟨hqueues, hkept, hleft⟩ := s.wakeTask_unblocks t
  exact ⟨hqueues, hkept, hleft⟩

theorem cancelTask_unblocks (s : Futex Task) (t : Task) : s.Unblocks t (s.cancelTask t) := by
  refine ⟨rfl, fun u hu => ⟨?_, rfl⟩, ?_⟩
  · simp [cancelTask, update_of_ne hu]
  · simp [cancelTask]

variable {State : Type} {queue : List Task}
variable {leaves : State → Task → Bool} {act : State → Task → State}

/-- The loop, when what is done to a task that leaves is a change of that task only. -/
theorem drain_drained (futex : State → Futex Task)
    (hact : ∀ x t, (futex x).Unblocks t (futex (act x t))) (x : State) (hnodup : queue.Nodup) :
    (futex x).Drained queue (drain leaves act x queue).1 (futex (drain leaves act x queue).2) := by
  induction queue generalizing x with
  | nil => exact ⟨List.Sublist.refl _, rfl, fun _ _ => ⟨rfl, rfl⟩, fun _ h => by cases h⟩
  | cons t rest ih =>
    obtain ⟨hnot, hrest⟩ := nodup_cons.mp hnodup
    rw [drain]
    split
    · obtain ⟨hsub, hqueues, hkept, hleft⟩ := ih (act x t) hrest
      obtain ⟨hqueues', hkept', hleft'⟩ := hact x t
      have hout : t ∉ (drain leaves act (act x t) rest).1 := fun h => hnot (hsub.subset h)
      refine ⟨hsub.cons t, hqueues.trans hqueues', ?_, ?_⟩
      · intro u hu
        have hne : u ≠ t := by
          intro heq
          cases hu with
          | inl hnone => exact hnone (heq ▸ mem_cons_self)
          | inr hin => exact hout (heq ▸ hin)
        have hu' : u ∉ rest ∨ u ∈ (drain leaves act (act x t) rest).1 :=
          hu.imp_left fun hnone hmem => hnone (mem_cons_of_mem _ hmem)
        rw [(hkept u hu').1, (hkept u hu').2]
        exact hkept' u hne
      · intro u hu hgone
        cases mem_cons.mp hu with
        | inl heq =>
          rw [heq, (hkept t (.inl hnot)).1]
          exact hleft'
        | inr hmem => exact hleft u hmem hgone
    · obtain ⟨hsub, hqueues, hkept, hleft⟩ := ih x hrest
      refine ⟨hsub.cons_cons t, hqueues, ?_, ?_⟩
      · intro u hu
        by_cases hmem : u ∈ rest
        · refine hkept u (.inr ?_)
          cases hu with
          | inl hnone => exact absurd (mem_cons_of_mem _ hmem) hnone
          | inr hin =>
            cases mem_cons.mp hin with
            | inl heq => exact absurd (heq ▸ hmem) hnot
            | inr hin => exact hin
        · exact hkept u (.inl hmem)
      · intro u hu hgone
        have hne : u ≠ t := fun heq => hgone (heq ▸ mem_cons_self)
        exact hleft u ((mem_cons.mp hu).resolve_left hne)
          fun hmem => hgone (mem_cons_of_mem _ hmem)

theorem drain_cleared
    (futex : State → Futex Task) (hact : ∀ x t, (futex x).Unblocks t (futex (act x t)))
    (hclear : ∀ x t, (futex (act x t)).futexAddr t = 0) (x : State) (hnodup : queue.Nodup) :
    ∀ t ∈ queue, t ∉ (drain leaves act x queue).1 →
      (futex (drain leaves act x queue).2).futexAddr t = 0 := by
  induction queue generalizing x with
  | nil =>
    intro t ht
    cases ht
  | cons u rest ih =>
    obtain ⟨hnot, hrest⟩ := nodup_cons.mp hnodup
    intro t ht hgone
    rw [drain] at hgone ⊢
    split at hgone
    · next hleaves =>
      rw [if_pos hleaves]
      cases mem_cons.mp ht with
      | inl heq =>
        rw [heq, ((drain_drained futex hact (act x u) hrest).kept u (.inl hnot)).2]
        exact hclear x u
      | inr hmem => exact ih (act x u) hrest t hmem hgone
    · next hstays =>
      rw [if_neg hstays]
      have hne : t ≠ u := fun heq => hgone (heq ▸ mem_cons_self)
      exact ih x hrest t ((mem_cons.mp ht).resolve_left hne)
        fun hmem => hgone (mem_cons_of_mem _ hmem)

/-- The queues after a loop, for the tasks that have left and whose address is cleared. -/
theorem Queued.drained {bucket : Fin numBuckets} {unmatched : List Task} (h : s.Queued)
    (hd : s.Drained (s.queues bucket) unmatched s')
    (hcleared : ∀ t ∈ s.queues bucket, t ∉ unmatched → s'.futexAddr t = 0) :
    (s'.setQueue bucket unmatched).Queued := by
  -- A task that was not changed is in the queue of its bucket, unless it has left that.
  have hsame (t : Task) (hblocked : s'.activity t = .blocked) :
      (t ∈ s.queues bucket → t ∈ unmatched) ∧
        s'.activity t = s.activity t ∧ s'.futexAddr t = s.futexAddr t := by
    by_cases hmem : t ∈ s.queues bucket
    · have hstays : t ∈ unmatched := by
        by_contra hgone
        exact hd.left t hmem hgone hblocked
      exact ⟨fun _ => hstays, hd.kept t (.inr hstays)⟩
    · exact ⟨fun h => absurd h hmem, hd.kept t (.inl hmem)⟩
  refine ⟨fun b => ?_, fun b t => ?_, fun t ht => ?_⟩
  · simp only [setQueue, update_apply, hd.queues]
    split
    · exact (h.nodup bucket).sublist hd.sublist
    · exact h.nodup b
  · simp only [setQueue, update_apply, hd.queues]
    split
    · next hb =>
      rw [hb]
      constructor
      · intro hmem
        obtain ⟨hactivity, haddr⟩ := hd.kept t (.inr hmem)
        rw [hactivity, haddr]
        exact (h.mem bucket t).mp (hd.sublist.subset hmem)
      · intro hblocked
        obtain ⟨hstays, hactivity, haddr⟩ := hsame t hblocked.1
        rw [hactivity, haddr] at hblocked
        exact hstays ((h.mem bucket t).mpr hblocked)
    · next hb =>
      rw [h.mem b t]
      constructor
      · intro hblocked
        have hout : t ∉ s.queues bucket := by
          intro hmem
          exact hb (hblocked.2.symm.trans ((h.mem bucket t).mp hmem).2)
        obtain ⟨hactivity, haddr⟩ := hd.kept t (.inl hout)
        rw [hactivity, haddr]
        exact hblocked
      · intro hblocked
        obtain ⟨-, hactivity, haddr⟩ := hsame t hblocked.1
        rw [hactivity, haddr] at hblocked
        exact hblocked
  · by_cases hmem : t ∈ s.queues bucket
    · by_cases hstays : t ∈ unmatched
      · obtain ⟨hactivity, haddr⟩ := hd.kept t (.inr hstays)
        exact absurd (hactivity.trans ((h.mem bucket t).mp hmem).1) ht
      · exact hcleared t hmem hstays
    · obtain ⟨hactivity, haddr⟩ := hd.kept t (.inl hmem)
      show s'.futexAddr t = 0
      rw [haddr]
      refine h.cleared t ?_
      rw [← hactivity]
      exact ht

end

section

section

variable (h : s.Queued)
include h

private theorem Queued.wake (addr maxWake : ℕ) : (s.wake addr maxWake).2.Queued := by
  rw [Futex.wake]
  split
  · exact h
  · exact h.drained
      (drain_drained Prod.fst (fun x t => x.1.wakeTask_unblocks t) (s, 0) (h.nodup _))
      (drain_cleared Prod.fst (fun x t => x.1.wakeTask_unblocks t)
        (fun _ _ => update_self ..) (s, 0) (h.nodup _))

private theorem Queued.tickBucket (nowMs : ℕ) (bucket : Fin numBuckets) :
    (tickBucket nowMs s bucket).Queued :=
  h.drained (drain_drained id timeoutTask_unblocks s (h.nodup _))
    (drain_cleared id timeoutTask_unblocks (fun _ _ => update_self ..) s (h.nodup _))

private theorem Queued.tick (nowMs : ℕ) : (s.tick nowMs).Queued := by
  rw [Futex.tick]
  generalize List.finRange numBuckets = buckets
  induction buckets generalizing s with
  | nil => exact h
  | cons bucket buckets ih => exact ih (h.tickBucket nowMs bucket)

variable {t : Task}

private theorem Queued.resume (ht : s.activity t = .woken) : (s.resume t).Queued := by
  refine ⟨h.nodup, fun bucket u => ?_, fun u hu => ?_⟩
  · rw [Futex.resume, h.mem bucket u]
    simp only [update_apply]
    split
    · next heq => simp [heq, ht]
    · rfl
  · simp only [Futex.resume, update_apply] at hu ⊢
    split
    · rfl
    · next hne =>
      rw [if_neg hne] at hu
      exact h.cleared u hu

private theorem Queued.waitFor {addr expected deadlineMs : ℕ} {loaded : Option ℕ}
    {reason : BlockReason} (ht : s.activity t = .running) :
    (s.waitFor t addr expected loaded deadlineMs reason).Queued := by
  rw [Futex.waitFor]
  split
  · have hnot (bucket : Fin numBuckets) : t ∉ s.queues bucket := by
      intro hmem
      have hblocked := ((h.mem bucket t).mp hmem).1
      rw [ht] at hblocked
      cases hblocked
    refine ⟨fun bucket => ?_, fun bucket u => ?_, fun u hu => ?_⟩
    · simp only [block, update_apply]
      split
      · rw [(perm_append_singleton t _).nodup_iff]
        exact nodup_cons.mpr ⟨hnot _, h.nodup _⟩
      · exact h.nodup bucket
    · have hold : u ≠ t → (u ∈ s.queues bucket ↔
          s.activity u = .blocked ∧ bucketOf (s.futexAddr u) = bucket) := fun _ => h.mem bucket u
      simp only [block, update_apply]
      by_cases heq : u = t
      · rw [heq, if_pos rfl, if_pos rfl]
        split
        · next hb => simp [hb]
        · next hb => simp [hnot bucket, Ne.symm hb]
      · rw [if_neg heq, if_neg heq, ← h.mem bucket u]
        split
        · next hb => simp [hb, heq]
        · rfl
    · simp only [block, update_apply] at hu ⊢
      split
      · next heq => simp [heq] at hu
      · next hne =>
        rw [if_neg hne] at hu
        exact h.cleared u hu
  · exact h

end

omit [DecidableEq Task] in
private theorem drain_filter {State : Type} (leaves : Task → Bool) (act : State → Task → State)
    (x : State) (queue : List Task) :
    (drain (fun _ => leaves) act x queue).1 = queue.filter fun t => !leaves t := by
  induction queue generalizing x with
  | nil => rfl
  | cons t rest ih =>
    rw [drain, filter_cons]
    cases leaves t with
    | true => exact ih (act x t)
    | false => exact congrArg (t :: ·) (ih x)

private theorem Queued.cancel (h : s.Queued) (t : Task) : (s.cancel t).Queued := by
  rw [Futex.cancel]
  split
  · exact h
  · next hne =>
    have hblocked : s.activity t = .blocked := by
      by_contra hnot
      exact hne (h.cleared t hnot)
    have hmem : t ∈ s.queues (bucketOf (s.futexAddr t)) := (h.mem _ t).mpr ⟨hblocked, rfl⟩
    have hfilter := drain_filter (fun u => decide (u = t)) cancelTask s
      (s.queues (bucketOf (s.futexAddr t)))
    have hd : s.Drained _ (drain (fun _ u => decide (u = t)) cancelTask s
        (s.queues (bucketOf (s.futexAddr t)))).1 (drain _ cancelTask s _).2 :=
      drain_drained id cancelTask_unblocks s (h.nodup (bucketOf (s.futexAddr t)))
    cases hresult : drain (fun _ u => decide (u = t)) cancelTask s
      (s.queues (bucketOf (s.futexAddr t))) with
    | mk unmatched s₁ =>
      rw [hresult] at hfilter hd
      dsimp only at hfilter
      simp only [hresult]
      suffices hdone : s.Drained _ unmatched { s₁ with
          futexAddr := update s₁.futexAddr t 0
          futexTimeoutMs := update s₁.futexTimeoutMs t 0 } by
        refine h.drained hdone fun u hu hgone => ?_
        rw [hfilter] at hgone
        have hut : u = t := by simpa [hu] using hgone
        rw [hut]
        exact update_self ..
      refine ⟨hd.sublist, hd.queues, fun u hu => ?_, hd.left⟩
      have hut : u ≠ t := by
        intro heq
        rw [hfilter, heq] at hu
        simp [hmem] at hu
      refine ⟨(hd.kept u hu).1, ?_⟩
      show update s₁.futexAddr t 0 u = s.futexAddr u
      rw [update_of_ne hut]
      exact (hd.kept u hu).2

theorem Queued.next (h : s.Queued) (hnext : s.next a = some s') : s'.Queued := by
  cases a with
  | wait t addr expected loaded | waitTimeout t addr expected loaded deadlineMs =>
    simp only [Futex.next] at hnext
    split at hnext
    · next ht =>
      cases hnext
      exact h.waitFor ht
    · cases hnext
  | resume t =>
    simp only [Futex.next] at hnext
    split at hnext
    · next ht =>
      cases hnext
      exact h.resume ht
    · cases hnext
  | wake addr maxWake =>
    cases hnext
    exact h.wake addr maxWake
  | tick nowMs =>
    rw [← Option.some.inj hnext]
    exact h.tick nowMs
  | cancel t =>
    cases hnext
    exact h.cancel t

omit [DecidableEq Task] in
theorem Initial.queued (h : s.Initial) : s.Queued := by
  refine ⟨fun bucket => ?_, fun bucket t => ?_, fun t _ => (h.2 t).2⟩
  · rw [h.1]
    exact nodup_nil
  · rw [h.1, (h.2 t).1]
    exact iff_of_false not_mem_nil (by simp)

end

section

/-- The tasks that a wake takes: the first ones in the bucket that wait for the address. -/
def taken (s : Futex Task) (addr maxWake : ℕ) : List Task :=
  ((s.queues (bucketOf addr)).filter fun t => s.futexAddr t = addr).take maxWake

/-- The tasks of a queue that wait for the address, up to a number of them. -/
private def matching (s : Futex Task) (addr count : ℕ) (queue : List Task) : List Task :=
  (queue.filter fun t => s.futexAddr t = addr).take count

variable {queue : List Task}

private theorem matching_wakeTask {t : Task} {addr count : ℕ}
    (hnot : t ∉ queue) : (s.wakeTask t).matching addr count queue = s.matching addr count queue := by
  rw [matching, matching]
  congr 1
  refine filter_congr fun u hu => ?_
  have hne : u ≠ t := fun heq => hnot (heq ▸ hu)
  simp [wakeTask, update_of_ne hne]

private def wakeLoop (addr maxWake : ℕ) : Futex Task × ℕ → List Task →
    List Task × Futex Task × ℕ :=
  drain (fun x t => decide (x.1.futexAddr t = addr ∧ x.2 < maxWake))
    (fun x t => (x.1.wakeTask t, x.2 + 1))

private theorem wakeLoop_cons (addr maxWake : ℕ) (s : Futex Task) (woken : ℕ) (t : Task)
    (rest : List Task) : wakeLoop addr maxWake (s, woken) (t :: rest) =
      if s.futexAddr t = addr ∧ woken < maxWake then
        wakeLoop addr maxWake (s.wakeTask t, woken + 1) rest
      else (t :: (wakeLoop addr maxWake (s, woken) rest).1,
        (wakeLoop addr maxWake (s, woken) rest).2) := by
  simp only [wakeLoop, drain, decide_eq_true_eq]

private theorem wakeLoop_drained (addr maxWake : ℕ) (x : Futex Task × ℕ) (hnodup : queue.Nodup) :
    x.1.Drained queue (wakeLoop addr maxWake x queue).1 (wakeLoop addr maxWake x queue).2.1 :=
  drain_drained Prod.fst (fun x t => x.1.wakeTask_unblocks t) x hnodup

/-- When `woken` tasks were woken already, the loop wakes the next ones up to the maximum. -/
private theorem wakeLoop_spec (addr maxWake : ℕ) (hnodup : queue.Nodup) (woken : ℕ) :
    (wakeLoop addr maxWake (s, woken) queue).2.2 =
        woken + (s.matching addr (maxWake - woken) queue).length ∧
      (∀ t ∈ queue, t ∉ (wakeLoop addr maxWake (s, woken) queue).1 ↔
        t ∈ s.matching addr (maxWake - woken) queue) ∧
      ∀ t ∈ s.matching addr (maxWake - woken) queue,
        (wakeLoop addr maxWake (s, woken) queue).2.1.activity t = .woken := by
  induction queue generalizing s woken with
  | nil => simp [wakeLoop, drain, matching]
  | cons t rest ih =>
    obtain ⟨hnot, hrest⟩ := nodup_cons.mp hnodup
    rw [wakeLoop_cons]
    split
    · next hleaves =>
      obtain ⟨haddr, hlt⟩ := hleaves
      obtain ⟨hcount, hmem, hwoken⟩ := ih (s := s.wakeTask t) hrest (woken + 1)
      have hd := wakeLoop_drained addr maxWake (s.wakeTask t, woken + 1) hrest
      rw [matching_wakeTask hnot] at hcount hmem hwoken
      have hcons : s.matching addr (maxWake - woken) (t :: rest) =
          t :: s.matching addr (maxWake - (woken + 1)) rest := by
        have hsucc : maxWake - woken = maxWake - (woken + 1) + 1 := by omega
        rw [matching, filter_cons_of_pos (by simpa using haddr), hsucc, take_succ_cons, matching]
      rw [hcons]
      refine ⟨?_, ?_, ?_⟩
      · rw [hcount, length_cons]
        omega
      · intro u hu
        rw [mem_cons]
        cases mem_cons.mp hu with
        | inl heq =>
          rw [heq]
          exact iff_of_true (fun hin => hnot (hd.sublist.subset hin)) (.inl rfl)
        | inr hin =>
          have hne : u ≠ t := fun heq => hnot (heq ▸ hin)
          rw [or_iff_right hne]
          exact hmem u hin
      · intro u hu
        cases mem_cons.mp hu with
        | inl heq =>
          rw [heq, (hd.kept t (.inl hnot)).1]
          exact update_self ..
        | inr hin => exact hwoken u hin
    · next hstays =>
      obtain ⟨hcount, hmem, hwoken⟩ := ih (s := s) hrest woken
      have hsame : s.matching addr (maxWake - woken) (t :: rest) =
          s.matching addr (maxWake - woken) rest := by
        by_cases haddr : s.futexAddr t = addr
        · have hzero : maxWake - woken = 0 := by
            by_contra hne
            exact hstays ⟨haddr, by omega⟩
          rw [hzero, matching, matching, take_zero, take_zero]
        · rw [matching, filter_cons_of_neg (by simpa using haddr), matching]
      rw [hsame]
      refine ⟨hcount, ?_, hwoken⟩
      intro u hu
      by_cases heq : u = t
      · rw [heq]
        refine iff_of_false (fun hout => hout mem_cons_self) fun hin => ?_
        exact hnot (mem_of_mem_filter (mem_of_mem_take hin))
      · rw [mem_cons, not_or, and_iff_right heq]
        exact hmem u ((mem_cons.mp hu).resolve_left heq)

/-- A wake wakes the tasks that it takes, returns their number, and leaves the others alone. -/
theorem wake_spec (h : s.Queued) (addr maxWake : ℕ) :
    (s.wake addr maxWake).1 = (s.taken addr maxWake).length ∧
      ∀ t, s.activity t = .blocked →
        ((s.wake addr maxWake).2.activity t = .woken ↔ t ∈ s.taken addr maxWake) := by
  rw [wake]
  split
  · next hzero =>
    have hnone : s.taken addr maxWake = [] := by rw [taken, hzero, take_zero]
    rw [hnone]
    refine ⟨rfl, fun t ht => ?_⟩
    rw [ht]
    exact iff_of_false (by simp) not_mem_nil
  · have hnodup := h.nodup (bucketOf addr)
    obtain ⟨hcount, hmem, hwoken⟩ := wakeLoop_spec (s := s) addr maxWake hnodup 0
    have hd := wakeLoop_drained addr maxWake (s, 0) hnodup
    refine ⟨hcount.trans (zero_add _), fun t ht => ?_⟩
    constructor
    · intro hwake
      by_contra hnot
      have hkept : t ∉ s.queues (bucketOf addr) ∨
          t ∈ (wakeLoop addr maxWake (s, 0) (s.queues (bucketOf addr))).1 := by
        by_cases hin : t ∈ s.queues (bucketOf addr)
        · refine .inr ?_
          by_contra hgone
          exact hnot ((hmem t hin).mp hgone)
        · exact .inl hin
      have hsame : (wakeLoop addr maxWake (s, 0) (s.queues (bucketOf addr))).2.1.activity t =
        .woken := hwake
      rw [(hd.kept t hkept).1, ht] at hsame
      cases hsame
    · intro htaken
      exact hwoken t htaken

variable {Process : Type} [Fintype Task] (processOf : Task → Process) [DecidableEq Process]

def blockedOn (s : Futex Task) (p : Process) (addr : ℕ) : Finset Task :=
  {t | processOf t = p ∧ s.activity t = .blocked ∧ s.futexAddr t = addr}

def wokenBy (s s' : Futex Task) : Finset Task :=
  {t | s.activity t = .blocked ∧ s'.activity t = .woken}

/-- A wake by a process wakes only its own tasks that are blocked on the address, and as many of
them as there are up to the maximum; that number is returned. -/
def WakesOwn (s : Futex Task) (p : Process) (addr maxWake : ℕ) : Prop :=
  let (woken, s') := s.wake addr maxWake
  (∀ t ∈ wokenBy s s', t ∈ s.blockedOn processOf p addr) ∧
    (wokenBy s s').card = min maxWake (s.blockedOn processOf p addr).card ∧
    woken = (wokenBy s s').card

omit [DecidableEq Task] [Fintype Task] in
theorem mem_taken {addr maxWake : ℕ} {t : Task} (h : s.Queued)
    (ht : t ∈ s.taken addr maxWake) : s.activity t = .blocked ∧ s.futexAddr t = addr := by
  obtain ⟨hmem, haddr⟩ := mem_filter.mp (mem_of_mem_take ht)
  exact ⟨((h.mem _ t).mp hmem).1, of_decide_eq_true haddr⟩

omit [DecidableEq Task] [Fintype Task] in
theorem taken_nodup {addr maxWake : ℕ} (h : s.Queued) : (s.taken addr maxWake).Nodup :=
  ((h.nodup _).filter _).sublist (take_sublist ..)

theorem wokenBy_wake (h : s.Queued) (addr maxWake : ℕ) :
    wokenBy s (s.wake addr maxWake).2 = (s.taken addr maxWake).toFinset := by
  ext t
  rw [wokenBy, Finset.mem_filter, mem_toFinset, and_iff_right (Finset.mem_univ t)]
  constructor
  · intro ht
    exact ((wake_spec h addr maxWake).2 t ht.1).mp ht.2
  · intro ht
    have hblocked := (mem_taken h ht).1
    exact ⟨hblocked, ((wake_spec h addr maxWake).2 t hblocked).mpr ht⟩

/-- A wake is isolated if and only if the tasks that it takes, the first ones that wait for the
address, are of the process that issues it. -/
theorem wake_isolated_iff (h : system.Reachable anyStep s) (p : Process) (addr maxWake : ℕ) :
    s.WakesOwn processOf p addr maxWake ↔ ∀ t ∈ s.taken addr maxWake, processOf t = p := by
  have hq : s.Queued :=
    h.invariant (fun _ => Initial.queued) fun _ _ _ hinv _ hstep => hinv.next hstep
  have hcard : (s.taken addr maxWake).toFinset.card = (s.taken addr maxWake).length :=
    toFinset_card_of_nodup (taken_nodup hq)
  rw [WakesOwn]
  simp only [wokenBy_wake hq, (wake_spec hq addr maxWake).1, hcard, and_true]
  constructor
  · intro hown t ht
    have hmem := hown.1 t (mem_toFinset.mpr ht)
    exact (Finset.mem_filter.mp hmem).2.1
  · intro hown
    have hsub : (s.taken addr maxWake).toFinset ⊆ s.blockedOn processOf p addr := by
      intro t ht
      rw [mem_toFinset] at ht
      rw [blockedOn, Finset.mem_filter]
      exact ⟨Finset.mem_univ t, hown t ht, mem_taken hq ht⟩
    refine ⟨hsub, ?_⟩
    have hle : (s.taken addr maxWake).length ≤ (s.blockedOn processOf p addr).card :=
      hcard ▸ Finset.card_le_card hsub
    -- When the tasks that wait for the address are fewer than the maximum, all of them are taken.
    have hlength : (s.taken addr maxWake).length = min maxWake
        ((s.queues (bucketOf addr)).filter fun t => s.futexAddr t = addr).length :=
      length_take
    have hall : (s.blockedOn processOf p addr).card ≤
        ((s.queues (bucketOf addr)).filter fun t => s.futexAddr t = addr).length := by
      rw [← toFinset_card_of_nodup ((hq.nodup _).filter _)]
      refine Finset.card_le_card fun t ht => ?_
      obtain ⟨-, -, hblocked, haddr⟩ := Finset.mem_filter.mp ht
      rw [mem_toFinset, mem_filter]
      exact ⟨(hq.mem _ t).mpr ⟨hblocked, by rw [haddr]⟩, decide_eq_true haddr⟩
    omega

private def blank : Futex Bool where
  queues := fun _ => []
  futexAddr := fun _ => 0
  futexTimeoutMs := fun _ => 0
  blockReason := fun _ => .futex
  activity := fun _ => .running

private theorem blank_initial : blank.Initial := ⟨fun _ => rfl, fun _ => ⟨rfl, rfl⟩⟩

/-- Each of the two tasks is a process of its own, and they wait for the same virtual address. -/
private def share : List (Section Bool) :=
  [.wait false 0x1000 0 (some 0), .wait true 0x1000 0 (some 0)]

/-- A wake by the process of the task that came first. -/
theorem wake_isolated_first : ∃ s : Futex Bool, system.Reachable anyStep s ∧
    s.taken 0x1000 1 = [false] ∧ s.WakesOwn id false 0x1000 1 := by
  have hrun : (runNext next blank share).map (fun s => s.taken 0x1000 1) =
      some [false] := by decide
  obtain ⟨s, hs, htaken⟩ := Option.map_eq_some_iff.mp hrun
  have hblank : (ofNext Initial next).Reachable anyStep blank := .init blank_initial
  have hreach : system.Reachable anyStep s := runNext_reachable share hblank hs
  refine ⟨s, hreach, htaken, (wake_isolated_iff id hreach false 0x1000 1).mpr ?_⟩
  rw [htaken]
  decide

/-- A wake by the process of the other task wakes the task that came first, and its own task
stays blocked. -/
theorem wake_crosses : ∃ s : Futex Bool, system.Reachable anyStep s ∧
    s.blockedOn id true 0x1000 = {true} ∧ (s.wake 0x1000 1).1 = 1 ∧
    (s.wake 0x1000 1).2.activity false = .woken ∧ (s.wake 0x1000 1).2.activity true = .blocked ∧
    ¬ s.WakesOwn id true 0x1000 1 := by
  have hrun : (runNext next blank share).map (fun s => (s.activity false,
      s.blockedOn id true 0x1000, (s.wake 0x1000 1).1,
      (s.wake 0x1000 1).2.activity false, (s.wake 0x1000 1).2.activity true)) =
      some (.blocked, {true}, 1, .woken, .blocked) := by decide
  obtain ⟨s, hs, hstate⟩ := Option.map_eq_some_iff.mp hrun
  simp only [Prod.mk.injEq] at hstate
  obtain ⟨hbefore, hblocked, hcount, hfirst, hsecond⟩ := hstate
  have hblank : (ofNext Initial next).Reachable anyStep blank := .init blank_initial
  refine ⟨s, runNext_reachable share hblank hs, hblocked, hcount, hfirst, hsecond,
    fun hown => ?_⟩
  have hin : false ∈ wokenBy s (s.wake 0x1000 1).2 :=
    Finset.mem_filter.mpr ⟨Finset.mem_univ _, hbefore, hfirst⟩
  have hmine := hown.1 false hin
  rw [hblocked] at hmine
  exact absurd hmine (by decide)

end

end Futex

end Innigkeit.Sync

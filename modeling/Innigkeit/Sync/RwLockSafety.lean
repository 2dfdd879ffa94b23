import Innigkeit.Sync.RwLockInvariant

/-!
Mutual exclusion and wake-ups of the reader-writer lock. Exclusion holds in
every run in which the counts fit their fields. A wake-up can be lost: the last
reader may call `wakeOne` before the writer has entered the wait queue, and a
failed upgrade drops a reader without waking anybody. Runs without these two
steps never leave a writer parked that nobody is going to wake.
-/

namespace Innigkeit.Sync.RwLock

open Function Counting Transition System State

variable {Task : Type*} [Fintype Task]

theorem countsFit_of_card (hcard : Fintype.card Task < 2 ^ 31) (s : State Task) : s.CountsFit := by
  have hle : ∀ weight : Pc → ℕ, (∀ pc, weight pc ≤ 1) → total weight s.pc < 2 ^ 31 := by
    intro weight hone
    refine lt_of_le_of_lt ?_ hcard
    exact (Finset.sum_le_card_nsmul _ _ 1 fun t _ => hone (s.pc t)).trans (by simp)
  refine ⟨hle _ fun pc => ?_, hle _ fun pc => ?_⟩
  · cases pc <;> simp [Pc.writerShare]
  · cases pc <;> simp [Pc.readerShare]

variable [DecidableEq Task]

theorem reachable_countsFit (hcard : Fintype.card Task < 2 ^ 31) {s : State Task}
    (h : (system Task).Reachable anyStep s) : (system Task).Reachable countsFit s :=
  h.mono fun _ _ _ s' _ => countsFit_of_card hcard s'

/-! ### Mutual exclusion -/

/-- The task has acquired the lock and not given it up; a reader that tries to upgrade
keeps its hold until it takes its share out of the word. -/
def Pc.holds : Pc → Bool
  | .reading | .writing | .upgradeMutexLock | .upgradeSub | .upgradeDrop => true
  | _ => false

theorem Pc.holds_cases {pc : Pc} (h : pc.holds = true) : pc = .writing ∨ pc.readerShare = 1 := by
  cases pc <;> simp_all [Pc.holds, Pc.readerShare]

/-- While a task writes, no other task reads or writes, as long as the counts in the word do not
overflow; and once every task is idle again the word is back at zero. -/
theorem mutual_exclusion {s : State Task} (h : (system Task).Reachable countsFit s) :
    (∀ t u, s.pc t = .writing → u ≠ t → (s.pc u).holds = false) ∧
      ((∀ t, s.pc t = .idle) → s.word = 0) := by
  have hi := reachable_inv h
  constructor
  · intro t u ht hut
    by_contra hholds
    cases Pc.holds_cases (Bool.not_eq_false _ ▸ hholds) with
    | inl hu =>
      refine hut (hi.owner_unique ?_ ?_)
      · rw [hu]
        rfl
      · rw [ht]
        rfl
    | inr hu =>
      have hzero : s.readers = 0 := hi.excludes t (by rw [ht]; rfl)
      have hle : (s.pc u).readerShare ≤ s.readers := le_total Pc.readerShare s.pc u
      omega
  · intro hidle
    have hzero : ∀ weight : Pc → ℕ, weight .idle = 0 → total weight s.pc = 0 := by
      intro weight hweight
      rw [total_eq_zero]
      intro t
      rw [hidle t, hweight]
    rw [hi.word, writing, writers, readers, hzero _ rfl, hzero _ rfl, hzero _ rfl]
    rfl

/-- Two tasks: one has returned from `writeLock`, the other is turned away. -/
theorem mutual_exclusion_two_tasks :
    ∃ s : State (Fin 2), s.pc 0 = .writing ∧ (s.pc 1).holds = false := by
  refine ⟨_, ?_, (mutual_exclusion (reachable_countsFit (by decide)
    (runNext_reachable [(0, .writeLock), (0, .proceed), (0, .proceed), (1, .tryWriteLock)]
      (.init rfl) rfl))).1 0 1 ?_ (by decide)⟩
  · rfl
  · rfl

/-! ### Wake-ups -/

/-- A writer is parked, no reader is left and nobody is about to call `wakeOne`. -/
def LostWakeup (s : State Task) : Prop :=
  s.waitQueue ≠ [] ∧ s.word &&& readerMask = 0 ∧ ∀ t, s.pc t ≠ .wakeOne

/-- The last reader wakes a writer that is already in the wait queue, and it does not leave
through a failed upgrade while a writer waits for it. -/
def wakesWriter (s : State Task) (l : Task × Action) : Prop :=
  (s.pc l.1 = .wakeOne → s.waitQueue ≠ []) ∧
    (s.pc l.1 = .upgradeDrop → ¬ (s.word &&& readerMask = reader ∧ s.word &&& isWriting ≠ 0))
  deriving Decidable

def WriterWoken (s : State Task) : Prop :=
  ∀ t, s.pc t = .wait ∨ s.pc t = .parked → s.readers = 0 → ∃ u, s.pc u = .wakeOne

section

variable {s : State Task} {t : Task} {action : Action}

theorem waits_flagShare {pc : Pc} (h : pc = .wait ∨ pc = .parked) : 0 < pc.flagShare := by
  cases h with
  | inl h => rw [h]; decide
  | inr h => rw [h]; decide

theorem writerWoken_apply {e : Effect} (hi : Inv s) (hw : WriterWoken s)
    (h : (s.pc t).advance s.word s.mutex.isNone action = some e)
    (ha : wakesWriter s (t, action)) : WriterWoken (s.apply t e) := by
  have hm := Pc.advance_move h (hi.snapshot t)
  have hreaders := s.readers_apply t e
  have hone : (s.pc t).readerShare ≤ 1 := by
    cases s.pc t <;> simp [Pc.readerShare]
  intro v hv hzero
  by_cases hvt : v = t
  · subst hvt
    simp only [apply, update_self] at hv
    -- the task has just seen the readers it is going to wait for
    cases hv with
    | inl hv =>
      obtain ⟨hseen, hshare⟩ := hm.wait hv
      rw [hi.counts.readers_eq] at hseen
      rw [hv] at hreaders
      simp only [Pc.readerShare] at hreaders hshare
      omega
    | inr hv => exact absurd hv hm.to_ne
  · simp only [apply, update_of_ne hvt] at hv
    have hflag := waits_flagShare hv
    by_cases hbefore : s.readers = 0
    · obtain ⟨u, hu⟩ := hw v hv hbefore
      refine ⟨u, ?_⟩
      have hut : u ≠ t := by
        intro hut
        subst hut
        exact hm.from_ne.2.2 hu
      simpa only [apply, update_of_ne hut] using hu
    · -- the last reader leaves with this step
      have hwriting : s.writing = 1 := by
        have hle : (s.pc v).flagShare ≤ s.writing := le_total Pc.flagShare s.pc v
        have hmax := hi.writing_le
        omega
      have hlast : s.readers = 1 := by omega
      cases hm.drop (by omega) with
      | inl hown =>
        exact absurd (hi.owner_unique (Pc.flagShare_blocks hflag).1 hown) hvt
      | inr hrest =>
        cases hrest with
        | inl hdrop =>
          refine absurd ⟨?_, ?_⟩ (ha.2 hdrop)
          · rw [masked_eq_reader, hi.counts.readers_eq, hlast]
          · rw [and_isWriting, hi.counts.writing_eq, hwriting]
            decide
        | inr hwake =>
          rw [hi.counts.readers_eq, hi.counts.writing_eq] at hwake
          refine ⟨t, ?_⟩
          simp only [apply, update_self]
          exact hwake hlast hwriting

theorem writerWoken_wait (hw : WriterWoken s) (ht : s.pc t = .wait) : WriterWoken (s.wait t) := by
  intro v hv hzero
  have hreaders : (s.wait t).readers + (s.pc t).readerShare = s.readers + Pc.parked.readerShare :=
    total_update Pc.readerShare s.pc t .parked
  rw [ht] at hreaders
  obtain ⟨u, hu⟩ := hw t (.inl ht) (by simpa [Pc.readerShare, hzero] using hreaders.symm)
  exact ⟨u, (update_pc_eq (by decide) (by rw [ht]; decide)).mpr hu⟩

theorem writerWoken_wakeOne (hi : Inv s) (ht : s.pc t = .wakeOne) (ha : s.waitQueue ≠ []) :
    WriterWoken (s.wakeOne t) := by
  intro v hv
  exfalso
  cases hq : s.waitQueue with
  | nil => exact ha hq
  | cons first rest =>
    have hfirst : s.pc first = .parked := (hi.queue first).mp (by simp [hq])
    simp only [wakeOne, hq] at hv
    by_cases hvt : v = t
    · subst hvt
      simp [update_self] at hv
    · by_cases hvf : v = first
      · subst hvf
        simp [update_of_ne hvt] at hv
      · simp only [update_of_ne hvt, update_of_ne hvf] at hv
        refine hvf (hi.owner_unique (Pc.flagShare_blocks (waits_flagShare hv)).1 ?_)
        rw [hfirst]
        rfl

theorem writerWoken_next {s' : State Task} (hi : Inv s) (hw : WriterWoken s)
    (ha : wakesWriter s (t, action)) (h : s.next (t, action) = some s') : WriterWoken s' := by
  cases next_cases h with
  | inl h =>
    rw [h.2]
    exact writerWoken_wait hw h.1
  | inr h =>
    cases h with
    | inl h =>
      rw [h.2]
      exact writerWoken_wakeOne hi h.1 (ha.1 h.1)
    | inr h =>
      obtain ⟨e, he, hs⟩ := h
      rw [hs]
      exact writerWoken_apply hi hw he ha

omit [DecidableEq Task] in
theorem not_lostWakeup (hi : Inv s) (hw : WriterWoken s) : ¬ LostWakeup s := by
  intro h
  obtain ⟨hqueue, hmasked, hnone⟩ := h
  obtain ⟨v, hv⟩ := List.exists_mem_of_ne_nil _ hqueue
  rw [masked_eq_zero, hi.counts.readers_eq] at hmasked
  obtain ⟨u, hu⟩ := hw v (.inr ((hi.queue v).mp hv)) hmasked
  exact hnone u hu

omit [Fintype Task] in
/-- A writer that parks after the last wake-up sleeps on. -/
theorem lostWakeup_wait (ht : s.pc t = .wait) (hmasked : s.word &&& readerMask = 0)
    (hnone : ∀ u, s.pc u ≠ .wakeOne) : LostWakeup (s.wait t) := by
  refine ⟨by simp [wait], hmasked, fun u => ?_⟩
  rw [Ne, wait, update_pc_eq (by decide) (by rw [ht]; decide)]
  exact hnone u

/-- Nothing is lost yet, but one more step loses the wake-up, or it is lost already. -/
def LosesWakeup (s : State Task) : Prop :=
  LostWakeup s ∨ ∃ l s', s.next l = some s' ∧ LostWakeup s'

omit [Fintype Task] in
theorem losesWakeup_of_waiting {u : Task} (hu : s.pc u = .wait ∨ s.pc u = .parked)
    (hqueue : s.pc u = .parked → u ∈ s.waitQueue) (hmasked : s.word &&& readerMask = 0)
    (hnone : ∀ u, s.pc u ≠ .wakeOne) : LosesWakeup s := by
  cases hu with
  | inl hu =>
    refine .inr ⟨(u, .proceed), s.wait u, ?_, lostWakeup_wait hu hmasked hnone⟩
    simp only [next, hu]
  | inr hu => exact .inl ⟨List.ne_nil_of_mem (hqueue hu), hmasked, hnone⟩

theorem losesWakeup_wakeOne (hi : Inv s) (ht : s.pc t = .wakeOne) (hq : s.waitQueue = []) :
    LosesWakeup (s.wakeOne t) := by
  obtain ⟨hzero, _, u, hu⟩ := hi.waking t ht
  have hs : s.wakeOne t = { s with pc := update s.pc t .idle } := by
    simp only [wakeOne, hq]
  have hut : u ≠ t := by
    intro hut
    rw [hut, ht] at hu
    simp at hu
  rw [hs]
  refine losesWakeup_of_waiting (u := u) ?_ ?_ ?_ ?_
  · simpa only [update_of_ne hut] using hu
  · simp only [update_of_ne hut]
    exact (hi.queue u).mpr
  · simp only
    rw [masked_eq_zero, hi.counts.readers_eq, hzero]
  · intro v
    by_cases hvt : v = t
    · subst hvt
      simp only [update_self]
      decide
    · simp only [update_of_ne hvt]
      exact wakeOne_gone hi ht hvt

theorem losesWakeup_upgradeDrop {e : Effect} (hi : Inv s) (ht : s.pc t = .upgradeDrop)
    (h : (s.pc t).advance s.word s.mutex.isNone action = some e) (hfit : (s.apply t e).CountsFit)
    (hlast : s.word &&& readerMask = reader ∧ s.word &&& isWriting ≠ 0) :
    LosesWakeup (s.apply t e) := by
  have hi' := inv_apply hi h hfit
  have hpc : e.pc = .idle := by
    rw [ht] at h
    cases action with
    | proceed => cases h; rfl
    | _ => cases h
  obtain ⟨hreader, hflag⟩ := hlast
  rw [masked_eq_reader, hi.counts.readers_eq] at hreader
  rw [and_isWriting, hi.counts.writing_eq] at hflag
  obtain ⟨u, hu⟩ := exists_of_total_pos Pc.flagShare s.pc (pos_of_ne_zero hflag)
  have hut : u ≠ t := by
    intro hut
    rw [hut, ht] at hu
    exact absurd hu (by decide)
  have hpu : (s.apply t e).pc u = s.pc u := update_of_ne hut ..
  have hreaders := s.readers_apply t e
  rw [ht, hpc] at hreaders
  simp only [Pc.readerShare] at hreaders
  refine losesWakeup_of_waiting (u := u) ?_ (hi'.queue u).mpr ?_ ?_
  · rw [hpu]
    cases Pc.flagShare_cases hu with
    | inl hex => exact absurd (hi.excludes u hex) (by omega)
    | inr hwaits => exact hwaits
  · rw [masked_eq_zero, hi'.counts.readers_eq]
    omega
  · intro v hv
    have hold : s.pc v = .wakeOne :=
      (update_pc_eq (by rw [hpc]; decide) (by rw [ht]; decide)).mp hv
    have hzero := (hi.waking v hold).1
    omega

end

theorem losesWakeup_next {s s' : State Task} {l : Task × Action} (hi : Inv s)
    (h : s.next l = some s') (hfit : s'.CountsFit) (hbad : ¬ wakesWriter s l) : LosesWakeup s' := by
  obtain ⟨t, action⟩ := l
  cases next_cases h with
  | inl hwait =>
    refine absurd ⟨fun ht => ?_, fun ht => ?_⟩ hbad
    · exact absurd (hwait.1.symm.trans ht) (by decide)
    · exact absurd (hwait.1.symm.trans ht) (by decide)
  | inr h =>
    cases h with
    | inl hwake =>
      obtain ⟨ht, hs⟩ := hwake
      have hq : s.waitQueue = [] := by
        by_contra hq
        exact hbad ⟨fun _ => hq, fun hdrop => absurd (ht.symm.trans hdrop) (by decide)⟩
      rw [hs]
      exact losesWakeup_wakeOne hi ht hq
    | inr hstep =>
      obtain ⟨e, he, hs⟩ := hstep
      have hnot := (Pc.advance_move he (hi.snapshot t)).from_ne.2.2
      rw [hs] at hfit ⊢
      by_cases hdrop : s.pc t = .upgradeDrop
      · refine losesWakeup_upgradeDrop hi hdrop he hfit ?_
        by_contra hlast
        exact hbad ⟨fun ht => absurd ht hnot, fun _ => hlast⟩
      · exact absurd ⟨fun ht => absurd ht hnot, fun ht => absurd ht hdrop⟩ hbad

/-- No wake-up is lost in a run whose steps all meet `wakesWriter`, and the first step of a run
that does not meet it loses one, at once or with the step that parks the writer. -/
theorem no_lost_wakeup :
    (∀ s : State Task, (system Task).Reachable (fun s l => countsFit s l ∧ wakesWriter s l) s →
      ¬ LostWakeup s) ∧
    ∀ (s s' : State Task) (l : Task × Action),
      (system Task).Reachable (fun s l => countsFit s l ∧ wakesWriter s l) s →
      countsFit s l → s.next l = some s' → ¬ wakesWriter s l → LosesWakeup s' := by
  constructor
  · intro s h
    have hboth : Inv s ∧ WriterWoken s := by
      refine @System.Reachable.invariant _ _ _ _ (fun s => Inv s ∧ WriterWoken s) ?_ ?_ s h
      · intro s hs
        rw [show s = State.init from hs]
        refine ⟨inv_init, ?_⟩
        intro t ht
        simp [State.init] at ht
      · intro s l s' hi ha hs
        exact ⟨inv_next hi.1 hs (ha.1 s' hs), writerWoken_next hi.1 hi.2 ha.2 hs⟩
    exact not_lostWakeup hboth.1 hboth.2
  · intro s s' l h hfit hs hbad
    have hi : Inv s := reachable_inv (h.mono fun _ _ ha => ha.1)
    exact losesWakeup_next hi hs (hfit s' hs) hbad

theorem reachable_of_run (hcard : Fintype.card Task < 2 ^ 31) {s : State Task}
    (ls : List (Task × Action))
    (h : runNext (restrict wakesWriter State.next) State.init ls = some s) :
    (system Task).Reachable (fun s l => countsFit s l ∧ wakesWriter s l) s := by
  have hinit : (system Task).Reachable wakesWriter State.init := .init rfl
  have hrun : (system Task).Reachable wakesWriter s := restrict_reachable ls hinit h
  exact hrun.mono fun _ _ hl => ⟨fun s' _ => countsFit_of_card hcard s', hl⟩

/-- The reader unlocks after the writer has parked: the wake-up is on its way. -/
theorem no_lost_wakeup_parked_writer :
    ∃ s : State (Fin 2), s.waitQueue = [1] ∧ s.word &&& readerMask = 0 ∧ ¬ LostWakeup s := by
  refine ⟨_, ?_, ?_, no_lost_wakeup.1 _ (reachable_of_run (by decide)
    [(0, .readLock), (0, .proceed), (1, .writeLock), (1, .proceed), (1, .proceed), (1, .proceed),
      (0, .readUnlock)] rfl)⟩
  · rfl
  · rfl

/-- The reader drops its share after the writer has counted it and calls `wakeOne` before the
writer parks. -/
theorem wakeup_lost :
    ∃ s : State (Fin 2), (system (Fin 2)).Reachable anyStep s ∧ LostWakeup s := by
  refine ⟨_, runNext_reachable
    [(0, .readLock), (0, .proceed), (1, .writeLock), (1, .proceed), (1, .proceed),
      (0, .readUnlock), (0, .proceed), (1, .proceed)] (.init rfl) rfl, ?_⟩
  refine ⟨?_, ?_, ?_⟩
  · decide
  · decide
  · decide

end Innigkeit.Sync.RwLock

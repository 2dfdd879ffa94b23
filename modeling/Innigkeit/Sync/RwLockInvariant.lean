import Innigkeit.Library.BitFields
import Innigkeit.Library.Counting
import Innigkeit.Sync.RwLock
import Mathlib.Tactic.Ring

/-!
What the state word of the reader-writer lock means. Each position of a task
stands for a share of the word: one writing flag, pending writers and readers.
In every state of a run in which both counts stay below their field widths the
word is the sum of the shares, the mutex is owned by the task whose position
says so, and nobody reads beside a task that has the lock for writing.
-/

namespace Innigkeit.Sync.RwLock

open Function Counting List BitFields

/-! ### The fields of the word -/

structure Counts (word writing writers readers : ℕ) : Prop where
  eq : word = writing + 2 * writers + 2 ^ 32 * readers
  writing_le : writing ≤ 1
  writers_lt : writers < 2 ^ 31
  readers_lt : readers < 2 ^ 31

theorem masked_eq_zero (word : ℕ) : word &&& readerMask = 0 ↔ word / 2 ^ 32 % 2 ^ 31 = 0 := by
  have hmask : word &&& readerMask = word / 2 ^ 32 % 2 ^ 31 * 2 ^ 32 := and_mask word 32 31
  rw [hmask]
  omega

theorem masked_eq_reader (word : ℕ) :
    word &&& readerMask = reader ↔ word / 2 ^ 32 % 2 ^ 31 = 1 := by
  have hmask : word &&& readerMask = word / 2 ^ 32 % 2 ^ 31 * 2 ^ 32 := and_mask word 32 31
  have hreader : reader = 2 ^ 32 := by decide
  rw [hmask, hreader]
  omega

theorem and_isWriting (word : ℕ) : word &&& isWriting = word % 2 := Nat.and_one_is_mod word

theorem noWriter_iff (word : ℕ) : noWriter word = true ↔ word % 2 ^ 32 = 0 := by
  have hmask : isWriting ||| writerMask = 2 ^ 32 - 1 := by decide
  rw [noWriter, hmask, Nat.and_two_pow_sub_one_eq_mod, beq_iff_eq]

theorem rmwAnd_notWriting {word : ℕ} (h : word < 2 ^ 64) :
    rmwAnd word notWriting = word - word % 2 := by
  rw [rmwAnd, notWriting, and_mask]
  omega

theorem Counts.readers_eq {word writing writers readers : ℕ}
    (h : Counts word writing writers readers) : word / 2 ^ 32 % 2 ^ 31 = readers := by
  obtain ⟨heq, hwriting, hwriters, hreaders⟩ := h
  omega

theorem Counts.writing_eq {word writing writers readers : ℕ}
    (h : Counts word writing writers readers) : word % 2 = writing := by
  obtain ⟨heq, hwriting, hwriters, hreaders⟩ := h
  omega

theorem Counts.no_writer {word writing writers readers : ℕ}
    (h : Counts word writing writers readers) (hw : word % 2 ^ 32 = 0) :
    writing = 0 ∧ writers = 0 := by
  obtain ⟨heq, hwriting, hwriters, hreaders⟩ := h
  omega

/-! ### The share of a position -/

namespace Pc

def flagShare : Pc → ℕ
  | .wait | .parked | .woken | .writing => 1
  | _ => 0

def writerShare : Pc → ℕ
  | .writeMutexLock | .writeClaim | .upgradeMutexLock | .upgradeSub | .upgradeClaim
  | .upgradeRetract | .upgradeDrop => 1
  | _ => 0

def readerShare : Pc → ℕ
  | .reading | .readMutexUnlock | .upgradeMutexLock | .upgradeSub | .upgradeDrop => 1
  | _ => 0

def share (pc : Pc) : ℕ := pc.flagShare + 2 * pc.writerShare + 2 ^ 32 * pc.readerShare

def wakers : Pc → ℕ
  | .wakeOne => 1
  | _ => 0

def ownsMutex : Pc → Bool
  | .readAdd | .readMutexUnlock | .writeClaim | .wait | .parked | .woken | .writing
  | .tryWriteLoad | .tryWriteExchange _ | .upgradeSub | .upgradeClaim | .upgradeRetract
  | .mutexUnlock => true
  | _ => false

/-- The position is taken only when no reader is left. -/
def excludes : Pc → Bool
  | .woken | .writing | .upgradeClaim => true
  | _ => false

/-- What the test before an exchange has found out about the expected word. -/
def snapshotOk : Pc → Prop
  | .readExchange state | .tryReadExchange state => state % 2 ^ 32 = 0
  | .tryWriteExchange state => state / 2 ^ 32 % 2 ^ 31 = 0
  | _ => True

/-- A position whose task keeps new readers out: it owns the mutex and shows in the word. -/
def blocks (pc : Pc) : Prop := pc.ownsMutex = true ∧ 0 < pc.flagShare + pc.writerShare

theorem excludes_blocks {pc : Pc} (h : pc.excludes = true) : pc.blocks := by
  cases pc <;> simp_all [excludes, blocks, ownsMutex, flagShare, writerShare]

theorem excludes_readerShare {pc : Pc} (h : pc.excludes = true) : pc.readerShare = 0 := by
  cases pc <;> simp_all [excludes, readerShare]

theorem flagShare_cases {pc : Pc} (h : 0 < pc.flagShare) :
    pc.excludes = true ∨ pc = .wait ∨ pc = .parked := by
  cases pc <;> simp_all [excludes, flagShare]

theorem flagShare_blocks {pc : Pc} (h : 0 < pc.flagShare) : pc.blocks := by
  cases pc <;> simp_all [blocks, ownsMutex, flagShare, writerShare]

theorem flagShare_le (pc : Pc) : pc.flagShare ≤ 1 := by
  cases pc <;> simp [flagShare]

theorem wakers_pos {pc : Pc} : 0 < pc.wakers ↔ pc = .wakeOne := by
  cases pc <;> simp [wakers]

/-! ### One step of one task -/

variable {pc : Pc} {action : Action} {word writing writers readers : ℕ} {free : Bool} {e : Effect}

theorem readLockLoop_share (state : ℕ) : (readLockLoop state).share = 0 := by
  unfold readLockLoop
  split <;> rfl

theorem advance_word (h : pc.advance word free action = some e)
    (hc : Counts word writing writers readers)
    (hflag : pc.flagShare ≤ writing) (hwriters : pc.writerShare ≤ writers)
    (hreaders : pc.readerShare ≤ readers) (howns : pc.ownsMutex = true → writing = pc.flagShare) :
    e.word + pc.share = word + e.pc.share := by
  have hreader : reader = 2 ^ 32 := by decide
  have hwriter : writer = 2 := by decide
  have hclaim : claim = 2 ^ 64 - 1 := by decide
  obtain ⟨heq, hle, hwlt, hrlt⟩ := hc
  unfold advance at h
  split at h
  all_goals try split at h
  all_goals cases h
  all_goals try rw [readLockLoop_share]
  all_goals simp only [share, flagShare, writerShare, readerShare, ownsMutex,
    rmwAdd, rmwSub, hreader, hwriter, hclaim, forall_const] at *
  all_goals try omega
  -- what is left clears the flag with a mask or sets it with an `or`
  · rw [rmwAnd_notWriting (by omega)]
    omega
  · rw [isWriting, or_one_of_even (by omega)]
    omega

/-- What a step of a task at `pc` does besides changing the word. -/
structure Move (word : ℕ) (free : Bool) (pc : Pc) (e : Effect) : Prop where
  mutex :
    (e.mutex = .untouched ∧ e.pc.ownsMutex = pc.ownsMutex) ∨
      (e.mutex = .lock ∧ free = true ∧ pc.ownsMutex = false ∧ e.pc.ownsMutex = true) ∨
      (e.mutex = .unlock ∧ pc.ownsMutex = true ∧ e.pc.ownsMutex = false)
  snapshotOk : e.pc.snapshotOk
  /-- A reader is added with the mutex held or after a word without writers was seen. -/
  readerShare : e.pc.readerShare ≤ pc.readerShare ∨ pc.ownsMutex = true ∨ word % 2 ^ 32 = 0
  excludes : e.pc.excludes = true →
    pc.excludes = true ∨ word / 2 ^ 32 % 2 ^ 31 = pc.readerShare ∧ e.pc.readerShare = 0
  wakeOne : e.pc = .wakeOne →
    pc = .reading ∧ word / 2 ^ 32 % 2 ^ 31 = 1 ∧ word % 2 = 1
  /-- A writer goes to wait for the readers it has seen. -/
  wait : e.pc = .wait → word / 2 ^ 32 % 2 ^ 31 ≠ 0 ∧ pc.readerShare = 0
  /-- The last reader wakes the writer, unless it leaves through a failed upgrade. -/
  drop : e.pc.readerShare < pc.readerShare →
    pc.ownsMutex = true ∨ pc = .upgradeDrop ∨
      (word / 2 ^ 32 % 2 ^ 31 = 1 → word % 2 = 1 → e.pc = .wakeOne)
  from_ne : pc ≠ .parked ∧ pc ≠ .wait ∧ pc ≠ .wakeOne
  to_ne : e.pc ≠ .parked

theorem advance_move (h : pc.advance word free action = some e) (hs : pc.snapshotOk) :
    Move word free pc e := by
  unfold advance readLockLoop at h
  split at h
  all_goals try split at h
  all_goals cases h
  all_goals constructor
  all_goals try dsimp only
  all_goals try split
  all_goals simp_all [ownsMutex, snapshotOk, readerShare, excludes, noWriter_iff, masked_eq_zero,
    masked_eq_reader, and_isWriting]

end Pc

/-! ### The invariant -/

variable {Task : Type*} [Fintype Task]

namespace State

def writing (s : State Task) : ℕ := total Pc.flagShare s.pc
def writers (s : State Task) : ℕ := total Pc.writerShare s.pc
def readers (s : State Task) : ℕ := total Pc.readerShare s.pc

/-- Both counts stay below the width of their field. -/
def CountsFit (s : State Task) : Prop := s.writers < 2 ^ 31 ∧ s.readers < 2 ^ 31

theorem readers_apply [DecidableEq Task] (s : State Task) (t : Task) (e : Effect) :
    (s.apply t e).readers + (s.pc t).readerShare = s.readers + e.pc.readerShare :=
  total_update ..

end State

structure Inv (s : State Task) : Prop where
  fits : s.CountsFit
  word : s.word = s.writing + 2 * s.writers + 2 ^ 32 * s.readers
  mutex : ∀ t, s.mutex = some t ↔ (s.pc t).ownsMutex = true
  snapshot : ∀ t, (s.pc t).snapshotOk
  excludes : ∀ t, (s.pc t).excludes = true → s.readers = 0
  /-- One task at most is about to wake, and then the writer it wakes has no reader to wait for. -/
  waking : ∀ t, s.pc t = .wakeOne →
    s.readers = 0 ∧ total Pc.wakers s.pc = 1 ∧ ∃ u, s.pc u = .wait ∨ s.pc u = .parked
  queue : ∀ t, t ∈ s.waitQueue ↔ s.pc t = .parked
  nodup : s.waitQueue.Nodup

namespace Inv

variable {s : State Task} (hi : Inv s)

include hi

theorem owner_unique {t u : Task} (ht : (s.pc t).ownsMutex = true)
    (hu : (s.pc u).ownsMutex = true) : t = u := by
  have h1 := (hi.mutex t).mpr ht
  rw [(hi.mutex u).mpr hu] at h1
  exact (Option.some.inj h1).symm

open Pc

theorem writing_le : s.writing ≤ 1 := by
  apply total_le_one
  · exact fun t => flagShare_le (s.pc t)
  · intro t u ht hu
    exact hi.owner_unique (flagShare_blocks ht).1 (flagShare_blocks hu).1

theorem counts : Counts s.word s.writing s.writers s.readers :=
  ⟨hi.word, hi.writing_le, hi.fits.1, hi.fits.2⟩

theorem writing_of_owner {t : Task} (ht : (s.pc t).ownsMutex = true) :
    s.writing = (s.pc t).flagShare := by
  have hle : (s.pc t).flagShare ≤ s.writing := le_total flagShare s.pc t
  have hone := hi.writing_le
  have hflag := flagShare_le (s.pc t)
  by_contra hne
  obtain ⟨u, hu⟩ := exists_of_total_pos flagShare s.pc (show 0 < s.writing by omega)
  have htu : u = t := hi.owner_unique (flagShare_blocks hu).1 ht
  subst htu
  omega

theorem readers_le_of_blocks {t u : Task} {e : Effect} (hu : (s.pc u).blocks) (htu : t ≠ u)
    (hm : Pc.Move s.word s.mutex.isNone (s.pc t) e) : e.pc.readerShare ≤ (s.pc t).readerShare := by
  cases hm.readerShare with
  | inl h => exact h
  | inr h =>
    cases h with
    | inl hown => exact absurd (hi.owner_unique hown hu.1) htu
    | inr hword =>
      have hnone := hi.counts.no_writer hword
      have hflag : (s.pc u).flagShare ≤ s.writing := le_total flagShare s.pc u
      have hwriter : (s.pc u).writerShare ≤ s.writers := le_total writerShare s.pc u
      have hpos := hu.2
      omega

end Inv

open State Pc

theorem inv_init : Inv (init : State Task) := by
  have hzero : ∀ w : Pc → ℕ, w .idle = 0 → total w (init : State Task).pc = 0 := by
    intro w hw
    rw [total_eq_zero]
    exact fun _ => hw
  refine ⟨⟨?_, ?_⟩, ?_, ?_, ?_, ?_, ?_, ?_, ?_⟩
  · rw [State.writers, hzero _ rfl]
    decide
  · rw [State.readers, hzero _ rfl]
    decide
  · rw [State.writing, State.writers, State.readers, hzero _ rfl, hzero _ rfl, hzero _ rfl]
    rfl
  all_goals simp [init, ownsMutex, snapshotOk, excludes]

/-! ### Steps keep the invariant -/

section

variable {s : State Task} {t : Task}

/-- Positions between which a task moves without touching the word or the mutex. -/
structure SameShares (p q : Pc) : Prop where
  flag : q.flagShare = p.flagShare
  writer : q.writerShare = p.writerShare
  reader : q.readerShare = p.readerShare
  owns : q.ownsMutex = p.ownsMutex
  snapshot : p.snapshotOk → q.snapshotOk

theorem SameShares.refl (p : Pc) : SameShares p p := ⟨rfl, rfl, rfl, rfl, id⟩

variable {s' : State Task}

/-- A wait-queue operation has only its own part of the invariant to restore. -/
theorem Inv.of_sameShares (hi : Inv s) (hword : s'.word = s.word)
    (hmutex : s'.mutex = s.mutex) (hsame : ∀ u, SameShares (s.pc u) (s'.pc u))
    (hexcludes : ∀ u, (s'.pc u).excludes = true → s.readers = 0)
    (hwaking : ∀ u, s'.pc u = .wakeOne →
      s.readers = 0 ∧ total wakers s'.pc = 1 ∧ ∃ v, s'.pc v = .wait ∨ s'.pc v = .parked)
    (hqueue : ∀ u, u ∈ s'.waitQueue ↔ s'.pc u = .parked) (hnodup : s'.waitQueue.Nodup) :
    Inv s' := by
  have hwriting : s'.writing = s.writing := Finset.sum_congr rfl fun u _ => (hsame u).flag
  have hwriters : s'.writers = s.writers := Finset.sum_congr rfl fun u _ => (hsame u).writer
  have hreaders : s'.readers = s.readers := Finset.sum_congr rfl fun u _ => (hsame u).reader
  refine ⟨?_, ?_, ?_, ?_, ?_, ?_, hqueue, hnodup⟩
  · simpa only [State.CountsFit, hwriters, hreaders] using hi.fits
  · rw [hword, hwriting, hwriters, hreaders]
    exact hi.word
  · intro u
    rw [hmutex, hi.mutex u, (hsame u).owns]
  · exact fun u => (hsame u).snapshot (hi.snapshot u)
  · exact fun u hu => hreaders.trans (hexcludes u hu)
  · intro u hu
    obtain ⟨hzero, hrest⟩ := hwaking u hu
    exact ⟨hreaders.trans hzero, hrest⟩

variable [DecidableEq Task]

omit [Fintype Task] in
theorem sameShares_update {p : Pc} (h : SameShares (s.pc t) p) :
    ∀ u, SameShares (s.pc u) (update s.pc t p u) :=
  (forall_update_iff s.pc fun u p => SameShares (s.pc u) p).mpr ⟨h, fun _ _ => .refl _⟩

omit [Fintype Task] in
theorem update_pc_eq {p q : Pc} {u : Task} (hp : p ≠ q) (ht : s.pc t ≠ q) :
    update s.pc t p u = q ↔ s.pc u = q := by
  by_cases hut : u = t
  · subst hut
    rw [update_self]
    exact ⟨fun h => absurd h hp, fun h => absurd h ht⟩
  · rw [update_of_ne hut]

variable {action : Action} {e : Effect}

section

variable (hi : Inv s)
include hi

theorem mutex_apply (hm : Pc.Move s.word s.mutex.isNone (s.pc t) e) (u : Task) :
    (s.apply t e).mutex = some u ↔ ((s.apply t e).pc u).ownsMutex = true := by
  have hold := hi.mutex u
  cases hm.mutex with
  | inl h =>
    obtain ⟨huse, howns⟩ := h
    simp only [apply, huse, MutexUse.apply]
    by_cases hut : u = t
    · subst hut
      rw [update_self, howns, hold]
    · rw [update_of_ne hut, hold]
  | inr h =>
    cases h with
    | inl h =>
      obtain ⟨huse, hfree, hnot, howns⟩ := h
      simp only [apply, huse, MutexUse.apply]
      by_cases hut : u = t
      · subst hut
        simp [howns]
      · rw [update_of_ne hut, ← hold, Option.isNone_iff_eq_none.mp hfree]
        simp [Ne.symm hut]
    | inr h =>
      obtain ⟨huse, howns, hnot⟩ := h
      simp only [apply, huse, MutexUse.apply]
      by_cases hut : u = t
      · subst hut
        simp [hnot]
      · rw [update_of_ne hut, ← hold, (hi.mutex t).mpr howns]
        simp [Ne.symm hut]

theorem waking_apply (hm : Pc.Move s.word s.mutex.isNone (s.pc t) e) (u : Task)
    (hu : (s.apply t e).pc u = .wakeOne) :
    (s.apply t e).readers = 0 ∧ total wakers (s.apply t e).pc = 1 ∧
      ∃ v, (s.apply t e).pc v = .wait ∨ (s.apply t e).pc v = .parked := by
  have hreaders := s.readers_apply t e
  have hwakers : total wakers (s.apply t e).pc + (s.pc t).wakers =
      total wakers s.pc + e.pc.wakers := total_update wakers s.pc t e.pc
  obtain ⟨hparked, hwait, hwake⟩ := hm.from_ne
  have htw : (s.pc t).wakers = 0 := by
    by_contra hne
    exact hwake (wakers_pos.mp (pos_of_ne_zero hne))
  -- the waiting writer is another task, so the step leaves it where it is
  have hstays : ∀ v, s.pc v = .wait ∨ s.pc v = .parked →
      (s.apply t e).pc v = .wait ∨ (s.apply t e).pc v = .parked := by
    intro v hv
    have hvt : v ≠ t := by
      intro hvt
      subst hvt
      exact hv.elim hwait hparked
    simpa only [apply, update_of_ne hvt] using hv
  by_cases hto : e.pc = .wakeOne
  · obtain ⟨hreading, hone, hflag⟩ := hm.wakeOne hto
    rw [hi.counts.readers_eq] at hone
    rw [hi.counts.writing_eq] at hflag
    have hno : total wakers s.pc = 0 := by
      by_contra hne
      obtain ⟨v, hv⟩ := exists_of_total_pos wakers s.pc (pos_of_ne_zero hne)
      have hzero := (hi.waking v (wakers_pos.mp hv)).1
      omega
    obtain ⟨v, hv⟩ := exists_of_total_pos flagShare s.pc (show 0 < s.writing by omega)
    rw [hreading, hto] at hreaders
    rw [htw, hno, hto] at hwakers
    simp only [readerShare, wakers] at hreaders hwakers
    refine ⟨by omega, by omega, v, hstays v ?_⟩
    cases flagShare_cases hv with
    | inl hex => exact absurd (hi.excludes v hex) (by omega)
    | inr hv => exact hv
  · have hold : s.pc u = .wakeOne := (update_pc_eq hto hwake).mp hu
    obtain ⟨hzero, hone, v, hv⟩ := hi.waking u hold
    have hew : e.pc.wakers = 0 := by
      by_contra hne
      exact hto (wakers_pos.mp (pos_of_ne_zero hne))
    have hvt : t ≠ v := by
      intro htv
      subst htv
      exact hv.elim hwait hparked
    have hblocks : (s.pc v).blocks := by
      cases hv with
      | inl hv => rw [hv]; exact ⟨rfl, by decide⟩
      | inr hv => rw [hv]; exact ⟨rfl, by decide⟩
    have hle := hi.readers_le_of_blocks hblocks hvt hm
    exact ⟨by omega, by omega, v, hstays v hv⟩

theorem inv_apply (h : (s.pc t).advance s.word s.mutex.isNone action = some e)
    (hfit : (s.apply t e).CountsFit) : Inv (s.apply t e) := by
  have hm := advance_move h (hi.snapshot t)
  have hwriting : (s.apply t e).writing + (s.pc t).flagShare = s.writing + e.pc.flagShare :=
    total_update flagShare s.pc t e.pc
  have hwriters : (s.apply t e).writers + (s.pc t).writerShare = s.writers + e.pc.writerShare :=
    total_update writerShare s.pc t e.pc
  have hreaders := s.readers_apply t e
  refine ⟨hfit, ?_, mutex_apply hi hm, ?_, ?_, waking_apply hi hm, ?_, hi.nodup⟩
  · have hword := advance_word h hi.counts (le_total _ _ t) (le_total _ _ t) (le_total _ _ t)
      hi.writing_of_owner
    have hold := hi.word
    have hnew : (s.apply t e).word = e.word := rfl
    simp only [share] at hword
    omega
  · exact (forall_update_iff s.pc fun _ p => p.snapshotOk).mpr
      ⟨hm.snapshotOk, fun u _ => hi.snapshot u⟩
  · refine (forall_update_iff s.pc fun _ p => p.excludes = true → (s.apply t e).readers = 0).mpr
      ⟨fun ht => ?_, fun u hut hu => ?_⟩
    · have hshare := excludes_readerShare ht
      cases hm.excludes ht with
      | inl hex =>
        have hzero := hi.excludes t hex
        omega
      | inr hone =>
        have hone := hone.1
        rw [hi.counts.readers_eq] at hone
        omega
    · have hzero := hi.excludes u hu
      have hle := hi.readers_le_of_blocks (excludes_blocks hu) (Ne.symm hut) hm
      omega
  · intro u
    rw [show (s.apply t e).waitQueue = s.waitQueue from rfl, hi.queue u]
    exact (update_pc_eq hm.to_ne hm.from_ne.1).symm

theorem inv_wait (ht : s.pc t = .wait) : Inv (s.wait t) := by
  have htq : t ∉ s.waitQueue := by
    rw [hi.queue t, ht]
    simp
  refine hi.of_sameShares rfl rfl (sameShares_update (ht ▸ ⟨rfl, rfl, rfl, rfl, id⟩)) ?_ ?_ ?_ ?_
  · exact (forall_update_iff s.pc fun _ p => p.excludes = true → s.readers = 0).mpr
      ⟨by simp [excludes], fun u _ => hi.excludes u⟩
  · intro u hu
    have hold : s.pc u = .wakeOne := (update_pc_eq (by decide) (by rw [ht]; decide)).mp hu
    obtain ⟨hzero, hone, _⟩ := hi.waking u hold
    have hwakers := total_update wakers s.pc t .parked
    rw [ht] at hwakers
    exact ⟨hzero, (add_right_cancel hwakers).trans hone, t, .inr (update_self ..)⟩
  · intro u
    by_cases hut : u = t
    · subst hut
      simp [State.wait]
    · simp [State.wait, hut, hi.queue u]
  · refine nodup_append.mpr ⟨hi.nodup, nodup_singleton t, ?_⟩
    intro a ha b hb hab
    rw [hab, mem_singleton.mp hb] at ha
    exact htq ha

theorem wakeOne_gone (ht : s.pc t = .wakeOne) {u : Task} (hut : u ≠ t) : s.pc u ≠ .wakeOne := by
  intro hu
  have hone := (hi.waking t ht).2.1
  have hmove := total_update wakers s.pc t .idle
  have hle := le_total wakers (update s.pc t .idle) u
  rw [update_of_ne hut, hu] at hle
  rw [ht] at hmove
  simp only [wakers] at hmove hle
  omega

theorem inv_wakeOne_nil (ht : s.pc t = .wakeOne) (hq : s.waitQueue = []) : Inv (s.wakeOne t) := by
  have hs : s.wakeOne t = { s with pc := update s.pc t .idle } := by
    simp only [State.wakeOne, hq]
  rw [hs]
  refine hi.of_sameShares rfl rfl (sameShares_update (ht ▸ ⟨rfl, rfl, rfl, rfl, id⟩))
    (fun _ _ => (hi.waking t ht).1) (fun u hu => absurd hu ?_) ?_ hi.nodup
  · exact (forall_update_iff s.pc fun _ p => p ≠ .wakeOne).mpr
      ⟨by decide, fun _ hut => wakeOne_gone hi ht hut⟩ u
  · intro u
    rw [hi.queue u]
    exact (update_pc_eq (by decide) (by rw [ht]; decide)).symm

theorem inv_wakeOne_cons (ht : s.pc t = .wakeOne) {first : Task} {rest : List Task}
    (hq : s.waitQueue = first :: rest) : Inv (s.wakeOne t) := by
  have hs : s.wakeOne t =
      { s with waitQueue := rest, pc := update (update s.pc first .woken) t .idle } := by
    simp only [State.wakeOne, hq]
  have hfirst : s.pc first = .parked := (hi.queue first).mp (by simp [hq])
  have hft : first ≠ t := by
    intro hft
    rw [hft, ht] at hfirst
    cases hfirst
  have hnodup := hi.nodup
  rw [hq, nodup_cons] at hnodup
  -- every task is the waker, the woken writer or neither
  have hall (P : Task → Pc → Prop) (hwaker : P t .idle) (hwoken : P first .woken)
      (hother : ∀ u, u ≠ t → u ≠ first → P u (s.pc u)) (u : Task) :
      P u (update (update s.pc first .woken) t .idle u) := by
    refine (forall_update_iff _ P).mpr ⟨hwaker, fun u hut => ?_⟩ u
    by_cases huf : u = first
    · rw [huf, update_self]
      exact hwoken
    · rw [update_of_ne huf]
      exact hother u hut huf
  rw [hs]
  refine hi.of_sameShares rfl rfl (hall (fun u p => SameShares (s.pc u) p) ?_ ?_ ?_)
    (fun _ _ => (hi.waking t ht).1) (fun u hu => absurd hu (hall (fun _ p => p ≠ .wakeOne) ?_ ?_ ?_ u))
    (hall (fun u p => u ∈ rest ↔ p = .parked) ?_ ?_ ?_) hnodup.2
  · exact ht ▸ ⟨rfl, rfl, rfl, rfl, id⟩
  · exact hfirst ▸ ⟨rfl, rfl, rfl, rfl, id⟩
  · exact fun u _ _ => .refl _
  · decide
  · decide
  · exact fun u hut _ => wakeOne_gone hi ht hut
  · have hold := hi.queue t
    rw [hq, mem_cons, ht] at hold
    simp only [reduceCtorEq, iff_false, not_or] at hold ⊢
    exact hold.2
  · simpa using hnodup.1
  · intro u _ huf
    rw [← hi.queue u, hq]
    simp [huf]

theorem inv_next (h : s.next (t, action) = some s') (hfit : s'.CountsFit) : Inv s' := by
  cases next_cases h with
  | inl h =>
    rw [h.2]
    exact inv_wait hi h.1
  | inr h =>
    cases h with
    | inl h =>
      rw [h.2]
      cases hq : s.waitQueue with
      | nil => exact inv_wakeOne_nil hi h.1 hq
      | cons first rest => exact inv_wakeOne_cons hi h.1 hq
    | inr h =>
      obtain ⟨e, he, hs⟩ := h
      rw [hs] at hfit ⊢
      exact inv_apply hi he hfit

end

end

variable [DecidableEq Task]

def countsFit (s : State Task) (l : Task × Action) : Prop :=
  ∀ s', s.next l = some s' → s'.CountsFit

theorem reachable_inv {s : State Task} (h : (system Task).Reachable countsFit s) : Inv s := by
  refine h.invariant ?_ ?_
  · intro s hs
    rw [show s = init from hs]
    exact inv_init
  · intro s l s' hi ha hs
    exact inv_next hi hs (ha s' hs)

end Innigkeit.Sync.RwLock

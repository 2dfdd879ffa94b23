import Innigkeit.Library.Transition
import Innigkeit.Zig.Checked
import Mathlib.Data.Fintype.Basic

/-!
The reader-writer lock of the kernel. Every atomic operation on the state word,
every operation of the inner mutex and every operation of the wait queue is one
step of one task; what a task computes between two of them belongs to the step
before. A position of `Pc` is named after what the task does next. The mutex is
an owner, and the spinlock that guards the wait queue is taken and released
within the wait-queue step.
-/

namespace Innigkeit.Sync.RwLock

def countBits : ℕ := (64 - 1) / 2
def isWriting : ℕ := 1
def writer : ℕ := 1 <<< 1
def reader : ℕ := 1 <<< (1 + countBits)
def writerMask : ℕ := (2 ^ countBits - 1) <<< 1
def readerMask : ℕ := (2 ^ countBits - 1) <<< (1 + countBits)

-- The read-modify-write operations wrap around at the width of `usize`.
def rmwAdd (word operand : ℕ) : ℕ := (word + operand) % 2 ^ 64
def rmwSub (word operand : ℕ) : ℕ := (word + (2 ^ 64 - operand)) % 2 ^ 64
def rmwAnd (word operand : ℕ) : ℕ := word &&& operand

def claim : ℕ := rmwSub isWriting writer

def notWriting : ℕ := (2 ^ 63 - 1) <<< 1

inductive Pc where
  | idle
  -- holding the lock
  | reading
  | writing
  -- readLock and tryReadLock
  | readExchange (state : ℕ)
  | readMutexLock
  | tryReadExchange (state : ℕ)
  | tryReadMutexLock
  | readAdd
  | readMutexUnlock
  -- readUnlock
  | wakeOne
  -- writeLock
  | writeMutexLock
  | writeClaim
  | wait
  | parked
  | woken
  -- tryWriteLock
  | tryWriteLoad
  | tryWriteExchange (state : ℕ)
  -- tryUpgradeLock
  | upgradeMutexLock
  | upgradeSub
  | upgradeClaim
  | upgradeRetract
  | upgradeDrop
  -- the `mutex.unlock()` that ends writeUnlock, tryWriteLock and tryUpgradeLock
  | mutexUnlock
  deriving DecidableEq, Repr

/-- What a scheduled task does: call an operation, or go on with the one it is in.
`failSpuriously` is a weak exchange that fails although the word is the expected one. -/
inductive Action where
  | readLock | tryReadLock | readUnlock
  | writeLock | tryWriteLock | writeUnlock
  | tryUpgradeLock
  | proceed
  | failSpuriously
  deriving DecidableEq, Repr

inductive MutexUse where
  | untouched | lock | unlock
  deriving DecidableEq, Repr

structure Effect where
  pc : Pc
  word : ℕ
  mutex : MutexUse := .untouched
  deriving DecidableEq, Repr

/-- The test `state & (IS_WRITING | WRITER_MASK) == 0` of the lock-free read paths. -/
def noWriter (state : ℕ) : Bool := state &&& (isWriting ||| writerMask) == 0

def readLockLoop (state : ℕ) : Pc :=
  if noWriter state then .readExchange state else .readMutexLock

/-- One step of a task that is not a wait-queue operation. -/
def Pc.advance (word : ℕ) (mutexFree : Bool) : Pc → Action → Option Effect
  | .idle, .readLock => some { pc := readLockLoop word, word }
  | .readExchange state, .proceed =>
    if word = state then some { pc := .reading, word := state + reader }
    else some { pc := readLockLoop word, word }
  | .readExchange _, .failSpuriously => some { pc := readLockLoop word, word }
  | .readMutexLock, .proceed =>
    if mutexFree then some { pc := .readAdd, word, mutex := .lock } else none
  | .readAdd, .proceed => some { pc := .readMutexUnlock, word := rmwAdd word reader }
  | .readMutexUnlock, .proceed => some { pc := .reading, word, mutex := .unlock }
  | .idle, .tryReadLock =>
    some { pc := if noWriter word then .tryReadExchange word else .tryReadMutexLock, word }
  | .tryReadExchange state, .proceed =>
    if word = state then some { pc := .reading, word := state + reader }
    else some { pc := .tryReadMutexLock, word }
  | .tryReadMutexLock, .proceed =>
    if mutexFree then some { pc := .readAdd, word, mutex := .lock }
    else some { pc := .idle, word }
  | .reading, .readUnlock =>
    some {
      pc := if word &&& readerMask = reader ∧ word &&& isWriting ≠ 0 then .wakeOne else .idle
      word := rmwSub word reader }
  | .idle, .writeLock => some { pc := .writeMutexLock, word := rmwAdd word writer }
  | .writeMutexLock, .proceed =>
    if mutexFree then some { pc := .writeClaim, word, mutex := .lock } else none
  | .writeClaim, .proceed =>
    some {
      pc := if word &&& readerMask ≠ 0 then .wait else .writing
      word := rmwAdd word claim }
  | .woken, .proceed => some { pc := .writing, word }
  | .writing, .writeUnlock => some { pc := .mutexUnlock, word := rmwAnd word notWriting }
  | .mutexUnlock, .proceed => some { pc := .idle, word, mutex := .unlock }
  | .idle, .tryWriteLock =>
    if mutexFree then some { pc := .tryWriteLoad, word, mutex := .lock }
    else some { pc := .idle, word }
  | .tryWriteLoad, .proceed =>
    some { pc := if word &&& readerMask ≠ 0 then .mutexUnlock else .tryWriteExchange word, word }
  | .tryWriteExchange state, .proceed =>
    if word = state then some { pc := .writing, word := state ||| isWriting }
    else some { pc := .tryWriteLoad, word }
  | .reading, .tryUpgradeLock => some { pc := .upgradeMutexLock, word := rmwAdd word writer }
  | .upgradeMutexLock, .proceed =>
    if mutexFree then some { pc := .upgradeSub, word, mutex := .lock }
    else some { pc := .upgradeDrop, word }
  | .upgradeSub, .proceed =>
    some {
      pc := if word &&& readerMask = reader then .upgradeClaim else .upgradeRetract
      word := rmwSub word reader }
  | .upgradeClaim, .proceed => some { pc := .writing, word := rmwAdd word claim }
  | .upgradeRetract, .proceed => some { pc := .mutexUnlock, word := rmwSub word writer }
  | .upgradeDrop, .proceed => some { pc := .idle, word := rmwSub word (reader + writer) }
  | _, _ => none

structure State (Task : Type*) where
  word : ℕ
  mutex : Option Task
  waitQueue : List Task
  pc : Task → Pc

variable {Task : Type*} [DecidableEq Task]

open Function

def MutexUse.apply (task : Task) (owner : Option Task) : MutexUse → Option Task
  | .untouched => owner
  | .lock => some task
  | .unlock => none

/-- `WaitQueue.wait`: the task appends itself and blocks. -/
def State.wait (s : State Task) (task : Task) : State Task :=
  { s with waitQueue := s.waitQueue ++ [task], pc := update s.pc task .parked }

/-- `WaitQueue.wakeOne`, by which `task` ends its `readUnlock`. -/
def State.wakeOne (s : State Task) (task : Task) : State Task :=
  match s.waitQueue with
  | [] => { s with pc := update s.pc task .idle }
  | first :: rest =>
    { s with waitQueue := rest, pc := update (update s.pc first .woken) task .idle }

def State.apply (s : State Task) (task : Task) (e : Effect) : State Task :=
  { s with
    word := e.word
    mutex := e.mutex.apply task s.mutex
    pc := update s.pc task e.pc }

def State.next (s : State Task) : Task × Action → Option (State Task)
  | (task, action) =>
    match s.pc task, action with
    | .wait, .proceed => some (s.wait task)
    | .wakeOne, .proceed => some (s.wakeOne task)
    | pc, action => (pc.advance s.word s.mutex.isNone action).map (s.apply task)

def State.init : State Task where
  word := 0
  mutex := none
  waitQueue := []
  pc := fun _ => .idle

def system (Task : Type*) [DecidableEq Task] : Transition.System (State Task) (Task × Action) :=
  .ofNext (· = State.init) State.next

theorem next_cases {s s' : State Task} {task : Task} {action : Action}
    (h : s.next (task, action) = some s') :
    (s.pc task = .wait ∧ s' = s.wait task) ∨
      (s.pc task = .wakeOne ∧ s' = s.wakeOne task) ∨
      ∃ e, (s.pc task).advance s.word s.mutex.isNone action = some e ∧ s' = s.apply task e := by
  simp only [State.next] at h
  split at h
  · exact .inl ⟨by assumption, (Option.some.inj h).symm⟩
  · exact .inr (.inl ⟨by assumption, (Option.some.inj h).symm⟩)
  · obtain ⟨e, he, hs⟩ := Option.map_eq_some_iff.mp h
    exact .inr (.inr ⟨e, he, hs.symm⟩)

end Innigkeit.Sync.RwLock

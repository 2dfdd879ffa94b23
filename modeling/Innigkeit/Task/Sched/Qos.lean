import Innigkeit.Task.Sched.Eevdf

/-!
The slice of a QoS class over the life of an entity. A class sets weight and slice, but a
renewed deadline is computed from the default slice. The run queue and the clock are
arguments of a step, so that a run has any other tasks beside the entity.
-/

namespace Innigkeit.Task.Sched

open Zig

inductive Qos where
  | interactive
  | default
  | background
  deriving DecidableEq, Repr

structure QosPreset where
  weight : UInt32
  slice : UInt64

def qosPresets : Qos → QosPreset
  | .interactive => ⟨2 * nice0Weight, 1000000⟩
  | .default => ⟨nice0Weight, defaultSliceNs⟩
  | .background => ⟨335, 10000000⟩

/-- An entity with its class and whether it is on a run queue. -/
structure Entity extends SchedEntity where
  qos : Qos := .default
  onRq : Bool := false
  deriving DecidableEq, Repr

/-- The calls that reach an entity, with what they read elsewhere: the run queue, the time
since the last update, the utilization when its window is over, and whether the task stays
ready. -/
inductive Call where
  | setQos (qos : Qos)
  | enqueue (erq : EevdfRunqueue) (flags : EnqueueFlags)
  | dequeue (erq : EevdfRunqueue)
  | setRunning
  | tick (elapsedNs : UInt64) (utilAvg : Option UInt32)
  | putPrev (elapsedNs : UInt64) (ready : Bool)
  deriving DecidableEq, Repr

namespace Entity

def setQos (se : Entity) (qos : Qos) : Checked Entity := do
  assert (se.onRq = false)
  let preset := qosPresets qos
  let slice := if se.customSlice = false then preset.slice else se.slice
  let deadline ← addU64 se.vruntime (← calcDeltaFair slice preset.weight)
  return { se with qos, weight := preset.weight, slice, deadline }

def updateCurr (se : Entity) (elapsedNs : UInt64) : Checked Entity := do
  if elapsedNs = 0 then return se
  return { se with vruntime := ← addU64 se.vruntime (← calcDeltaFair elapsedNs se.weight) }

/-- The slice follows the utilization unless it was set. -/
def updateUtil (se : Entity) : Option UInt32 → Entity
  | none => se
  | some utilAvg =>
    if se.customSlice = false then
      { se with slice :=
          if utilAvg < 256 then 1000000 else if utilAvg > 768 then 6000000 else defaultSliceNs }
    else se

/-- A call, and whether it set the deadline. -/
def call (se : Entity) : Call → Checked (Entity × Bool)
  | .setQos qos => return (← se.setQos qos, true)
  | .enqueue erq flags => do
    assert (se.onRq = false)
    let placed ← placeEntity erq se.toSchedEntity flags
    return ({ se with toSchedEntity := placed, onRq := true },
      decide (se.deadline ≤ placedVruntime erq se.toSchedEntity flags))
  | .dequeue erq => do
    assert (se.onRq = true)
    return ({ se with toSchedEntity := ← saveLag erq se.toSchedEntity, onRq := false }, false)
  | .setRunning => return ({ se with onRq := false }, false)
  | .tick elapsedNs utilAvg => return ((← se.updateCurr elapsedNs).updateUtil utilAvg, false)
  | .putPrev elapsedNs ready => do
    let se ← se.updateCurr elapsedNs
    assert (se.onRq = false)
    if ready = true then
      return ({ se with toSchedEntity := ← renewDeadline se.toSchedEntity, onRq := true },
        decide (se.deadline ≤ se.vruntime))
    else return (se, false)

/-- The deadline is the virtual runtime plus the slice of the class, scaled by the weight. -/
def InForce (se : Entity) : Prop :=
  ∃ delta, calcDeltaFair (qosPresets se.qos).slice se.weight = .ok delta ∧
    addU64 se.vruntime delta = .ok se.deadline

/-- Every deadline that the calls set is that of the class. -/
def SliceInForce : Entity → List Call → Prop
  | _, [] => True
  | se, c :: calls => ∀ se' set, se.call c = .ok (se', set) →
      (set = true → InForce se') ∧ SliceInForce se' calls

/-- A deadline is only renewed while the class has the default slice. -/
def RenewsDefault : Entity → List Call → Prop
  | _, [] => True
  | se, c :: calls => ∀ se' set, se.call c = .ok (se', set) →
      (set = true → se'.qos = .default ∨ ∃ qos, c = .setQos qos) ∧ RenewsDefault se' calls

end Entity

section

variable {se se' : Entity} {c : Call} {set : Bool}

theorem renewDeadline_ok {e e' : SchedEntity} (h : renewDeadline e = .ok e')
    (hcustom : e.customSlice = false) : e'.customSlice = false ∧
      (e.deadline ≤ e.vruntime → ∃ delta, calcDeltaFair defaultSliceNs e'.weight = .ok delta ∧
        addU64 e'.vruntime delta = .ok e'.deadline) := by
  rw [renewDeadline, renewedSlice, if_pos hcustom] at h
  split at h
  · simp only [bind_eq_ok] at h
    obtain ⟨delta, hdelta, deadline, hdeadline, h⟩ := h
    cases h
    exact ⟨hcustom, fun _ => ⟨delta, hdelta, hdeadline⟩⟩
  · next hle =>
    cases h
    exact ⟨hcustom, fun h => absurd h hle⟩

theorem updateCurr_customSlice {elapsedNs : UInt64} (h : se.updateCurr elapsedNs = .ok se') :
    se'.customSlice = se.customSlice := by
  rw [Entity.updateCurr] at h
  split at h
  · cases h
    rfl
  · simp only [bind_eq_ok] at h
    obtain ⟨_, _, _, _, h⟩ := h
    cases h
    rfl

theorem updateUtil_customSlice (se : Entity) (utilAvg : Option UInt32) :
    (se.updateUtil utilAvg).customSlice = se.customSlice := by
  unfold Entity.updateUtil
  split
  · rfl
  · split <;> rfl

theorem call_ok (hcustom : se.customSlice = false) (h : se.call c = .ok (se', set)) :
    se'.customSlice = false ∧
      (set = true → (se'.qos = .default ∨ ∃ qos, c = .setQos qos) → se'.InForce) := by
  cases c with
  | setQos qos =>
    simp only [Entity.call, Entity.setQos, bind_eq_ok, hcustom, if_true] at h
    obtain ⟨e, ⟨-, -, delta, hdelta, deadline, hdeadline, he⟩, h⟩ := h
    cases he
    cases h
    exact ⟨rfl, fun _ _ => ⟨delta, hdelta, hdeadline⟩⟩
  | enqueue erq flags =>
    simp only [Entity.call, bind_eq_ok] at h
    obtain ⟨-, -, placed, hplaced, h⟩ := h
    cases h
    obtain ⟨hc, hrenewed⟩ := renewDeadline_ok hplaced hcustom
    refine ⟨hc, fun hset hdefault => ?_⟩
    rw [Entity.InForce, hdefault.resolve_right (by simp)]
    exact hrenewed (by simpa using hset)
  | dequeue erq =>
    simp only [Entity.call, saveLag, bind_eq_ok] at h
    obtain ⟨-, -, e, ⟨_, _, he⟩, h⟩ := h
    cases he
    cases h
    exact ⟨hcustom, by simp⟩
  | setRunning =>
    cases h
    exact ⟨hcustom, by simp⟩
  | tick elapsedNs utilAvg =>
    simp only [Entity.call, bind_eq_ok] at h
    obtain ⟨e, he, h⟩ := h
    cases h
    exact ⟨(updateUtil_customSlice ..).trans ((updateCurr_customSlice he).trans hcustom), by simp⟩
  | putPrev elapsedNs ready =>
    simp only [Entity.call, bind_eq_ok] at h
    obtain ⟨e, he, -, -, h⟩ := h
    have hc := (updateCurr_customSlice he).trans hcustom
    cases ready with
    | false =>
      cases h
      exact ⟨hc, by simp⟩
    | true =>
      simp only [if_true, bind_eq_ok] at h
      obtain ⟨renewed, hrenew, h⟩ := h
      cases h
      obtain ⟨hc', hrenewed⟩ := renewDeadline_ok hrenew hc
      refine ⟨hc', fun hset hdefault => ?_⟩
      rw [Entity.InForce, hdefault.resolve_right (by simp)]
      exact hrenewed (by simpa using hset)

/-- In every run of an entity without a custom slice whose deadline is only renewed while its
class has the default slice, every deadline is that of its class. -/
theorem slice_in_force (se : Entity) (calls : List Call) (hcustom : se.customSlice = false)
    (h : se.RenewsDefault calls) : se.SliceInForce calls := by
  induction calls generalizing se with
  | nil => trivial
  | cons c calls ih =>
    intro se' set hcall
    obtain ⟨hrenews, hrest⟩ := h se' set hcall
    obtain ⟨hcustom', hforce⟩ := call_ok hcustom hcall
    exact ⟨fun hset => hforce hset (hrenews hset), ih se' hcustom' hrest⟩

theorem slice_in_force_default :
    Entity.SliceInForce {} [.setQos .default, .putPrev 3000000 true] := by
  refine slice_in_force {} _ rfl ?_
  intro se' set h
  cases h
  refine ⟨fun _ => .inl rfl, ?_⟩
  intro se' set h
  cases h
  exact ⟨fun _ => .inl rfl, trivial⟩

/-- An interactive task that has used up its slice gets a deadline by the default slice. -/
theorem slice_not_in_force :
    ¬ Entity.SliceInForce {} [.setQos .interactive, .putPrev 1000000 true] := by
  intro h
  have hrenewed := ((h _ _ rfl).2 _ _ rfl).1 rfl
  obtain ⟨delta, hdelta, hdeadline⟩ := hrenewed
  cases hdelta
  revert hdeadline
  decide

end

end Innigkeit.Task.Sched

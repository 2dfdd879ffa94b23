import Mathlib.Tactic.Common

/-!
Labelled transition systems and their runs. `Reachable allowed` collects the
states of the runs whose every step meets `allowed` in the state it leaves;
the plain reachable states take the condition that always holds. A system given
by a partial step function can be run on a list of labels.
-/

namespace Transition

variable {State Label : Type*}

structure System (State Label : Type*) where
  init : State → Prop
  step : State → Label → State → Prop

/-- The condition that every step meets. -/
def anyStep : State → Label → Prop := fun _ _ => True

namespace System

variable (T : System State Label)

inductive Reachable (allowed : State → Label → Prop) : State → Prop where
  | init {s : State} : T.init s → Reachable allowed s
  | step {s s' : State} {l : Label} :
      Reachable allowed s → allowed s l → T.step s l s' → Reachable allowed s'

variable {T}
variable {allowed : State → Label → Prop}

theorem Reachable.invariant {Inv : State → Prop} (h0 : ∀ s, T.init s → Inv s)
    (hstep : ∀ s l s', Inv s → allowed s l → T.step s l s' → Inv s')
    {s : State} (h : T.Reachable allowed s) : Inv s := by
  induction h with
  | init hi => exact h0 _ hi
  | step _ ha hs ih => exact hstep _ _ _ ih ha hs

theorem Reachable.mono {allowed' : State → Label → Prop} (himp : ∀ s l, allowed s l → allowed' s l)
    {s : State} (h : T.Reachable allowed s) : T.Reachable allowed' s := by
  induction h with
  | init hi => exact .init hi
  | step _ ha hs ih => exact .step ih (himp _ _ ha) hs

/-- The system of a partial step function; `none` means that the label is not enabled. -/
def ofNext (init : State → Prop) (next : State → Label → Option State) : System State Label where
  init := init
  step s l s' := next s l = some s'

def runNext (next : State → Label → Option State) : State → List Label → Option State
  | s, [] => some s
  | s, l :: ls => (next s l).bind fun s' => runNext next s' ls

variable {init : State → Prop} {next : State → Label → Option State}

theorem runNext_reachable_of {s s' : State} (ls : List Label)
    (hall : ∀ l ∈ ls, ∀ t, allowed t l) (hs : (ofNext init next).Reachable allowed s)
    (hrun : runNext next s ls = some s') : (ofNext init next).Reachable allowed s' := by
  induction ls generalizing s with
  | nil =>
    cases hrun
    exact hs
  | cons l ls ih =>
    rw [List.forall_mem_cons] at hall
    simp only [runNext, Option.bind_eq_some_iff] at hrun
    obtain ⟨t, ht, hrest⟩ := hrun
    exact ih hall.2 (.step hs (hall.1 s) ht) hrest

theorem runNext_reachable
    {s s' : State} (ls : List Label) (hs : (ofNext init next).Reachable anyStep s)
    (hrun : runNext next s ls = some s') : (ofNext init next).Reachable anyStep s' :=
  runNext_reachable_of ls (fun _ _ _ => trivial) hs hrun

/-- The step function confined to the steps that meet a condition. -/
def restrict (allowed : State → Label → Prop) [∀ s l, Decidable (allowed s l)]
    (next : State → Label → Option State) (s : State) (l : Label) : Option State :=
  if allowed s l then next s l else none

theorem restrict_reachable [∀ s l, Decidable (allowed s l)] {s s' : State}
    (ls : List Label) (hs : (ofNext init next).Reachable allowed s)
    (hrun : runNext (restrict allowed next) s ls = some s') :
    (ofNext init next).Reachable allowed s' := by
  induction ls generalizing s with
  | nil =>
    cases hrun
    exact hs
  | cons l ls ih =>
    simp only [runNext, Option.bind_eq_some_iff] at hrun
    obtain ⟨t, ht, hrest⟩ := hrun
    by_cases hl : allowed s l
    · rw [restrict, if_pos hl] at ht
      exact ih (.step hs hl ht) hrest
    · rw [restrict, if_neg hl] at ht
      cases ht

end System

end Transition

import Innigkeit.Library.RedBlack.Search
import Innigkeit.Task.Sched.Eevdf

/-!
The search of a run queue for a task that prefers the core. The tree is ordered by
deadlines; a subtree is skipped when its cached minimum is not eligible, and a right
subtree when the node above it is not before the limit. The first task in order that
qualifies is found exactly if nothing on the way down to it is skipped.
-/

namespace Innigkeit.Task.Sched

open RedBlack RedBlack.RBTree RedBlack.Context

inductive CoreType where
  | unknown
  | pCore
  | eCore
  deriving DecidableEq, Repr

/-- An entity in the tree, with the address and the hint of its task. -/
structure Queued extends SchedEntity where
  subtreeMinVruntime : UInt64 := 0
  task : ℕ
  coreHint : CoreType := .unknown
  deriving DecidableEq, Repr

/-- The running entity counts in the average. The product leaves its 128 bits only where the
weights leave 64. -/
def EevdfRunqueue.vruntimeEligible (self : EevdfRunqueue) (curr : Option SchedEntity)
    (vruntime : UInt64) : Bool :=
  let avg := self.sumWVruntime.toInt +
    (curr.map fun c => (self.seKey c).toInt * c.weight.toNat).getD 0
  let load : ℤ := self.sumWeight.toNat + (curr.map fun c => c.weight.toNat).getD 0
  load = 0 || (vruntime.toInt64 - self.zeroVruntime.toInt64).toInt * load ≤ avg

def deadlineCmp (a b : Queued) : Ordering :=
  if a.deadline < b.deadline then .lt
  else if b.deadline < a.deadline then .gt
  else compare a.task b.task

section

variable (erq : EevdfRunqueue) (curr : Option SchedEntity) (preferred : CoreType) (limit : UInt64)

/-- `limit` is `deadline_limit`. -/
def pickPreferBest : RBTree Queued → Option Queued
  | nil => none
  | node _ left se right =>
    if erq.vruntimeEligible curr se.subtreeMinVruntime = false then none
    else match pickPreferBest left with
      | some t => some t
      | none =>
        if erq.vruntimeEligible curr se.vruntime = true ∧ se.deadline ≤ limit ∧
            se.coreHint = preferred then some se
        else if se.deadline < limit then pickPreferBest right
        else none

/-- `deadline *| 2` -/
def limitOf (winner : SchedEntity) : UInt64 :=
  .ofNat (min (2 * winner.deadline.toNat) (2 ^ 64 - 1))

def pickPreferring (tree : RBTree Queued) (winner : SchedEntity) : Option Queued :=
  pickPreferBest erq curr preferred (limitOf winner) tree

/-- A task that may be picked. -/
def Qualifies (q : Queued) : Prop :=
  erq.vruntimeEligible curr q.vruntime = true ∧ q.deadline ≤ limit ∧ q.coreHint = preferred
  deriving Decidable

/-- The picked task is the first one by deadline and tree order that qualifies. -/
def Earliest (l : List Queued) : Option Queued → Prop
  | none => ∀ q ∈ l, ¬ Qualifies erq curr preferred limit q
  | some v => v ∈ l ∧ Qualifies erq curr preferred limit v ∧
      ∀ q ∈ l, Qualifies erq curr preferred limit q → q = v ∨ deadlineCmp v q = .lt

/-- Nothing on the way to the first task that qualifies is skipped: the cached minimum of
every node on it, its own included, is eligible, and where the way turns right the
deadline of the node is before the limit. -/
def Unpruned (tree : RBTree Queued) : Prop :=
  ∀ fs c l v r, tree = plug fs (node c l v r) → Qualifies erq curr preferred limit v →
    (∀ q ∈ before fs ++ l.toList, ¬ Qualifies erq curr preferred limit q) →
    erq.vruntimeEligible curr v.subtreeMinVruntime = true ∧
      ∀ f ∈ fs, erq.vruntimeEligible curr f.value.subtreeMinVruntime = true ∧
        (f.side = .right → f.value.deadline < limit)

/-- The cached minima are lower bounds. -/
def Augmented : RBTree Queued → Prop
  | nil => True
  | node c l q r => (∀ e ∈ (node c l q r).toList, q.subtreeMinVruntime ≤ e.vruntime) ∧
      Augmented l ∧ Augmented r

theorem pickPreferBest_eq (t : RBTree Queued) : pickPreferBest erq curr preferred limit t =
    prunedFind (fun q => erq.vruntimeEligible curr q.subtreeMinVruntime)
      (fun q => Qualifies erq curr preferred limit q) (fun q => q.deadline < limit) t := by
  induction t with
  | nil => rfl
  | node c l q r ihl ihr =>
    simp only [pickPreferBest, prunedFind, ihl, ihr, decide_eq_true_eq]
    cases prunedFind _ _ _ l <;> rfl

variable {erq curr preferred limit} {v : Queued}

theorem pickPreferBest_first {fs : Context Queued} {c : Color} {l r : RBTree Queued}
    (hnodup : (plug fs (node c l v r)).toList.Nodup) (hv : Qualifies erq curr preferred limit v)
    (hfirst : ∀ q ∈ before fs ++ l.toList, ¬ Qualifies erq curr preferred limit q) :
    pickPreferBest erq curr preferred limit (plug fs (node c l v r)) = some v ↔
      erq.vruntimeEligible curr v.subtreeMinVruntime = true ∧
        ∀ f ∈ fs, erq.vruntimeEligible curr f.value.subtreeMinVruntime = true ∧
          (f.side = .right → f.value.deadline < limit) := by
  rw [pickPreferBest_eq, prunedFind_first hnodup (decide_eq_true hv)
    fun q hq => decide_eq_false (hfirst q hq)]
  simp only [Open, decide_eq_true_eq]

theorem deadlineCmp_asymm {a b : Queued} (h : deadlineCmp a b = .lt) : deadlineCmp b a ≠ .lt := by
  unfold deadlineCmp at *
  split at h
  · next hlt => simp [hlt, UInt64.not_lt.mpr (UInt64.le_of_lt hlt)]
  · split at h
    · cases h
    · next hlt hgt =>
      rw [if_neg hgt, if_neg hlt]
      intro h'
      rw [Nat.compare_eq_lt] at h h'
      omega

theorem earliest_of_first {as bs : List Queued} (hsorted : Sorted deadlineCmp (as ++ v :: bs))
    (hv : Qualifies erq curr preferred limit v)
    (hfirst : ∀ q ∈ as, ¬ Qualifies erq curr preferred limit q) :
    Earliest erq curr preferred limit (as ++ v :: bs) (some v) := by
  refine ⟨by simp, hv, fun q hq hqualifies => ?_⟩
  obtain hq | hq := List.mem_append.mp hq
  · exact absurd hqualifies (hfirst q hq)
  · exact (List.mem_cons.mp hq).imp_right
      (List.rel_of_pairwise_cons (List.pairwise_append.mp hsorted).2.1)

/-- For every tree in order, preferred core and winner, the pick is the earliest task that
qualifies exactly if the way to it is not pruned. -/
theorem pickPreferring_earliest_iff (erq : EevdfRunqueue) (curr : Option SchedEntity)
    (preferred : CoreType) (winner : SchedEntity) (tree : RBTree Queued)
    (hsorted : Sorted deadlineCmp tree.toList) :
    Earliest erq curr preferred (limitOf winner) tree.toList
        (pickPreferring erq curr preferred tree winner) ↔
      Unpruned erq curr preferred (limitOf winner) tree := by
  have hnodup : tree.toList.Nodup := hsorted.imp fun {a b} hab heq => by
    subst heq
    exact deadlineCmp_asymm hab hab
  rw [pickPreferring]
  constructor
  · rintro hearliest fs c l v r rfl hv hfirst
    have hbest := toList_plug_node fs c l r v ▸
      earliest_of_first (toList_plug_node fs c l r v ▸ hsorted) hv hfirst
    rw [← pickPreferBest_first hnodup hv hfirst]
    generalize pickPreferBest _ _ _ _ _ = pick at hearliest ⊢
    cases pick with
    | none => exact absurd hv (hearliest v hbest.1)
    | some w =>
      obtain rfl | hwv := hearliest.2.2 v hbest.1 hv
      · rfl
      · obtain rfl | hvw := hbest.2.2 w hearliest.1 hearliest.2.1
        · rfl
        · exact absurd hwv (deadlineCmp_asymm hvw)
  · intro hunpruned
    cases hfind : tree.toList.find? fun q => Qualifies erq curr preferred (limitOf winner) q with
    | none =>
      have hnone : ∀ q ∈ tree.toList, ¬ Qualifies erq curr preferred (limitOf winner) q := by
        simpa using List.find?_eq_none.mp hfind
      rw [pickPreferBest_eq, prunedFind_none fun q hq => decide_eq_false (hnone q hq)]
      exact hnone
    | some v =>
      obtain ⟨hv, as, bs, hlist, hfirst⟩ := List.find?_eq_some_iff_append.mp hfind
      rw [decide_eq_true_eq] at hv
      have hfirst' : ∀ q ∈ as, ¬ Qualifies erq curr preferred (limitOf winner) q := by
        simpa using hfirst
      obtain ⟨fs, c, l, r, rfl⟩ := exists_plug_of_mem (show v ∈ tree.toList by simp [hlist])
      have hout := hnodup
      rw [hlist, List.nodup_middle, List.nodup_cons, List.mem_append, not_or] at hout
      obtain ⟨rfl, -, rfl⟩ := (List.append_cons_inj_of_notMem hout.1.1 hout.1.2).mp
        (hlist.symm.trans (toList_plug_node fs c l r v))
      rw [(pickPreferBest_first hnodup hv hfirst').mpr (hunpruned fs c l v r rfl hv hfirst'), hlist]
      exact earliest_of_first (hlist ▸ hsorted) hv hfirst'

/-- Two tasks with the same deadline; the second one prefers the core. -/
def together : RBTree Queued :=
  node .black nil { deadline := 10, task := 1 }
    (node .red nil { deadline := 10, task := 2, coreHint := .pCore } nil)

theorem together_sorted : Sorted deadlineCmp together.toList := by
  simp [Sorted, together, toList]
  decide

def togetherQueue : EevdfRunqueue := { sumWeight := 2048 }

/-- The running task, which wins but for the preference. -/
def runner (deadline : UInt64) : SchedEntity := { deadline }

theorem pickPreferring_together :
    Earliest togetherQueue (some (runner 6)) .pCore (limitOf (runner 6)) together.toList
        (pickPreferring togetherQueue (some (runner 6)) .pCore together (runner 6)) ↔
      Unpruned togetherQueue (some (runner 6)) .pCore (limitOf (runner 6)) together :=
  pickPreferring_earliest_iff _ _ _ _ together together_sorted

/-- Both deadlines are at the limit of twice the runner's: the second task is missed. -/
theorem pickPreferring_misses :
    together.toList.foldlM (fun erq q => EevdfRunqueue.addToAvg erq q.toSchedEntity) {} =
        .ok togetherQueue ∧
      Sorted deadlineCmp together.toList ∧ Augmented together ∧
      pickPreferring togetherQueue (some (runner 5)) .pCore together (runner 5) = none ∧
      ¬ Earliest togetherQueue (some (runner 5)) .pCore (limitOf (runner 5)) together.toList
        (pickPreferring togetherQueue (some (runner 5)) .pCore together (runner 5)) := by
  have hpick : pickPreferring togetherQueue (some (runner 5)) .pCore together (runner 5) = none := by
    decide
  refine ⟨rfl, together_sorted, by simp [Augmented, together, toList], hpick, ?_⟩
  rw [hpick]
  intro h
  exact h { deadline := 10, task := 2, coreHint := .pCore } (by simp [together, toList]) (by decide)

end

end Innigkeit.Task.Sched

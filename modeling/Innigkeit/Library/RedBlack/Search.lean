import Innigkeit.Library.RedBlack.Tree
import Mathlib.Data.List.Nodup

/-!
Search in an ordered tree. The order is a comparison that is oriented and transitive;
values that compare equal need not be the same. A search ends at an empty place or at
a value that compares equal, and everything before that place is smaller and
everything after it is larger.
-/

namespace RedBlack

open RBTree Context Std TransCmp

variable {α : Type*}

/-- In order, by the comparison. -/
def Sorted (cmp : α → α → Ordering) (l : List α) : Prop := l.Pairwise fun x y => cmp x y = .lt

def locate (cmp : α → α → Ordering) (x : α) : Context α → RBTree α → Context α × RBTree α
  | fs, nil => (fs, nil)
  | fs, node c l v r =>
    match cmp x v with
    | .lt => locate cmp x (⟨c, .left, v, r⟩ :: fs) l
    | .gt => locate cmp x (⟨c, .right, v, l⟩ :: fs) r
    | .eq => (fs, node c l v r)

/-- The hole is a place for `x`. -/
structure Between (cmp : α → α → Ordering) (x : α) (fs : Context α) : Prop where
  before : ∀ y ∈ before fs, cmp y x = .lt
  after : ∀ y ∈ after fs, cmp x y = .lt

section

variable {cmp : α → α → Ordering} {x : α} {fs : Context α} {t : RBTree α}

theorem plug_locate : plug (locate cmp x fs t).1 (locate cmp x fs t).2 = plug fs t := by
  induction t generalizing fs with
  | nil => rfl
  | node c l v r ihl ihr =>
    rw [locate]
    split
    · exact ihl
    · exact ihr
    · rfl

theorem locate_root (cmp : α → α → Ordering) (x : α) (fs : Context α) (t : RBTree α) :
    (locate cmp x fs t).2 = nil ∨
    ∃ c l v r, (locate cmp x fs t).2 = node c l v r ∧ cmp x v = .eq := by
  induction t generalizing fs with
  | nil => exact .inl rfl
  | node c l v r ihl ihr =>
    rw [locate]
    split
    · exact ihl _
    · exact ihr _
    · next heq => exact .inr ⟨c, l, v, r, rfl, heq⟩

theorem Sorted.plug (h : Sorted cmp (plug fs t).toList) : Sorted cmp t.toList := by
  rw [toList_plug] at h
  exact (List.pairwise_append.mp (List.pairwise_append.mp h).1).2.1

theorem locate_between [TransCmp cmp] (hsorted : Sorted cmp (plug fs t).toList)
    (h : Between cmp x fs) : Between cmp x (locate cmp x fs t).1 := by
  induction t generalizing fs with
  | nil => exact h
  | node c l v r ihl ihr =>
    have ht : Sorted cmp (l.toList ++ v :: r.toList) := hsorted.plug
    obtain ⟨-, hr, hl⟩ := List.pairwise_append.mp ht
    rw [locate]
    split
    · next hlt =>
      refine ihl hsorted ⟨?_, ?_⟩
      · intro y hy
        rw [before, List.append_nil] at hy
        exact h.before y hy
      · intro y hy
        rw [after, List.mem_append, List.mem_cons] at hy
        obtain (rfl | hy) | hy := hy
        · exact hlt
        · exact lt_trans hlt (List.rel_of_pairwise_cons hr hy)
        · exact h.after y hy
    · next hgt =>
      have hlt := OrientedCmp.lt_of_gt hgt
      refine ihr hsorted ⟨?_, ?_⟩
      · intro y hy
        rw [before, List.mem_append, List.mem_append, List.mem_singleton] at hy
        obtain hy | hy | rfl := hy
        · exact h.before y hy
        · exact lt_trans (hl y hy v (List.mem_cons_self ..)) hlt
        · exact hlt
      · intro y hy
        rw [after, List.nil_append] at hy
        exact h.after y hy
    · exact h

theorem locate_eq_some [TransCmp cmp] (hsorted : Sorted cmp t.toList) {v : α} :
    (locate cmp x fs t).2.root = some v ↔ v ∈ t.toList ∧ cmp x v = .eq := by
  induction t generalizing fs with
  | nil => simp [locate, root, toList]
  | node c l w r ihl ihr =>
    obtain ⟨hl, hr, hlr⟩ := List.pairwise_append.mp hsorted
    obtain ⟨hw, hr⟩ := List.pairwise_cons.mp hr
    -- a value that compares equal to `x` stands where `x` would
    have hside (h : cmp x v = .eq) : cmp v w = cmp x w := congr_left (OrientedCmp.eq_symm h)
    have hleft (h : v ∈ l.toList) : cmp v w = .lt := hlr v h w List.mem_cons_self
    have hright (h : v ∈ r.toList) : cmp v w = .gt := OrientedCmp.gt_of_lt (hw v h)
    have hself : cmp w w = .eq := ReflCmp.compare_self
    rw [locate, toList, List.mem_append, List.mem_cons]
    split
    · rw [ihl hl]
      grind
    · rw [ihr hr]
      grind
    · rw [root, Option.some.injEq]
      grind

variable {l : List α} {v : α}

theorem Sorted.replace [TransCmp cmp] {r : List α} (h : Sorted cmp (l ++ v :: r))
    (heq : cmp x v = .eq) : Sorted cmp (l ++ x :: r) := by
  obtain ⟨hl, hr, hlr⟩ := List.pairwise_append.mp h
  obtain ⟨hv, hr⟩ := List.pairwise_cons.mp hr
  refine List.pairwise_append.mpr ⟨hl, List.pairwise_cons.mpr ⟨?_, hr⟩, ?_⟩
  · intro y hy
    exact lt_of_eq_of_lt heq (hv y hy)
  · intro y hy z hz
    rw [List.mem_cons] at hz
    obtain rfl | hz := hz
    · exact lt_of_lt_of_eq (hlr y hy v (List.mem_cons_self ..)) (OrientedCmp.eq_symm heq)
    · exact hlr y hy z (List.mem_cons_of_mem _ hz)

theorem Sorted.insert {r : List α} (h : Sorted cmp (l ++ r)) (hl : ∀ y ∈ l, cmp y x = .lt)
    (hr : ∀ y ∈ r, cmp x y = .lt) : Sorted cmp (l ++ x :: r) := by
  obtain ⟨hsl, hsr, hlr⟩ := List.pairwise_append.mp h
  refine List.pairwise_append.mpr ⟨hsl, List.pairwise_cons.mpr ⟨hr, hsr⟩, ?_⟩
  intro y hy z hz
  rw [List.mem_cons] at hz
  obtain rfl | hz := hz
  · exact hl y hy
  · exact hlr y hy z hz

end

section

variable (enter accept right : α → Bool)

/-- The first value in order that is accepted; a subtree is searched only if it may be
entered by its root, and a right subtree only if the value above it allows that. -/
def prunedFind : RBTree α → Option α
  | nil => none
  | node _ l v r =>
    if enter v = false then none
    else match prunedFind l with
      | some w => some w
      | none => if accept v then some v else if right v then prunedFind r else none

/-- The search goes on below a node on the way down. -/
def Open (f : Frame α) : Prop := enter f.value = true ∧ (f.side = .right → right f.value = true)

variable {enter accept right} {t l r : RBTree α} {v : α} {f : Frame α} {fs : Context α}

theorem prunedFind_mem (h : prunedFind enter accept right t = some v) :
    v ∈ t.toList ∧ accept v = true := by
  induction t with
  | nil => cases h
  | node c l q r ihl ihr =>
    rw [prunedFind] at h
    split at h
    · cases h
    · split at h
      · next hl =>
        cases h
        exact ⟨List.mem_append_left _ (ihl hl).1, (ihl hl).2⟩
      · split at h
        · next hq =>
          cases h
          exact ⟨by simp [toList], hq⟩
        · split at h
          · exact ⟨by simp [toList, (ihr h).1], (ihr h).2⟩
          · cases h

theorem prunedFind_none (h : ∀ q ∈ t.toList, accept q = false) :
    prunedFind enter accept right t = none := by
  cases hfind : prunedFind enter accept right t with
  | none => rfl
  | some w =>
    obtain ⟨hmem, hw⟩ := prunedFind_mem hfind
    rw [h w hmem] at hw
    cases hw

/-- The search comes to a value below a node exactly if it goes on there. -/
theorem prunedFind_fill (hv : v ∉ f.value :: f.other.toList)
    (hfirst : f.side = .right → ∀ q ∈ f.value :: f.other.toList, accept q = false) :
    prunedFind enter accept right (f.fill t) = some v ↔
      prunedFind enter accept right t = some v ∧ Open enter right f := by
  obtain ⟨c, side, q, other⟩ := f
  simp only [List.mem_cons, not_or] at hv
  have hother : prunedFind enter accept right other ≠ some v := fun h => hv.2 (prunedFind_mem h).1
  cases side with
  | left =>
    simp only [Frame.fill, make, prunedFind, Open]
    split
    · simp_all
    · cases prunedFind enter accept right t with
      | some w => simp_all
      | none =>
        have hq : q ≠ v := fun h => hv.1 h.symm
        simp only [reduceCtorEq, false_and, iff_false]
        split <;> [simpa using hq; split] <;> simp_all
  | right =>
    have hnone : prunedFind enter accept right other = none :=
      prunedFind_none fun e he => hfirst rfl e (List.mem_cons_of_mem _ he)
    have hq : accept q = false := hfirst rfl q List.mem_cons_self
    simp only [Frame.fill, make, prunedFind, Open, hnone, hq]
    split
    · simp_all
    · simp_all [and_comm]

theorem prunedFind_plug (hnodup : (plug fs t).toList.Nodup) (hv : v ∈ t.toList)
    (hfirst : ∀ q ∈ before fs, accept q = false) :
    prunedFind enter accept right (plug fs t) = some v ↔
      prunedFind enter accept right t = some v ∧ ∀ f ∈ fs, Open enter right f := by
  induction fs generalizing t with
  | nil => simp [plug]
  | cons f fs ih =>
    have hfill : (f.fill t).toList.Nodup := by
      rw [plug, toList_plug] at hnodup
      exact (List.nodup_append.mp (List.nodup_append.mp hnodup).1).2.1
    have hmem : v ∈ (f.fill t).toList ∧ v ∉ f.value :: f.other.toList := by
      rw [Frame.fill, toList_make] at hfill ⊢
      cases hside : f.side with
      | left =>
        rw [hside] at hfill
        exact ⟨List.mem_append_left _ hv, fun h => (List.nodup_append.mp hfill).2.2 v hv v h rfl⟩
      | right =>
        rw [hside, List.nodup_middle, List.nodup_cons, List.nodup_append] at hfill
        refine ⟨by simp [hv], fun h => ?_⟩
        obtain rfl | h := List.mem_cons.mp h
        · exact hfill.1 (List.mem_append_right _ hv)
        · exact hfill.2.2.2 v h v hv rfl
    rw [plug, ih hnodup hmem.1 fun q hq => hfirst q (List.mem_append_left _ hq),
      prunedFind_fill hmem.2 fun hside q hq => hfirst q (by simp_all [before, or_comm]), and_assoc,
      List.forall_mem_cons]

/-- The first accepted value is found exactly if the search goes on all the way to it. -/
theorem prunedFind_first {c : Color} (hnodup : (plug fs (node c l v r)).toList.Nodup)
    (hv : accept v = true) (hfirst : ∀ q ∈ before fs ++ l.toList, accept q = false) :
    prunedFind enter accept right (plug fs (node c l v r)) = some v ↔
      enter v = true ∧ ∀ f ∈ fs, Open enter right f := by
  rw [prunedFind_plug hnodup (by simp [toList]) fun q hq => hfirst q (List.mem_append_left _ hq)]
  simp [prunedFind, prunedFind_none fun q hq => hfirst q (List.mem_append_right _ hq), hv]

end

section

def edge : Side → List α → Option α
  | .left, l => l.head?
  | .right, l => l.getLast?

variable {side : Side} {c : Color}

theorem edge_make {near far : RBTree α} {v w : α}
    (h : edge side near.toList = some w) : edge side (make side c near v far).toList = some w := by
  cases side with
  | left =>
    have hhead : near.toList.head? = some w := h
    simp [edge, make, toList, hhead]
  | right =>
    have hlast : near.toList.getLast? = some w := h
    have hlist : (make .right c near v far).toList = (far.toList ++ [v]) ++ near.toList := by
      simp [make, toList]
    rw [hlist, edge, List.getLast?_append, hlast]
    rfl

end

end RedBlack

import Innigkeit.Core.RedBlackWalk

/-!
The ordered queries of the tree: the stored node next to a probe, and the neighbours of
a stored node. The climb that ends a query reads the side bits only; along the context of
a place they say what comes before and after it.
-/

namespace Innigkeit.Core.RedBlackTree

open Zig RedBlack RedBlack.RBTree RedBlack.Context Std OrientedCmp

variable {Ptr Aug : Type}

/-- The side on which the search for a probe goes on, by its comparison with a node. -/
def towards : Ordering → Option Side
  | .gt => some .right
  | .lt => some .left
  | .eq => none

/-- The loop of `getEntryOrLarger`, where `dir` is the right side, and of
`getEntryOrSmaller`, where it is the left one. -/
def getEntryOrLoop (comparator : Ptr → Ptr → Ordering) (s : RedBlackTree Ptr Aug) (bound : ℕ)
    (dir : Side) (node : Ptr) : ℕ → Ptr → Checked (Option Ptr)
  | 0, _ => .error .panic
  | fuel + 1, cur =>
    match towards (comparator node cur) with
    | none => .ok (some cur)
    | some side =>
      match (s.nodes cur).link side with
      | some next => s.getEntryOrLoop comparator bound dir node fuel next
      | none => if side = dir then s.advance bound cur dir else .ok (some cur)

def getEntryOr (comparator : Ptr → Ptr → Ordering) (s : RedBlackTree Ptr Aug) (bound : ℕ)
    (dir : Side) (node : Ptr) : Checked (Option Ptr) :=
  match s.root with
  | none => .ok none
  | some root => s.getEntryOrLoop comparator bound dir node (bound + 1) root

def getEntryOrLarger (comparator : Ptr → Ptr → Ordering) (s : RedBlackTree Ptr Aug) (bound : ℕ)
    (node : Ptr) : Checked (Option Ptr) :=
  s.getEntryOr comparator bound .right node

def getEntryOrSmaller (comparator : Ptr → Ptr → Ordering) (s : RedBlackTree Ptr Aug) (bound : ℕ)
    (node : Ptr) : Checked (Option Ptr) :=
  s.getEntryOr comparator bound .left node

/-- `found` is the node of `l` that is not `short` of `x` and nearest to it: with `.lt` the
smallest one that is not less, with `.gt` the largest one that is not greater. -/
def IsNearest (cmp : Ptr → Ptr → Ordering) (short : Ordering) (x : Ptr) (l : List Ptr) :
    Option Ptr → Prop
  | none => ∀ y ∈ l, cmp y x = short
  | some v => v ∈ l ∧ cmp v x ≠ short ∧ ∀ y ∈ l, cmp y x ≠ short → cmp v y ≠ short.swap

section

variable {s : RedBlackTree Ptr Aug} {fs : Context Ptr} {t : RBTree Ptr} {bound : ℕ}

def besideHole : Side → Context Ptr → Option Ptr
  | .left, fs => (before fs).getLast?
  | .right, fs => (after fs).head?

theorem beside_empty {c : Color} {far : RBTree Ptr} {p : Ptr} (side dir : Side)
    (h : s.Holds fs (make side c nil p far)) (hfs : fs.length ≤ bound) :
    (if side = dir then s.advance bound p dir else .ok (some p)) =
      .ok (besideHole dir (⟨c, side, p, far⟩ :: fs)) := by
  cases side with
  | left =>
    cases dir with
    | left =>
      have hp : s.advance bound p .left = .ok (before fs ++ []).getLast? :=
        predecessor_eq h hfs (Nat.zero_le _)
      simpa [besideHole, before] using hp
    | right => simp [besideHole, after]
  | right =>
    cases dir with
    | left => simp [besideHole, before]
    | right =>
      have hp : s.advance bound p .right = .ok ([] ++ after fs).head? :=
        successor_eq h hfs (Nat.zero_le _)
      simpa [besideHole, after] using hp

theorem getEntryOrLoop_eq (cmp : Ptr → Ptr → Ordering) (dir : Side) (x : Ptr) {fuel : ℕ} {p : Ptr}
    (h : s.Holds fs t) (hroot : t.root = some p) (hfuel : t.toList.length < fuel)
    (hbound : fs.length + t.toList.length ≤ bound) :
    s.getEntryOrLoop cmp bound dir x fuel p =
      .ok ((locate cmp x fs t).2.root.or (besideHole dir (locate cmp x fs t).1)) := by
  induction t generalizing fs fuel p with
  | nil => cases hroot
  | node c l v r ihl ihr =>
    cases hroot
    obtain ⟨fuel, rfl⟩ := Nat.exists_eq_add_one.mpr (Nat.zero_lt_of_lt hfuel)
    simp only [toList, List.length_append, List.length_cons] at hfuel hbound
    have hat : At s.nodes (parentOf fs) (holeSide fs) (node c l v r) := h.at_
    rw [getEntryOrLoop, locate]
    cases cmp x v with
    | eq => rfl
    | lt =>
      dsimp only [towards]
      rw [hat.2.1]
      cases l with
      | nil => exact beside_empty .left dir h (by omega)
      | node c' l' q r' =>
        exact ihl (Holds.cons_iff.mpr h) rfl (by omega) (by rw [List.length_cons]; omega)
    | gt =>
      dsimp only [towards]
      rw [hat.2.2.1]
      cases r with
      | nil => exact beside_empty .right dir h (by omega)
      | node c' l' q r' =>
        exact ihr (Holds.cons_iff.mpr h) rfl (by omega) (by rw [List.length_cons]; omega)

theorem getEntryOr_eq (cmp : Ptr → Ptr → Ordering) (dir : Side) (x : Ptr) (h : s.Holds [] t)
    (hbound : t.toList.length ≤ bound) :
    s.getEntryOr cmp bound dir x =
      .ok ((locate cmp x [] t).2.root.or (besideHole dir (locate cmp x [] t).1)) := by
  have hroot : s.root = t.root := h.around
  rw [getEntryOr, hroot]
  cases t with
  | nil => cases dir <;> rfl
  | node c l v r =>
    exact getEntryOrLoop_eq cmp dir x h rfl (Nat.lt_succ_of_le hbound) (by simpa using hbound)

end

section

variable {cmp : Ptr → Ptr → Ordering} [TransCmp cmp] {x v : Ptr} {t : RBTree Ptr}

theorem isNearest_of_eq {short : Ordering} {l : List Ptr} (hshort : short ≠ .eq) (hv : v ∈ l)
    (heq : cmp x v = .eq) : IsNearest cmp short x l (some v) := by
  have hvx : cmp v x = .eq := eq_symm heq
  refine ⟨hv, by rw [hvx]; exact hshort.symm, ?_⟩
  intro y hy hyx hvy
  have hyv : cmp y v = (cmp v y).swap := eq_swap
  rw [hvy, Ordering.swap_swap] at hyv
  exact hyx (by rw [← hyv]; exact TransCmp.congr_right heq)

theorem isNearest_of_end {short : Ordering} {l near far : List Ptr} {found : Option Ptr}
    (hshort : short ≠ .eq) (hl : ∀ y, y ∈ l ↔ y ∈ near ∨ y ∈ far)
    (hnear : ∀ y ∈ near, cmp y x = short) (hfar : ∀ y ∈ far, cmp y x = short.swap)
    (hnone : found = none → far = [])
    (hsome : ∀ v, found = some v → v ∈ far ∧ ∀ y ∈ far, y = v ∨ cmp v y = short) :
    IsNearest cmp short x l found := by
  have hswap : short.swap ≠ short := by cases short <;> simp_all
  cases found with
  | none =>
    intro y hy
    rw [hl, hnone rfl] at hy
    exact hnear y (by simpa using hy)
  | some v =>
    obtain ⟨hv, hend⟩ := hsome v rfl
    refine ⟨(hl v).mpr (.inr hv), by rw [hfar v hv]; exact hswap, ?_⟩
    intro y hy hyx
    obtain hy | hy := (hl y).mp hy
    · exact absurd (hnear y hy) hyx
    · obtain rfl | hvy := hend y hy
      · have hself : cmp y y = .eq := ReflCmp.compare_self
        rw [hself]
        cases short <;> simp_all
      · rw [hvy]
        exact hswap.symm

theorem isNearest_besideHole {fs : Context Ptr} (hsorted : Sorted cmp (before fs ++ after fs))
    (h : Between cmp x fs) :
    IsNearest cmp .lt x (before fs ++ after fs) (besideHole .right fs) ∧
      IsNearest cmp .gt x (before fs ++ after fs) (besideHole .left fs) := by
  obtain ⟨hbefore, hafter, -⟩ := List.pairwise_append.mp hsorted
  have hgt : ∀ y ∈ after fs, cmp y x = .gt := fun y hy => gt_of_lt (h.after y hy)
  constructor
  · refine isNearest_of_end (by decide) (fun y => List.mem_append) h.before hgt
      List.head?_eq_none_iff.mp ?_
    intro v hv
    obtain ⟨rest, hrest⟩ := List.head?_eq_some_iff.mp hv
    rw [hrest] at hafter ⊢
    refine ⟨List.mem_cons_self, fun y hy => (List.mem_cons.mp hy).imp_right ?_⟩
    exact List.rel_of_pairwise_cons hafter
  · refine isNearest_of_end (by decide) (fun y => List.mem_append.trans or_comm) hgt h.before
      List.getLast?_eq_none_iff.mp ?_
    intro v hv
    obtain ⟨rest, hrest⟩ := List.getLast?_eq_some_iff.mp hv
    rw [hrest] at hbefore ⊢
    refine ⟨by simp, fun y hy => ?_⟩
    obtain hy | hy := List.mem_append.mp hy
    · have hlt : cmp y v = .lt := (List.pairwise_append.mp hbefore).2.2 y hy v (by simp)
      exact .inr (gt_of_lt hlt)
    · exact .inl (List.mem_singleton.mp hy)

/-- What the search of a probe comes to is next to it. -/
theorem isNearest_locate (hsorted : Sorted cmp t.toList) :
    IsNearest cmp .lt x t.toList
        ((locate cmp x [] t).2.root.or (besideHole .right (locate cmp x [] t).1)) ∧
      IsNearest cmp .gt x t.toList
        ((locate cmp x [] t).2.root.or (besideHole .left (locate cmp x [] t).1)) := by
  have hplug : plug (locate cmp x [] t).1 (locate cmp x [] t).2 = t := plug_locate
  have hbetween : Between cmp x (locate cmp x [] t).1 :=
    locate_between hsorted ⟨by simp [before], by simp [after]⟩
  have hlist := congrArg toList hplug
  rw [toList_plug] at hlist
  obtain hnil | ⟨c, l, v, r, hnode, heq⟩ := locate_root cmp x [] t
  · rw [hnil, toList, List.append_nil] at hlist
    rw [hnil, ← hlist]
    rw [← hlist] at hsorted
    exact isNearest_besideHole hsorted hbetween
  · have hv : v ∈ t.toList := by
      rw [← hlist, hnode]
      simp [toList]
    rw [hnode]
    exact ⟨isNearest_of_eq (by decide) hv heq, isNearest_of_eq (by decide) hv heq⟩

end

section

variable {s : RedBlackTree Ptr Aug} {t : RBTree Ptr} {bound : ℕ}

theorem neighbours_eq (h : s.Holds [] t) (hbound : t.toList.length ≤ bound) {l r : List Ptr}
    {p : Ptr} (hlist : t.toList = l ++ p :: r) :
    s.successor bound p = .ok r.head? ∧ s.predecessor bound p = .ok l.getLast? := by
  obtain ⟨fs, c, tl, tr, rfl⟩ := exists_plug_of_mem (show p ∈ t.toList by simp [hlist])
  have hin : s.Holds fs (node c tl p tr) := h.unplug
  have hlength : fs.length + (node c tl p tr).toList.length ≤ bound := by
    have hperm := (toList_plug_perm fs (node c tl p tr)).length_eq
    have hvalues := length_le_values fs
    rw [List.length_append] at hperm
    omega
  simp only [toList, List.length_append, List.length_cons] at hlength
  have hnodup : (plug fs (node c tl p tr)).toList.Nodup := by
    rw [(toList_plug_perm ..).nodup_iff]
    exact hin.nodup
  rw [hlist, List.nodup_middle, List.nodup_cons, List.mem_append, not_or] at hnodup
  rw [toList_plug_node] at hlist
  obtain ⟨rfl, -, rfl⟩ := (List.append_cons_inj_of_notMem hnodup.1.1 hnodup.1.2).mp hlist.symm
  exact ⟨successor_eq hin (by omega) (by omega), predecessor_eq hin (by omega) (by omega)⟩

/-- For every tree that the memory holds in order, a query for a probe returns the nearest
stored node on its side, and the neighbours of a stored node are those of the order. -/
theorem queries_correct (cmp : Ptr → Ptr → Ordering) [TransCmp cmp] (h : s.Holds [] t)
    (hsorted : Sorted cmp t.toList) (hbound : t.toList.length ≤ bound) :
    (∀ x, ∃ larger smaller, s.getEntryOrLarger cmp bound x = .ok larger ∧
      s.getEntryOrSmaller cmp bound x = .ok smaller ∧ IsNearest cmp .lt x t.toList larger ∧
      IsNearest cmp .gt x t.toList smaller) ∧
    ∀ l p r, t.toList = l ++ p :: r →
      s.successor bound p = .ok r.head? ∧ s.predecessor bound p = .ok l.getLast? := by
  constructor
  · intro x
    obtain ⟨hlarger, hsmaller⟩ := isNearest_locate (x := x) hsorted
    exact ⟨_, _, getEntryOr_eq cmp .right x h hbound, getEntryOr_eq cmp .left x h hbound, hlarger,
      hsmaller⟩
  · intro l p r hlist
    exact neighbours_eq h hbound hlist

/-- A memory that holds a root and its right child. -/
def pair : RedBlackTree ℕ Unit where
  root := some 1
  first := some 1
  last := some 2
  nodes := fun p =>
    if p = 1 then { right := some 2, isolated := false }
    else if p = 2 then
      { color := .red, side := .right, isolated := false, parent := some 1 }
    else {}
  aug := ()

theorem pair_holds : pair.Holds [] (node .black nil 1 (node .red nil 2 nil)) :=
  ⟨rfl, ⟨⟨rfl, rfl, rfl, fun h => absurd rfl h⟩, rfl, rfl, trivial,
    ⟨rfl, rfl, rfl, fun _ => rfl⟩, rfl, rfl, trivial, trivial⟩, by decide⟩

theorem pair_queries :
    (∀ x, ∃ larger smaller, pair.getEntryOrLarger compare 2 x = .ok larger ∧
      pair.getEntryOrSmaller compare 2 x = .ok smaller ∧ IsNearest compare .lt x [1, 2] larger ∧
      IsNearest compare .gt x [1, 2] smaller) ∧
    ∀ l p r, [1, 2] = l ++ p :: r →
      pair.successor 2 p = .ok r.head? ∧ pair.predecessor 2 p = .ok l.getLast? :=
  queries_correct compare pair_holds (by simp [Sorted, toList]; rfl) (by decide)

end

end Innigkeit.Core.RedBlackTree

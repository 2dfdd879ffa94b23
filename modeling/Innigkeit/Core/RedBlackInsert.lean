import Innigkeit.Core.RedBlackPut
import Innigkeit.Core.RedBlackReplace
import Innigkeit.Core.RedBlackWalk
import Innigkeit.Library.Transition

/-!
Insertion into a red-black tree and the search in it. `Represents` is what holds between
two operations: the memory holds a valid tree that is in order, and the tree's fields know
its first and last node and its size. Over the runs of `put` the tree is a map.
-/

namespace Innigkeit.Core.RedBlackTree

open Zig Function RedBlack RedBlack.RBTree RedBlack.Context Relation

variable {Ptr Aug : Type} [DecidableEq Ptr]

structure Represents (cmp : Ptr → Ptr → Ordering) (s : RedBlackTree Ptr Aug) (t : RBTree Ptr) :
    Prop where
  holds : s.Holds [] t
  sorted : Sorted cmp t.toList
  valid : ∃ height, t.Valid height
  first : s.first = t.toList.head?
  last : s.last = t.toList.getLast?
  size : s.size = t.toList.length
  outside : ∀ p, p ∉ t.toList → (s.nodes p).isolated = true

section

variable {s : RedBlackTree Ptr Aug} {fs : Context Ptr} {x : Ptr}

omit [DecidableEq Ptr] in
theorem Holds.not_mem {t : RBTree Ptr} (h : s.Holds [] t) (hx : (s.nodes x).isolated = true) :
    x ∉ t.toList := by
  intro hmem
  rw [h.at_.isolated hmem] at hx
  cases hx

/-- A node that has just been put below `parent`. -/
def attached (node : Node Ptr) (parent : Option Ptr) (side : Side) : Node Ptr :=
  { left := none, right := none, color := .red, isolated := false, parent,
    side := if parent = none then node.side else side }

theorem attach_eq (side : Side) {parent : Option Ptr} {fresh : Node Ptr} (hne : parent ≠ some x)
    (hlink : ∀ p, parent = some p → (s.nodes p).link side = some x ∧
      (s.nodes p).link side.flip ≠ some x)
    (hfresh : attached (s.nodes x) parent side = fresh) :
    s.attach x parent = { s with
      nodes := update s.nodes x fresh
      size := s.size + 1
      first := if s.first = none ∨ s.first = parent ∧ fresh.side = .left then some x else s.first
      last := if s.last = none ∨ s.last = parent ∧ fresh.side = .right then some x
        else s.last } := by
  have hreset : (s.modify x fun node => { node with
      left := none, right := none, color := .red, isolated := false, parent }).resetSide x =
        { s with nodes := update s.nodes x fresh } := by
    subst hfresh
    rw [resetSide_eq side]
    · simp [modify, attached]
    · intro p hp
      obtain rfl : parent = some p := by simpa [modify] using hp
      have hpx : p ≠ x := fun heq => hne (congrArg some heq)
      simpa [modify, hpx] using hlink p rfl
  simp only [attach, hreset, update_self]
  split <;> split <;> simp_all

theorem attach_write_eq (h : s.Holds fs nil) (hx : x ∉ values fs) :
    (s.write (slotOf fs) (some x)).attach x (parentOf fs) =
      let fresh := attached (s.nodes x) (parentOf fs) (holeSide fs)
      { s.write (slotOf fs) (some x) with
        nodes := update (s.write (slotOf fs) (some x)).nodes x fresh
        size := s.size + 1
        first := if s.first = none ∨ s.first = parentOf fs ∧ fresh.side = .left then some x
          else s.first
        last := if s.last = none ∨ s.last = parentOf fs ∧ fresh.side = .right then some x
          else s.last } := by
  have hne : parentOf fs ≠ some x := fun heq => hx (mem_values_of_parentOf heq)
  have hself : (s.write (slotOf fs) (some x)).nodes x = s.nodes x := nodes_write_slotOf hne
  rw [attach_eq (holeSide fs) hne ?_ rfl, hself]
  · cases fs <;> rfl
  · intro p hp
    cases fs with
    | nil => cases hp
    | cons f fs =>
      cases hp
      obtain ⟨-, hlink, hother, -⟩ := h.write (some x)
      refine ⟨hlink, ?_⟩
      rw [holeSide, hother]
      intro heq
      exact hx (by simp [values, mem_toList_of_root heq])

theorem attach_holds (h : s.Holds fs nil) (hx : x ∉ values fs) :
    ((s.write (slotOf fs) (some x)).attach x (parentOf fs)).Holds fs (node .red nil x nil) := by
  have hnodup : (values fs).Nodup := by simpa [toList] using h.nodup
  rw [attach_write_eq h hx]
  refine ⟨(h.write (some x)).congr ?_, ⟨⟨?_, ?_, ?_, ?_⟩, ?_, ?_, trivial, trivial⟩, ?_⟩
  · intro p hp
    have hne : p ≠ x := fun heq => hx (heq ▸ hp)
    exact update_of_ne hne ..
  · simp [attached]
  · simp [attached]
  · simp [attached]
  · intro hne
    simp [attached, hne]
  · simp [attached, Node.link, RBTree.root]
  · simp [attached, Node.link, RBTree.root]
  · simpa [toList] using ⟨hx, hnodup⟩

theorem first_attach {first : Option Ptr} {node : Node Ptr}
    (hnodup : (before fs ++ after fs).Nodup) (hfirst : first = (before fs ++ after fs).head?) :
    (if first = none ∨ first = parentOf fs ∧
        (attached node (parentOf fs) (holeSide fs)).side = .left then some x else first) =
      (before fs ++ x :: after fs).head? := by
  cases fs with
  | nil => simp [hfirst, before, after]
  | cons f fs =>
    simp only [attached, parentOf, holeSide, reduceCtorEq, if_false]
    cases hside : f.side with
    | left =>
      simp only [before, after, hside, List.append_nil, List.cons_append] at *
      cases hb : before fs with
      | nil => simp [hfirst, hb]
      | cons y ys =>
        rw [hb] at hfirst hnodup
        have hne : y ≠ f.value := by
          rintro rfl
          simp at hnodup
        simp [hfirst, hne]
    | right =>
      obtain ⟨y, ys, hb⟩ : ∃ y ys, before (f :: fs) = y :: ys :=
        List.exists_cons_of_ne_nil (by simp [before, hside])
      rw [hb] at hfirst ⊢
      simp [hfirst]

theorem last_attach {last : Option Ptr} {node : Node Ptr}
    (hnodup : (before fs ++ after fs).Nodup) (hlast : last = (before fs ++ after fs).getLast?) :
    (if last = none ∨ last = parentOf fs ∧
        (attached node (parentOf fs) (holeSide fs)).side = .right then some x else last) =
      (before fs ++ x :: after fs).getLast? := by
  have hend (l ys : List Ptr) (y : Ptr) : (l ++ ys.concat y).getLast? = some y := by
    simp [← List.append_assoc]
  have hend' (l ys : List Ptr) (y : Ptr) : (l ++ x :: ys.concat y).getLast? = some y := by
    have hlist : l ++ x :: ys.concat y = (l ++ x :: ys) ++ [y] := by simp
    rw [hlist, List.getLast?_concat]
  cases fs with
  | nil => simp [hlast, before, after]
  | cons f fs =>
    simp only [attached, parentOf, holeSide, reduceCtorEq, if_false]
    cases hside : f.side with
    | right =>
      simp only [before, after, hside, List.nil_append] at *
      obtain ha | ⟨ys, y, ha⟩ := List.eq_nil_or_concat (after fs)
      · simp [hlast, ha]
      · rw [ha] at hlast hnodup ⊢
        have hne : y ≠ f.value := by
          rintro rfl
          simp [List.nodup_append] at hnodup
        rw [hlast, hend, hend']
        simp [hne]
    | left =>
      obtain ha | ⟨ys, y, ha⟩ := List.eq_nil_or_concat (after (f :: fs))
      · simp [after, hside] at ha
      · rw [ha] at hlast ⊢
        rw [hlast, hend, hend']
        simp

end

open Equiv

section

variable {cmp : Ptr → Ptr → Ordering} {s : RedBlackTree Ptr Aug} {fs : Context Ptr} {x : Ptr}

theorem rebalanceAfterPut_turned {s₁ : RedBlackTree Ptr Aug} (onRotate : OnRotate Ptr Aug)
    (h : s₁.Holds fs (node .red nil x nil)) (hsize : fs.length ≤ s₁.size) :
    ∃ s', s₁.rebalanceAfterPut onRotate x = .ok s' ∧ Turned onRotate (· ≠ x) s₁ s'
      (plug fs (node .red nil x nil)) (fixPut fs (node .red nil x nil)) := by
  rw [rebalanceAfterPut, h.at_.1.parent]
  cases fs with
  | nil => exact ⟨s₁, rfl, .refl h⟩
  | cons f fs =>
    refine putStart_turned (.refl h.plug) hsize ?_
    rintro p hp rfl
    have hnodup := h.nodup
    simp [toList, hp] at hnodup

theorem putEntry_insert (onRotate : OnRotate Ptr Aug) (h : Represents cmp s (plug fs nil))
    (hbetween : Between cmp x fs) (hx : (s.nodes x).isolated = true) :
    ∃ s', s.putEntry onRotate ⟨parentOf fs, slotOf fs⟩ x = .ok (none, s') ∧
      Represents cmp s' (fixPut fs (node .red nil x nil)) ∧
      ReflTransGen (Turn onRotate (· ≠ x)) (plug fs (node .red nil x nil), s.aug)
        (fixPut fs (node .red nil x nil), s'.aug) := by
  have hholds : s.Holds fs nil := h.holds.unplug
  have hlist : (plug fs nil).toList = before fs ++ after fs := by
    rw [toList_plug, toList, List.append_nil]
  have hnodup : (before fs ++ after fs).Nodup := by
    simpa [values, hlist] using h.holds.nodup
  have hvalues : x ∉ values fs := by
    have hmem := h.holds.not_mem hx
    rwa [(toList_plug_perm fs nil).mem_iff, toList, List.nil_append] at hmem
  have hdepth : fs.length ≤ s.size := by
    rw [h.size, (toList_plug_perm fs nil).length_eq, toList, List.nil_append]
    exact length_le_values fs
  -- The state after the node has been attached.
  have hattach := attach_holds hholds hvalues
  obtain ⟨s₁, hs₁⟩ : ∃ s₁, (s.write (slotOf fs) (some x)).attach x (parentOf fs) = s₁ := ⟨_, rfl⟩
  have hfields := attach_write_eq hholds hvalues
  rw [hs₁] at hattach hfields
  have hfirst : s₁.first = (before fs ++ x :: after fs).head? := by
    rw [hfields]
    exact first_attach hnodup (h.first.trans (by rw [hlist]))
  have hlast : s₁.last = (before fs ++ x :: after fs).getLast? := by
    rw [hfields]
    exact last_attach hnodup (h.last.trans (by rw [hlist]))
  have hsize : s₁.size = s.size + 1 := by rw [hfields]
  have haug : s₁.aug = s.aug := by
    rw [hfields]
    cases fs <;> rfl
  obtain ⟨s', hrebalance, hturned⟩ := rebalanceAfterPut_turned onRotate hattach (by omega)
  have hlist' : (fixPut fs (node .red nil x nil)).toList = before fs ++ x :: after fs := by
    rw [toList_fixPut, toList_plug]
    simp [toList]
  refine ⟨s', ?_, ⟨hturned.holds, ?_, ?_, ?_, ?_, ?_, ?_⟩, haug ▸ hturned.turns⟩
  · rw [putEntry, hx, hholds.read_slotOf]
    simp only [assert, if_true, ok_bind, RBTree.root, hs₁, hrebalance]
    rfl
  · have hsorted := h.sorted
    rw [hlist] at hsorted
    rw [hlist']
    exact hsorted.insert hbetween.before hbetween.after
  · obtain ⟨height, hvalid⟩ := h.valid
    obtain ⟨below, hcontext, hnil, -⟩ := valid_of_plug hvalid
    cases hnil
    exact fixPut_valid hcontext ⟨rfl, rfl, rfl, rfl⟩ rfl
  · rw [hturned.first, hfirst, hlist']
  · rw [hturned.last, hlast, hlist']
  · rw [hturned.size, hsize, h.size, hlist', hlist]
    simp only [List.length_append, List.length_cons]
    omega
  · intro p hp
    rw [hlist', List.mem_append, List.mem_cons, not_or, not_or] at hp
    have hout := h.outside p (by rw [hlist, List.mem_append, not_or]; exact ⟨hp.1, hp.2.2⟩)
    rw [hturned.isolated, hfields]
    dsimp only
    rw [update_of_ne hp.2.1, isolated_write, hout]

/-- The ends of a list in which a value takes the place of another one. -/
theorem ends_replace {a b : List Ptr} {v : Ptr} (ha : v ∉ a) (hb : v ∉ b) (x : Ptr) :
    (a ++ x :: b).head? = (if (a ++ v :: b).head? = some v then some x else (a ++ v :: b).head?) ∧
      (a ++ x :: b).getLast? =
        if (a ++ v :: b).getLast? = some v then some x else (a ++ v :: b).getLast? := by
  constructor
  · cases a with
    | nil => simp
    | cons w a =>
      have hw : w ≠ v := fun heq => ha (by simp [heq])
      simp [hw]
  · rw [List.getLast?_append_cons, List.getLast?_append_cons]
    obtain rfl | ⟨b, w, rfl⟩ := b.eq_nil_or_concat
    · simp
    · have hw : w ≠ v := fun heq => hb (by simp [heq])
      simp [List.getLast?_cons, hw]

theorem putEntry_replace [Std.TransCmp cmp] (onRotate : OnRotate Ptr Aug) {v : Ptr} {c : Color}
    {l r : RBTree Ptr} (h : Represents cmp s (plug fs (node c l v r))) (heq : cmp x v = .eq)
    (hx : (s.nodes x).isolated = true) {parent : Option Ptr} :
    ∃ s', s.putEntry onRotate ⟨parent, slotOf fs⟩ x = .ok (some v, s') ∧
      Represents cmp s' (plug fs (node c l x r)) ∧ s'.aug = s.aug := by
  have hholds : s.Holds fs (node c l v r) := h.holds.unplug
  have hnew : x ∉ (plug fs (node c l v r)).toList := h.holds.not_mem hx
  have hnodup := hholds.nodup
  rw [← (toList_plug_perm ..).nodup_iff, toList_plug_node, List.nodup_middle, List.nodup_cons,
    List.mem_append, not_or] at hnodup
  obtain ⟨hfirst, hlast⟩ := ends_replace hnodup.1.1 hnodup.1.2 x
  have hreplace := replace_holds hholds (by rwa [← (toList_plug_perm ..).mem_iff])
  refine ⟨(s.write (slotOf fs) (some x)).replace v x, ?_, ⟨hreplace.plug, ?_, ?_, ?_, ?_, ?_, ?_⟩, ?_⟩
  · rw [putEntry, hx, hholds.read_slotOf]
    simp only [assert, if_true, ok_bind, RBTree.root]
    rfl
  · have hsorted := h.sorted
    rw [toList_plug_node] at hsorted ⊢
    exact hsorted.replace heq
  · obtain ⟨height, hvalid⟩ := h.valid
    obtain ⟨below, hcontext, hnode, hcolor⟩ := valid_of_plug hvalid
    exact hcontext.plug (by cases c <;> exact hnode) hcolor
  · rw [toList_plug_node, hfirst, ← toList_plug_node fs c, ← h.first, replace_eq]
    cases fs <;> rfl
  · rw [toList_plug_node, hlast, ← toList_plug_node fs c, ← h.last, replace_eq]
    cases fs <;> rfl
  · have hsize := h.size
    rw [toList_plug_node, List.length_append, List.length_cons] at hsize ⊢
    rw [← hsize, replace_eq]
    cases fs <;> rfl
  · intro p hp
    rw [isolated_replace, isolated_write, isolated_write]
    split
    · rfl
    · next hpv =>
      rw [toList_plug_node, List.mem_append, List.mem_cons, not_or, not_or] at hp
      rw [if_neg hp.2.1]
      refine h.outside p ?_
      rw [toList_plug_node, List.mem_append, List.mem_cons, not_or, not_or]
      exact ⟨hp.1, hpv, hp.2.2⟩
  · rw [replace_eq]
    cases fs <;> rfl

end

section

variable {cmp : Ptr → Ptr → Ordering} {s : RedBlackTree Ptr Aug} {t : RBTree Ptr} {x : Ptr}

omit [DecidableEq Ptr] in
theorem getEntryLoop_eq {fs : Context Ptr} {fuel : ℕ} (h : s.Holds fs t)
    (hfuel : t.depth ≤ fuel) :
    s.getEntryLoop cmp x (fuel + 1) ⟨parentOf fs, slotOf fs⟩ =
      .ok ⟨parentOf (locate cmp x fs t).1, slotOf (locate cmp x fs t).1⟩ := by
  induction t generalizing fs fuel with
  | nil =>
    rw [getEntryLoop, h.read_slotOf]
    rfl
  | node c l v r ihl ihr =>
    rw [depth] at hfuel
    obtain ⟨fuel, rfl⟩ := Nat.exists_eq_add_one.mpr (show 0 < fuel by omega)
    rw [getEntryLoop, h.read_slotOf, locate]
    dsimp only [RBTree.root]
    cases cmp x v with
    | eq => rfl
    | lt => exact ihl (Holds.cons_iff (f := ⟨c, .left, v, r⟩).mpr h) (by omega)
    | gt => exact ihr (Holds.cons_iff (f := ⟨c, .right, v, l⟩).mpr h) (by omega)

variable [Std.TransCmp cmp]

omit [DecidableEq Ptr] in
theorem Represents.getEntry (h : Represents cmp s t) (x : Ptr) :
    ∃ fs t', plug fs t' = t ∧ s.getEntry cmp x = .ok ⟨parentOf fs, slotOf fs⟩ ∧
      (∀ v, t'.root = some v ↔ v ∈ t.toList ∧ cmp x v = .eq) ∧ Between cmp x fs :=
  ⟨_, _, plug_locate, getEntryLoop_eq h.holds (t.depth_le_length.trans h.size.ge), fun _ => locate_eq_some h.sorted,
    locate_between h.sorted ⟨by simp [before], by simp [after]⟩⟩

omit [DecidableEq Ptr] in
theorem Represents.get (h : Represents cmp s t) (x : Ptr) :
    ∃ found, s.get cmp x = .ok found ∧ ∀ v, found = some v ↔ v ∈ t.toList ∧ cmp x v = .eq := by
  obtain ⟨fs, t', rfl, hentry, hfound, -⟩ := h.getEntry x
  refine ⟨t'.root, ?_, hfound⟩
  rw [RedBlackTree.get, hentry, ok_bind, h.holds.unplug.read_slotOf]
  rfl

variable {onRotate : OnRotate Ptr Aug}

theorem Represents.put (onRotate : OnRotate Ptr Aug) (h : Represents cmp s t)
    (hx : (s.nodes x).isolated = true) :
    ∃ old s' t', s.put onRotate cmp x = .ok (old, s') ∧ Represents cmp s' t' ∧
      (∀ v, old = some v ↔ v ∈ t.toList ∧ cmp x v = .eq) ∧
      ∀ v, v ∈ t'.toList ↔ v = x ∨ v ∈ t.toList ∧ cmp x v ≠ .eq := by
  obtain ⟨fs, t', rfl, hentry, hfound, hbetween⟩ := h.getEntry x
  have hput : s.put onRotate cmp x = s.putEntry onRotate ⟨parentOf fs, slotOf fs⟩ x := by
    rw [RedBlackTree.put, hentry, ok_bind]
  cases t' with
  | nil =>
    obtain ⟨s', hs', hrep, -⟩ := putEntry_insert onRotate h hbetween hx
    refine ⟨none, s', _, hput.trans hs', hrep, hfound, fun v => ?_⟩
    have hnone := hfound v
    simp only [toList_fixPut, toList_plug, toList, RBTree.root, List.mem_append, List.mem_cons]
      at hnone ⊢
    grind
  | node c l w r =>
    obtain ⟨s', hs', hrep, -⟩ := putEntry_replace onRotate h ((hfound w).mp rfl).2 hx
    refine ⟨some w, s', _, hput.trans hs', hrep, hfound, fun v => ?_⟩
    have hnodup := h.holds.nodup
    have hsome := hfound v
    rw [values, List.append_nil, toList_plug_node, List.nodup_middle, List.nodup_cons] at hnodup
    simp only [toList_plug_node, RBTree.root, List.mem_append, List.mem_cons] at hnodup hsome ⊢
    grind

/-- The node is in no tree, as `putEntry` asserts. -/
def Isolated (s : RedBlackTree Ptr Aug) (x : Ptr) : Prop := (s.nodes x).isolated = true
  deriving Decidable

/-- Nodes are put one after the other, from the empty tree on. -/
def system (onRotate : OnRotate Ptr Aug) (cmp : Ptr → Ptr → Ordering) :
    Transition.System (RedBlackTree Ptr Aug) Ptr :=
  .ofNext (fun s => ∃ aug, s = { nodes := fun _ => {}, aug })
    fun s x => (s.put onRotate cmp x).toOption.map Prod.snd

theorem reachable_represents (h : (system onRotate cmp).Reachable Isolated s) :
    ∃ t, Represents cmp s t := by
  induction h with
  | init hempty =>
    obtain ⟨aug, rfl⟩ := hempty
    exact ⟨.nil, ⟨rfl, trivial, .nil⟩, .nil, ⟨0, rfl⟩, rfl, rfl, rfl, fun _ _ => rfl⟩
  | step _ hx hstep ih =>
    obtain ⟨t, ht⟩ := ih
    obtain ⟨old, s', t', hput, ht', -⟩ := ht.put onRotate hx
    obtain ⟨_, hsome, rfl⟩ := Option.map_eq_some_iff.mp hstep
    rw [hput] at hsome
    cases hsome
    exact ⟨t', ht'⟩

/-- The tree is a map: what is put is found, in the place of what was there before. -/
theorem put_get (h : (system onRotate cmp).Reachable Isolated s) :
    (∃ t, Represents cmp s t) ∧ ∀ x, s.Isolated x →
      ∃ old s', s.get cmp x = .ok old ∧ s.put onRotate cmp x = .ok (old, s') ∧
        ∀ y, s'.get cmp y = if cmp y x = .eq then .ok (some x) else s.get cmp y := by
  obtain ⟨t, ht⟩ := reachable_represents h
  refine ⟨⟨t, ht⟩, fun x hx => ?_⟩
  obtain ⟨old, s', t', hput, ht', hold, hmem⟩ := ht.put onRotate hx
  obtain ⟨found, hget, hfound⟩ := ht.get x
  have heq : found = old := Option.ext fun v => (hfound v).trans (hold v).symm
  refine ⟨old, s', heq ▸ hget, hput, fun y => ?_⟩
  obtain ⟨before, hbefore, hfound⟩ := ht.get y
  obtain ⟨after, hafter, hfound'⟩ := ht'.get y
  rw [hbefore, hafter]
  split
  · next hyx => rw [(hfound' x).mpr ⟨(hmem x).mpr (.inl rfl), hyx⟩]
  · next hyx =>
    refine congrArg Except.ok (Option.ext fun v => ?_)
    have hxv (hyv : cmp y v = .eq) : cmp x v ≠ .eq := fun heq =>
      hyx (Std.TransCmp.eq_trans hyv (Std.OrientedCmp.eq_symm heq))
    rw [hfound, hfound', hmem]
    grind

open Transition.System

/-- Nodes that compare by their tens. -/
def tens : ℕ → ℕ → Ordering := compareOn (· / 10)

instance : Std.TransCmp tens := inferInstanceAs (Std.TransCmp (compareOn (· / 10)))

/-- The third node is put to the right of the second, which is rotated up and then replaced. -/
def puts : Option (RedBlackTree ℕ Unit) :=
  runNext (restrict Isolated fun s x => (s.put (fun _ aug _ _ => aug) tens x).toOption.map Prod.snd)
    { nodes := fun _ => {}, aug := () } [10, 20, 30, 25]

theorem puts_reachable {s : RedBlackTree ℕ Unit} (h : puts = some s) :
    (system (fun _ aug _ _ => aug) tens).Reachable Isolated s :=
  restrict_reachable _ (.init ⟨(), rfl⟩) h

/-- In the tree of 10, 25 and 30 the node 25 is replaced again. -/
theorem put_get_replaced : ∃ s s', puts = some s ∧ s.root = some 25 ∧
    s.put (fun _ aug _ _ => aug) tens 27 = .ok (some 25, s') ∧
      s'.get tens 20 = .ok (some 27) ∧ s'.get tens 30 = .ok (some 30) := by
  have hrun : puts.map (fun s => (s.root, s.get tens 27, s.get tens 30, decide (s.Isolated 27))) =
    some (some 25, .ok (some 25), .ok (some 30), true) := by decide
  obtain ⟨s, hs, hstate⟩ := Option.map_eq_some_iff.mp hrun
  simp only [Prod.mk.injEq, decide_eq_true_eq] at hstate
  obtain ⟨hroot, hold, hother, hisolated⟩ := hstate
  obtain ⟨old, s', hget, hput, hafter⟩ := (put_get (puts_reachable hs)).2 27 hisolated
  rw [hold] at hget
  cases hget
  refine ⟨s, s', hs, hroot, hput, (hafter 20).trans (if_pos (by decide)), ?_⟩
  rw [hafter, if_neg (by decide), hother]

/-- A search comes to an end, and passes at most `2 * log2 (size + 1)` nodes. -/
theorem search_logarithmic (h : (system onRotate cmp).Reachable Isolated s) (x : Ptr) :
    ∃ entry, s.getEntryLoop cmp x (2 * (s.size + 1).log2 + 1) ⟨none, .root⟩ = .ok entry ∧
      s.getEntry cmp x = .ok entry := by
  obtain ⟨t, ht⟩ := reachable_represents h
  obtain ⟨height, hvalid⟩ := ht.valid
  have hdepth := ht.size ▸ hvalid.depth_le_log
  exact ⟨_, getEntryLoop_eq ht.holds hdepth,
    getEntryLoop_eq ht.holds (t.depth_le_length.trans ht.size.ge)⟩

theorem search_logarithmic_replaced : ∃ s entry, puts = some s ∧ s.size = 3 ∧
    s.getEntryLoop tens 35 5 ⟨none, .root⟩ = .ok entry ∧ s.getEntry tens 35 = .ok entry := by
  have hrun : puts.map RedBlackTree.size = some 3 := by decide
  obtain ⟨s, hs, hsize⟩ := Option.map_eq_some_iff.mp hrun
  obtain ⟨entry, hloop, hentry⟩ := search_logarithmic (puts_reachable hs) 35
  rw [hsize] at hloop
  exact ⟨s, entry, hs, hsize, hloop, hentry⟩

end

end Innigkeit.Core.RedBlackTree

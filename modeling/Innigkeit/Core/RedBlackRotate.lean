import Innigkeit.Core.RedBlackMemory

/-!
Rotations and recolourings of the tree that the memory holds. A rotation of a
node changes four nodes at most: itself, the child that takes its place, the
subtree that changes its parent, and the node above.
-/

namespace Innigkeit.Core.RedBlackTree

open Zig Function RedBlack RedBlack.RBTree RedBlack.Context List

variable {Ptr Aug : Type} [DecidableEq Ptr]

section

omit [DecidableEq Ptr]

variable (node : Node Ptr) (σ : Side) (c : Option Ptr)

@[simp] theorem link_setLink : (node.setLink σ c).link σ = c := by
  cases σ <;> rfl

@[simp] theorem link_flip_setLink : (node.setLink σ c).link σ.flip = node.link σ.flip := by
  cases σ <;> rfl

@[simp] theorem setLink_color : (node.setLink σ c).color = node.color := by
  cases σ <;> rfl

@[simp] theorem setLink_side : (node.setLink σ c).side = node.side := by
  cases σ <;> rfl

@[simp] theorem setLink_isolated : (node.setLink σ c).isolated = node.isolated := by
  cases σ <;> rfl

@[simp] theorem setLink_parent : (node.setLink σ c).parent = node.parent := by
  cases σ <;> rfl

end

section

variable {s : RedBlackTree Ptr Aug} {p q : Ptr} {σ : Side} {c : Option Ptr}

omit [DecidableEq Ptr] in
theorem child_of_link (hlink : (s.nodes p).link σ = c)
    (hside : ∀ q, c = some q → (s.nodes q).side = σ) : s.child p σ = .ok c := by
  rw [child, hlink]
  cases c with
  | none => rfl
  | some q =>
    simp only [hside q rfl, assert, if_true]
    rfl

theorem sideOf_of_link (hlink : (s.nodes q).link σ = some p)
    (hother : (s.nodes q).link σ.flip ≠ some p) : s.sideOf p q = σ := by
  rw [sideOf]
  cases σ with
  | left => exact if_pos hlink
  | right => exact if_neg hother

theorem resetSide_of_some (h : (s.nodes p).parent = some q)
    (hlink : (s.nodes q).link σ = some p) (hother : (s.nodes q).link σ.flip ≠ some p) :
    s.resetSide p = s.modify p fun node => { node with side := σ } := by
  rw [resetSide, h]
  simp only [sideOf_of_link hlink hother]

omit [DecidableEq Ptr] in
theorem At.side_of_root {m : Ptr → Node Ptr} {t : RBTree Ptr} (h : At m (some p) σ t) :
    ∀ q, t.root = some q → (m q).side = σ :=
  fun _ hq => (h.root hq).2.2.2 (by simp)

omit [DecidableEq Ptr] in
theorem Holds.children {fs : Context Ptr} {c : Color} {near far : RBTree Ptr}
    (h : s.Holds fs (make σ c near p far)) :
    s.child p σ = .ok near.root ∧ s.child p σ.flip = .ok far.root := by
  obtain ⟨-, hnear, hfar, han, haf⟩ := (at_make σ).mp h.at_
  exact ⟨child_of_link hnear han.side_of_root, child_of_link hfar haf.side_of_root⟩

end

section

variable {s : RedBlackTree Ptr Aug} {fs : Context Ptr}

theorem Holds.setColor {σ : Side} {c : Color} {near far : RBTree Ptr} {p : Ptr}
    (h : s.Holds fs (make σ c near p far)) (c' : Color) :
    (s.setColor p c').Holds fs (make σ c' near p far) := by
  obtain ⟨haround, hat, hnodup⟩ := h
  have hperm : (make σ c near p far).toList = (make σ c' near p far).toList :=
    toList_make_color ..
  have hnodup' := (((toList_make_perm σ c near far p).append_right (values fs)).nodup_iff).mp hnodup
  simp only [cons_append, nodup_cons, mem_append, not_or] at hnodup'
  obtain ⟨⟨⟨hpn, hpf⟩, hpv⟩, -⟩ := hnodup'
  have hother (q : Ptr) (hne : q ≠ p) : (s.setColor p c').nodes q = s.nodes q :=
    update_of_ne hne ..
  have hself : (s.setColor p c').nodes p = { s.nodes p with color := c' } := update_self ..
  obtain ⟨hplace, hlink, hlink', hnear, hfar⟩ := (at_make σ).mp hat
  refine ⟨?_, ?_, hperm ▸ hnodup⟩
  · rw [make_root] at haround ⊢
    refine haround.congr fun q hq => hother q ?_
    intro heq
    exact hpv (heq ▸ hq)
  · refine (at_make σ).mpr ⟨⟨?_, ?_, ?_, ?_⟩, ?_, ?_, hnear.congr ?_, hfar.congr ?_⟩
    · rw [hself]
    · rw [hself]
      exact hplace.isolated
    · rw [hself]
      exact hplace.parent
    · rw [hself]
      exact hplace.side
    · rw [hself]
      cases σ <;> exact hlink
    · rw [hself]
      cases σ <;> exact hlink'
    · intro q hq
      exact hother q fun heq => hpn (heq ▸ hq)
    · intro q hq
      exact hother q fun heq => hpf (heq ▸ hq)

end

section

/-- A memory in which four nodes have changed: `n`, `q`, the one in `inner` and the one in
`parent`. -/
def four (m : Ptr → Node Ptr) (n q : Ptr) (inner parent : Option Ptr) (a b : Node Ptr)
    (c d : Node Ptr → Node Ptr) (x : Ptr) : Node Ptr :=
  if x = n then a else if x = q then b else if some x = inner then c (m x)
  else if some x = parent then d (m x) else m x

/-- The nodes of a rotation are different ones. -/
structure Apart (n q : Ptr) (inner parent : Option Ptr) : Prop where
  nodes : q ≠ n
  inner_node : inner ≠ some n
  inner_new : inner ≠ some q
  parent_node : parent ≠ some n
  parent_new : parent ≠ some q
  inner_parent : ∀ p, inner = some p → parent ≠ some p

variable {s : RedBlackTree Ptr Aug} {m : Ptr → Node Ptr} {n q : Ptr} {inner parent : Option Ptr}
  {side : Side}

theorem resetSide_eq (side : Side) (hlinks : ∀ p, (s.nodes n).parent = some p →
    (s.nodes p).link side = some n ∧ (s.nodes p).link side.flip ≠ some n) :
    s.resetSide n = s.modify n fun node =>
      { node with side := if node.parent = none then node.side else side } := by
  cases hparent : (s.nodes n).parent with
  | none => rw [resetSide, hparent, modify, if_pos hparent, update_eq_self]
  | some p =>
    obtain ⟨hlink, hother⟩ := hlinks p hparent
    rw [resetSide_of_some hparent hlink hother]
    simp [modify, hparent]

theorem adopt_eq (hne : inner ≠ some n)
    (hnear : inner ≠ none → (s.nodes n).link side.flip ≠ inner) :
    s.adopt n side inner = { s with
      nodes := fun x =>
        if x = n then (s.nodes n).setLink side inner
        else if some x = inner then { s.nodes x with parent := some n, side } else s.nodes x } := by
  cases inner with
  | none => simp [adopt, setChild, modify, funext_iff, update_apply]
  | some p =>
    have hp : n ≠ p := fun heq => hne (congrArg some heq.symm)
    rw [adopt]
    dsimp only
    rw [resetSide_of_some (q := n) (σ := side)]
    · simp only [setParent, setChild, modify, mk.injEq, true_and, and_true]
      funext x
      simp only [update_apply]
      grind
    · simp [setParent, modify]
    · simp [setParent, setChild, modify, hp]
    · simpa [setParent, setChild, modify, hp] using hnear

section

variable {root first last : Option Ptr} {size : ℕ} {aug : Aug} {a b : Node Ptr}
  {c d : Node Ptr → Node Ptr} {p : Ptr}

theorem four_node : four m n q inner parent a b c d n = a := if_pos rfl

theorem modify_node (f : Node Ptr → Node Ptr) :
    modify ⟨root, first, last, size, four m n q inner parent a b c d, aug⟩ n f =
      ⟨root, first, last, size, four m n q inner parent (f a) b c d, aug⟩ := by
  simp only [modify, four_node, mk.injEq, true_and, and_true]
  funext x
  simp only [update_apply, four]
  grind

variable (h : Apart n q inner parent)

include h

theorem four_new : four m n q inner parent a b c d q = b := by
  simp [four, h.nodes]

theorem four_inner (hp : inner = some p) : four m n q inner parent a b c d p = c (m p) := by
  have hn := h.inner_node
  have hq := h.inner_new
  simp only [four]
  grind

theorem four_parent (hp : parent = some p) : four m n q inner parent a b c d p = d (m p) := by
  have hn := h.parent_node
  have hq := h.parent_new
  have hinner := h.inner_parent p
  simp only [four]
  grind

theorem modify_new (f : Node Ptr → Node Ptr) :
    modify ⟨root, first, last, size, four m n q inner parent a b c d, aug⟩ q f =
      ⟨root, first, last, size, four m n q inner parent a (f b) c d, aug⟩ := by
  simp only [modify, four_new h, mk.injEq, true_and, and_true]
  funext x
  have := h.nodes
  simp only [update_apply, four]
  grind

theorem relink_eq (hlinks : ∀ p, parent = some p →
    (d (m p)).link side = some n ∧ (d (m p)).link side.flip ≠ some n) :
    relink ⟨root, first, last, size, four m n q inner parent a b c d, aug⟩ parent n q =
      ⟨if parent = none then some q else root, first, last, size,
        four m n q inner parent a b c fun node => (d node).setLink side (some q), aug⟩ := by
  cases hparent : parent with
  | none => simp [relink, four, funext_iff]
  | some p =>
    obtain ⟨hlink, hother⟩ := hlinks p hparent
    rw [hparent] at h
    rw [relink, sideOf_of_link (σ := side), setChild, modify]
    · have hn := h.parent_node
      have hq := h.parent_new
      have hinner := h.inner_parent p
      simp only [four_parent h rfl, mk.injEq, true_and, and_true, reduceCtorEq, if_false]
      funext x
      simp only [update_apply, four]
      grind
    · simp only [four_parent h rfl, hlink]
    · simpa only [four_parent h rfl] using hother

end

def rotated (m : Ptr → Node Ptr) (n q : Ptr) (inner parent : Option Ptr)
    (side parentSide : Side) : Ptr → Node Ptr :=
  four m n q inner parent
    { (m n).setLink side.flip inner with parent := some q, side := side }
    { (m q).setLink side (some n) with
      parent := parent
      side := if parent = none then (m q).side else parentSide }
    (fun node => { node with parent := some n, side := side.flip })
    (fun node => node.setLink parentSide (some q))

section

variable {parentSide : Side}

theorem rotated_parent (h : Apart n q inner parent) {p : Ptr} (hp : parent = some p) :
    rotated m n q inner parent side parentSide p = (m p).setLink parentSide (some q) := by
  rw [rotated, four_parent h hp]

theorem rotated_isolated (x : Ptr) :
    (rotated m n q inner parent side parentSide x).isolated = (m x).isolated := by
  simp only [rotated, four]
  split
  · next heq => rw [heq, setLink_isolated]
  · split
    · next heq => rw [heq, setLink_isolated]
    · split
      · rfl
      · split
        · rw [setLink_isolated]
        · rfl

theorem rotated_other {x : Ptr} (hn : x ≠ n) (hq : x ≠ q) (hi : inner ≠ some x)
    (hp : parent ≠ some x) : rotated m n q inner parent side parentSide x = m x := by
  simp only [rotated, four, hn, hq, hi.symm, hp.symm, if_false]

end

theorem rotateNode_eq (h : Apart n q inner parent) (onRotate : OnRotate Ptr Aug)
    {parentSide : Side} (hparent : (s.nodes n).parent = parent)
    (hq : s.child n side.flip = .ok (some q)) (hinner : s.child q side = .ok inner)
    (hnear : inner ≠ none → (s.nodes n).link side ≠ inner)
    (houter : (s.nodes q).link side.flip ≠ some n)
    (habove : ∀ p, parent = some p → (s.nodes p).link parentSide = some n ∧
      (s.nodes p).link parentSide.flip ≠ some n ∧ (s.nodes p).link parentSide.flip ≠ some q) :
    s.rotateNode onRotate n side = .ok
      { s with
        root := if parent = none then some q else s.root
        nodes := rotated s.nodes n q inner parent side parentSide
        aug := onRotate (rotated s.nodes n q inner parent side parentSide) s.aug n q } := by
  have hwrites : ((((((s.adopt n side.flip inner).setChild q side (some n)).setParent q
      parent).setParent n (some q)).relink parent n q).resetSide q).resetSide n =
      { s with
        root := if parent = none then some q else s.root
        nodes := rotated s.nodes n q inner parent side parentSide } := by
    have hadopt : s.adopt n side.flip inner = { s with
        nodes := four s.nodes n q inner parent ((s.nodes n).setLink side.flip inner) (s.nodes q)
          (fun node => { node with parent := some n, side := side.flip }) id } := by
      rw [adopt_eq h.inner_node (by simpa using hnear)]
      have hq := h.inner_new
      simp only [mk.injEq, true_and, and_true]
      funext x
      simp only [four]
      grind
    rw [hadopt, setChild, modify_new h, setParent, setParent, modify_new h, modify_node,
      relink_eq h fun p hp => ⟨(habove p hp).1, (habove p hp).2.1⟩,
      resetSide_eq (n := q) parentSide, modify_new h, resetSide_eq side, modify_node]
    · simp [rotated]
    · intro p hp
      simp only [four_node, Option.some.injEq] at hp
      subst hp
      simp only [four_new h]
      cases side <;> exact ⟨rfl, houter⟩
    · intro p hp
      simp only [four_new h] at hp
      simp only [four_parent h hp, link_setLink, link_flip_setLink, true_and]
      exact (habove p hp).2.2
  rw [rotateNode, hq]
  simp only [unwrap, ok_bind, hinner, hparent, hwrites]
  rfl

end

section

variable {s : RedBlackTree Ptr Aug} {m m' : Ptr → Node Ptr}

omit [DecidableEq Ptr] in
/-- A tree changes its place: only its root knows. -/
theorem At.move {parent : Option Ptr} {side side' : Side} {t : RBTree Ptr} {above : Option Ptr}
    (h : At m parent side t) (hnodup : t.toList.Nodup)
    (hroot : ∀ p, t.root = some p → (m' p).left = (m p).left ∧ (m' p).right = (m p).right ∧
      (m' p).color = (m p).color ∧ (m' p).isolated = (m p).isolated ∧ (m' p).parent = above ∧
      (above ≠ none → (m' p).side = side'))
    (hrest : ∀ p ∈ t.toList, t.root ≠ some p → m' p = m p) : At m' above side' t := by
  cases t with
  | nil => trivial
  | node c l p r =>
    obtain ⟨hplace, hleft, hright, hl, hr⟩ := h
    obtain ⟨hl', hr', hc, hi, hp, hs⟩ := hroot p rfl
    rw [toList, perm_middle.nodup_iff, nodup_cons, mem_append, not_or] at hnodup
    obtain ⟨⟨hpl, hpr⟩, -⟩ := hnodup
    refine ⟨⟨hc.trans hplace.color, hi.trans hplace.isolated, hp, hs⟩, hl'.trans hleft,
      hr'.trans hright, hl.congr ?_, hr.congr ?_⟩
    · intro q hq
      refine hrest q (by simp [toList, hq]) fun heq => ?_
      cases heq
      exact hpl hq
    · intro q hq
      refine hrest q (by simp [toList, hq]) fun heq => ?_
      cases heq
      exact hpr hq

variable {fs : Context Ptr}

omit [DecidableEq Ptr] in
/-- The hole of a context gets another node: only the node above knows, or the root. -/
theorem Around.relink {root root' hole hole' : Option Ptr} (h : Around m root fs hole)
    (hnodup : (values fs).Nodup) (hroot : root' = if parentOf fs = none then hole' else root)
    (habove : ∀ p, parentOf fs = some p → m' p = (m p).setLink (holeSide fs) hole')
    (hrest : ∀ p ∈ values fs, parentOf fs ≠ some p → m' p = m p) : Around m' root' fs hole' := by
  cases fs with
  | nil => exact hroot
  | cons f fs =>
    obtain ⟨hplace, hlink, hother, hat, hup⟩ := h
    have hf : m' f.value = (m f.value).setLink f.side hole' := habove f.value rfl
    rw [values, cons_append, nodup_cons, mem_append, not_or] at hnodup
    obtain ⟨⟨hfo, hfv⟩, -⟩ := hnodup
    have hroot : root' = root := hroot
    rw [hroot]
    refine ⟨⟨?_, ?_, ?_, ?_⟩, ?_, ?_, hat.congr ?_, hup.congr ?_⟩
    · rw [hf, setLink_color, hplace.color]
    · rw [hf, setLink_isolated, hplace.isolated]
    · rw [hf, setLink_parent, hplace.parent]
    · rw [hf, setLink_side]
      exact hplace.side
    · rw [hf, link_setLink]
    · rw [hf, link_flip_setLink, hother]
    · intro p hp
      refine hrest p (by simp [values, hp]) fun heq => ?_
      cases heq
      exact hfo hp
    · intro p hp
      refine hrest p (by simp [values, hp]) fun heq => ?_
      cases heq
      exact hfv hp

omit [DecidableEq Ptr] in
theorem mem_values_of_parentOf {p : Ptr} (h : parentOf fs = some p) : p ∈ values fs := by
  cases fs with
  | nil => cases h
  | cons f fs =>
    cases h
    simp [values]

theorem rotateNode_holds (onRotate : OnRotate Ptr Aug) {side : Side}
    {c c' : Color} {near inner outer : RBTree Ptr} {n q : Ptr}
    (h : s.Holds fs (make side c near n (make side c' inner q outer))) :
    ∃ s', s.rotateNode onRotate n side = .ok s' ∧
      s'.Holds fs (make side c' (make side c near n inner) q outer) ∧
      s'.first = s.first ∧ s'.last = s.last ∧ s'.size = s.size ∧
      (∀ p, (s'.nodes p).isolated = (s.nodes p).isolated) ∧
      s'.aug = onRotate s'.nodes s.aug n q := by
  have hperm : (make side c near n (make side c' inner q outer)).toList.Perm
      (n :: q :: (near.toList ++ (inner.toList ++ outer.toList))) :=
    (toList_make_perm ..).trans (((toList_make_perm ..).append_left (n :: near.toList)).trans
      (perm_middle.cons n))
  have hnodup := (hperm.append_right (values fs)).nodup_iff.mp h.nodup
  simp only [cons_append, append_assoc, nodup_cons, mem_append, mem_cons,
    not_or, nodup_append] at hnodup
  obtain ⟨⟨hnq, hnNear, hnInner, hnOuter, hnValues⟩, ⟨hqNear, hqInner, hqOuter, hqValues⟩, -,
    ⟨hinnerNodup, ⟨-, hvaluesNodup, houterValues⟩, hinnerRest⟩, hnearRest⟩ := hnodup
  have hi := @mem_toList_of_root _ inner
  have hp := @mem_values_of_parentOf _ fs
  obtain ⟨haround, hat, hnd⟩ := h
  obtain ⟨hplace, hlink, hlink', hnear, hfar⟩ := (at_make side).mp hat
  obtain ⟨hplaceq, hlinkq, hlinkq', hinner, houter⟩ := (at_make side).mp hfar
  rw [make_root] at haround hlink'
  have hapart : Apart n q inner.root (parentOf fs) := {
    nodes := Ne.symm hnq
    inner_node := fun heq => hnInner (hi heq)
    inner_new := fun heq => hqInner (hi heq)
    parent_node := fun heq => hnValues (hp heq)
    parent_new := fun heq => hqValues (hp heq)
    inner_parent := fun p hpi hpp => hinnerRest p (hi hpi) p (.inr (hp hpp)) rfl }
  have habove : ∀ p, parentOf fs = some p → (s.nodes p).link (holeSide fs) = some n ∧
      (s.nodes p).link (holeSide fs).flip ≠ some n ∧
      (s.nodes p).link (holeSide fs).flip ≠ some q := by
    intro p hp
    cases fs with
    | nil => cases hp
    | cons f fs =>
      cases hp
      obtain ⟨-, hhole, hother, -⟩ := haround
      refine ⟨hhole, ?_, ?_⟩
      · rw [holeSide, hother]
        exact fun heq => hnValues (by simp [values, mem_toList_of_root heq])
      · rw [holeSide, hother]
        exact fun heq => hqValues (by simp [values, mem_toList_of_root heq])
  have hroots : inner.root ≠ none → (s.nodes n).link side ≠ inner.root := by
    rw [hlink]
    intro hsome heq
    obtain ⟨p, hpi⟩ := Option.ne_none_iff_exists'.mp hsome
    exact hnearRest p (mem_toList_of_root (heq.trans hpi)) p (.inl (hi hpi)) rfl
  have hnotn : (s.nodes q).link side.flip ≠ some n := by
    rw [hlinkq']
    exact fun heq => hnOuter (mem_toList_of_root heq)
  have hrotate := rotateNode_eq hapart onRotate hplace.parent
    (child_of_link hlink' (by simpa using hfar.side_of_root))
    (child_of_link hlinkq hinner.side_of_root) hroots hnotn habove
  have hn' : rotated s.nodes n q inner.root (parentOf fs) side (holeSide fs) n = _ := four_node
  have hq' : rotated s.nodes n q inner.root (parentOf fs) side (holeSide fs) q = _ :=
    four_new hapart
  have hat' : At (rotated s.nodes n q inner.root (parentOf fs) side (holeSide fs)) (parentOf fs)
      (holeSide fs) (make side c' (make side c near n inner) q outer) := by
    refine (at_make side).mpr ⟨⟨?_, ?_, ?_, ?_⟩, ?_, ?_, (at_make side).mpr
      ⟨⟨?_, ?_, ?_, ?_⟩, ?_, ?_, hnear.congr ?_, hinner.move hinnerNodup ?_ ?_⟩, houter.congr ?_⟩
    · rw [hq']
      exact (setLink_color ..).trans hplaceq.color
    · rw [hq']
      exact (setLink_isolated ..).trans hplaceq.isolated
    · rw [hq']
    · rw [hq']
      exact fun hne => if_neg hne
    · rw [hq', make_root]
      cases side <;> rfl
    · rw [hq', ← hlinkq']
      cases side <;> rfl
    · rw [hn']
      exact (setLink_color ..).trans hplace.color
    · rw [hn']
      exact (setLink_isolated ..).trans hplace.isolated
    · rw [hn']
    · rw [hn']
      exact fun _ => rfl
    · rw [hn', ← hlink]
      cases side <;> rfl
    · rw [hn']
      cases side <;> rfl
    · intro p hmem
      exact rotated_other (fun heq => hnNear (heq ▸ hmem)) (fun heq => hqNear (heq ▸ hmem))
        (fun heq => hnearRest p hmem p (.inl (hi heq)) rfl)
        (fun heq => hnearRest p hmem p (.inr (.inr (hp heq))) rfl)
    · intro p hmem
      rw [rotated, four_inner hapart hmem]
      exact ⟨rfl, rfl, rfl, rfl, rfl, fun _ => rfl⟩
    · intro p hmem hne
      exact rotated_other (fun heq => hnInner (heq ▸ hmem)) (fun heq => hqInner (heq ▸ hmem)) hne
        (fun heq => hinnerRest p hmem p (.inr (hp heq)) rfl)
    · intro p hmem
      exact rotated_other (fun heq => hnOuter (heq ▸ hmem)) (fun heq => hqOuter (heq ▸ hmem))
        (fun heq => hinnerRest p (hi heq) p (.inl hmem) rfl)
        (fun heq => houterValues p hmem p (hp heq) rfl)
  refine ⟨_, hrotate, ⟨?_, hat', toList_rotate .. ▸ hnd⟩, rfl, rfl, rfl,
    rotated_isolated, rfl⟩
  rw [make_root]
  refine haround.relink hvaluesNodup rfl ?_ ?_
  · intro p hmem
    exact rotated_parent hapart hmem
  · intro p hmem hne
    exact rotated_other (fun heq => hnValues (heq ▸ hmem)) (fun heq => hqValues (heq ▸ hmem))
      (fun heq => hinnerRest p (hi heq) p (.inr hmem) rfl) hne

end

end Innigkeit.Core.RedBlackTree

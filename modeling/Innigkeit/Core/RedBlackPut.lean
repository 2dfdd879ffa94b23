import Innigkeit.Core.RedBlackRotate
import Mathlib.Logic.Relation

/-!
The rebalancing after an insertion, on the tree that the memory holds. Both
rebalancings only recolour and rotate. What they do to the tree and to the data
beside its nodes is a sequence of such turns, so that a property of the two that
every turn keeps holds after a rebalancing.
-/

namespace Innigkeit.Core.RedBlackTree

open Zig Function RedBlack RedBlack.RBTree RedBlack.Context Relation List

variable {Ptr Aug : Type} [DecidableEq Ptr]

/-- A recolouring or a rotation of a tree, with what the callback does. Only nodes in `down` move
down. -/
inductive Turn (onRotate : OnRotate Ptr Aug) (down : Ptr → Prop) :
    RBTree Ptr × Aug → RBTree Ptr × Aug → Prop
  | color (fs : Context Ptr) (side : Side) (c c' : Color) (near far : RBTree Ptr) (p : Ptr)
      (aug : Aug) :
      Turn onRotate down (plug fs (make side c near p far), aug)
        (plug fs (make side c' near p far), aug)
  | rotate (fs : Context Ptr) (side : Side) (c c' : Color) (near inner outer : RBTree Ptr) (n q : Ptr)
      (aug : Aug) (s : RedBlackTree Ptr Aug) (hdown : down n)
      (hs : s.Holds fs (make side c' (make side c near n inner) q outer)) :
      Turn onRotate down (plug fs (make side c near n (make side c' inner q outer)), aug)
        (plug fs (make side c' (make side c near n inner) q outer), onRotate s.nodes aug n q)

/-- The state `s` becomes `s'` by turns, and the tree `t` that it holds becomes `t'`. -/
structure Turned (onRotate : OnRotate Ptr Aug) (down : Ptr → Prop) (s s' : RedBlackTree Ptr Aug)
    (t t' : RBTree Ptr) : Prop where
  holds : s'.Holds [] t'
  first : s'.first = s.first
  last : s'.last = s.last
  size : s'.size = s.size
  isolated : ∀ p, (s'.nodes p).isolated = (s.nodes p).isolated
  turns : ReflTransGen (Turn onRotate down) (t, s.aug) (t', s'.aug)

namespace Turned

variable {onRotate : OnRotate Ptr Aug} {down : Ptr → Prop} {s s₁ s₂ : RedBlackTree Ptr Aug}
  {t t₁ t₂ : RBTree Ptr} {fs : Context Ptr}

omit [DecidableEq Ptr] in
theorem refl (h : s.Holds [] t) : Turned onRotate down s s t t :=
  ⟨h, rfl, rfl, rfl, fun _ => rfl, .refl⟩

omit [DecidableEq Ptr] in
theorem trans (h₁ : Turned onRotate down s s₁ t t₁) (h₂ : Turned onRotate down s₁ s₂ t₁ t₂) :
    Turned onRotate down s s₂ t t₂ :=
  ⟨h₂.holds, h₂.first.trans h₁.first, h₂.last.trans h₁.last, h₂.size.trans h₁.size,
    fun p => (h₂.isolated p).trans (h₁.isolated p), h₁.turns.trans h₂.turns⟩

theorem setColor (fs : Context Ptr) {side : Side} {c : Color} {near far : RBTree Ptr} {p : Ptr}
    (h : Turned onRotate down s s₁ t (plug fs (make side c near p far))) (c' : Color) :
    Turned onRotate down s (s₁.setColor p c') t (plug fs (make side c' near p far)) := by
  have hcolor := (h.holds.unplug.setColor c').plug
  have hisolated (q : Ptr) : ((s₁.setColor p c').nodes q).isolated = (s₁.nodes q).isolated := by
    simp only [RedBlackTree.setColor, modify, update_apply]
    split
    · next heq => rw [heq]
    · rfl
  exact h.trans
    ⟨hcolor, rfl, rfl, rfl, hisolated, .single (.color fs side c c' near far p s₁.aug)⟩

theorem rotate (fs : Context Ptr) {side : Side} {c c' : Color} {near inner outer : RBTree Ptr}
    {n q : Ptr}
    (h : Turned onRotate down s s₁ t (plug fs (make side c near n (make side c' inner q outer))))
    (hdown : down n) :
    ∃ s₂, s₁.rotateNode onRotate n side = .ok s₂ ∧
      Turned onRotate down s s₂ t (plug fs (make side c' (make side c near n inner) q outer)) := by
  obtain ⟨s₂, hrotate, hholds, hfirst, hlast, hsize, hisolated, haug⟩ :=
    rotateNode_holds onRotate h.holds.unplug
  refine ⟨s₂, hrotate, h.trans ⟨hholds.plug, hfirst, hlast, hsize, hisolated, ?_⟩⟩
  rw [haug]
  exact .single (.rotate fs side c c' near inner outer n q s₁.aug s₂ hdown hholds)

section

variable {d side : Side} {c₀ c c' : Color} {v n p q : Ptr}
  {near far inner outer other : RBTree Ptr}

theorem setColor_near
    (h : Turned onRotate down s s₁ t (plug fs (make d c₀ (make side c near p far) v other)))
    (c' : Color) :
    Turned onRotate down s (s₁.setColor p c') t
      (plug fs (make d c₀ (make side c' near p far) v other)) :=
  Turned.setColor (⟨c₀, d, v, other⟩ :: fs) h c'

theorem setColor_far
    (h : Turned onRotate down s s₁ t (plug fs (make d c₀ other v (make side c near p far))))
    (c' : Color) :
    Turned onRotate down s (s₁.setColor p c') t
      (plug fs (make d c₀ other v (make side c' near p far))) := by
  rw [← make_flip] at h ⊢
  exact h.setColor_near c'

theorem rotate_near
    (h : Turned onRotate down s s₁ t
      (plug fs (make d c₀ (make side c near n (make side c' inner q outer)) v other)))
    (hdown : down n) :
    ∃ s₂, s₁.rotateNode onRotate n side = .ok s₂ ∧ Turned onRotate down s s₂ t
      (plug fs (make d c₀ (make side c' (make side c near n inner) q outer) v other)) :=
  Turned.rotate (⟨c₀, d, v, other⟩ :: fs) h hdown

end

end Turned

section

variable {onRotate : OnRotate Ptr Aug} {down : Ptr → Prop} {s s₁ : RedBlackTree Ptr Aug}
  {t : RBTree Ptr} {fs : Context Ptr} {dir : Side} {c cp cx : Color}
  {near inner outer far : RBTree Ptr} {x p g : Ptr}

/-- The grandparent moves down, away from the red nodes. -/
theorem putCase6_turned
    (h : Turned onRotate down s s₁ t (plug fs (make dir c (make dir cp near p inner) g far)))
    (hdown : down g) :
    ∃ s', s₁.putCase6 onRotate p g dir = .ok s' ∧
      Turned onRotate down s s' t
        (plug fs (make dir .black near p (make dir .red inner g far))) := by
  rw [← make_flip, ← make_flip dir cp] at h
  obtain ⟨s₂, hrotate, hturned⟩ := h.rotate fs hdown
  rw [make_flip, make_flip] at hturned
  refine ⟨_, ?_, (hturned.setColor fs .black).setColor_far .red⟩
  rw [putCase6, hrotate]
  rfl

theorem putCase5_turned
    (h : Turned onRotate down s s₁ t
      (plug fs (make dir c (make dir cp near p (make dir cx inner x outer)) g far)))
    (hp : down p) (hg : down g) :
    ∃ s', s₁.putCase5 onRotate p g dir = .ok s' ∧
      Turned onRotate down s s' t
        (plug fs (make dir .black (make dir cp near p inner) x (make dir .red outer g far))) := by
  obtain ⟨s₂, hrotate, hturned⟩ := h.rotate_near hp
  have hchild : s₂.child g dir = .ok (some x) := by
    rw [hturned.holds.unplug.children.1, make_root]
  obtain ⟨s₃, hcase6, hturned'⟩ := putCase6_turned hturned hg
  refine ⟨s₃, ?_, hturned'⟩
  rw [putCase5, hrotate, ok_bind, hchild]
  exact hcase6

omit [DecidableEq Ptr] in
theorem filter_red_root {m : Ptr → Node Ptr} {parent : Option Ptr} {side : Side} {u : RBTree Ptr}
    (h : At m parent side u) :
    (u.root.filter fun p => (m p).color = .red) = if u.color = .red then u.root else none := by
  cases u with
  | nil => rfl
  | node c l p r =>
    have hc : (m p).color = c := h.1.color
    simp only [RBTree.root, Option.filter, hc, RBTree.color]
    split <;> simp_all

theorem putStart_of_black {fuel : ℕ} (hx : (s.nodes x).color = .red)
    (hp : (s.nodes p).color = .black) : s.putStart onRotate (fuel + 1) x p = .ok s := by
  simp only [putStart, hx, hp, assert, if_true, ok_bind]
  rfl

theorem putStart_of_root {fuel : ℕ} (hx : (s.nodes x).color = .red)
    (hp : (s.nodes p).color = .red) (hparent : (s.nodes p).parent = none) :
    s.putStart onRotate (fuel + 1) x p = .ok (s.setColor p .black) := by
  simp only [putStart, hx, hp, hparent, assert, if_true, ok_bind, reduceCtorEq, if_false]
  rfl

section

variable {fuel : ℕ} {uncle : Option Ptr} (hx : (s.nodes x).color = .red)
  (hp : (s.nodes p).color = .red) (hparent : (s.nodes p).parent = some g)
  (hside : (s.nodes p).side = dir) (huncle : s.child g dir.flip = .ok uncle)
  (hne : uncle ≠ some p)

include hx hp hparent hside huncle hne

theorem putStart_of_uncle_black {c : Option Ptr}
    (hblack : (uncle.filter fun u => (s.nodes u).color = .red) = none)
    (hchild : s.child p dir.flip = .ok c) :
    s.putStart onRotate (fuel + 1) x p =
      if c = some x then s.putCase5 onRotate p g dir else s.putCase6 onRotate p g dir := by
  simp only [putStart, hx, hp, hparent, hside, huncle, hne, hblack, hchild, assert, if_true,
    ok_bind, reduceCtorEq, if_false, ne_eq, not_false_eq_true]

theorem putStart_of_uncle_red {u : Ptr}
    (hred : (uncle.filter fun u => (s.nodes u).color = .red) = some u)
    (hs₁ : ((s.setColor p .black).setColor u .black).setColor g .red = s₁) :
    s.putStart onRotate (fuel + 1) x p =
      match (s₁.nodes g).parent with
      | none => .ok s₁
      | some parent => s₁.putStart onRotate fuel g parent := by
  simp only [putStart, hx, hp, hparent, hside, huncle, hne, hred, hs₁, assert, if_true,
    ok_bind, reduceCtorEq, if_false, ne_eq, not_false_eq_true]
  rfl

end

omit [DecidableEq Ptr] in
theorem exists_node (side : Side) (c : Color) (near far : RBTree Ptr) (p : Ptr) :
    ∃ l r, make side c near p far = node c l p r := by
  cases side with
  | left => exact ⟨near, far, rfl⟩
  | right => exact ⟨far, near, rfl⟩

theorem putStart_turned {fuel : ℕ} {f : Frame Ptr} {l r : RBTree Ptr}
    (h : Turned onRotate down s s₁ t (plug (f :: fs) (node .red l x r)))
    (hfuel : (f :: fs).length ≤ fuel) (hdown : ∀ p ∈ values (f :: fs), down p) :
    ∃ s', s₁.putStart onRotate fuel x f.value = .ok s' ∧
      Turned onRotate down s s' t (fixPut (f :: fs) (node .red l x r)) := by
  induction fuel generalizing x f fs l r s₁ with
  | zero => simp at hfuel
  | succ fuel ih =>
    have hholds : s₁.Holds (f :: fs) (node .red l x r) := h.holds.unplug
    have hx : (s₁.nodes x).color = .red := hholds.at_.1.color
    obtain ⟨fc, fside, p, other⟩ := f
    have hplace : Place s₁.nodes p fc (parentOf fs) (holeSide fs) := hholds.around.1
    cases fs with
    | nil =>
      cases fc with
      | black => exact ⟨s₁, putStart_of_black hx hplace.color, h⟩
      | red =>
        exact ⟨_, putStart_of_root hx hplace.color hplace.parent,
          Turned.setColor [] h .black⟩
    | cons g fs =>
      obtain ⟨gc, dir, g, uncle⟩ := g
      cases fc with
      | black => exact ⟨s₁, putStart_of_black hx hplace.color, h⟩
      | red =>
        have hp : down p := hdown p (by simp [values])
        have hg : down g := hdown g (by simp [values])
        have hdir : (s₁.nodes p).side = dir := hplace.side (Option.some_ne_none _)
        have hup : s₁.Holds fs (make dir gc (make fside .red (node .red l x r) p other) g
          uncle) := hholds.up.up
        obtain ⟨hchildp, hchildp'⟩ := hholds.up.children
        obtain ⟨hchild, huncle⟩ := hup.children
        have hat : At s₁.nodes (some g) dir.flip uncle :=
          ((at_make dir).mp hup.at_).2.2.2.2
        have hne : uncle.root ≠ some p := by
          intro heq
          have hmem := mem_toList_of_root heq
          have hnodup := hholds.nodup
          grind [values]
        have hfilter := filter_red_root hat
        cases hcolor : uncle.color with
        | black =>
          rw [hcolor, if_neg (by simp)] at hfilter
          have hfix : fixPut (⟨.red, fside, p, other⟩ :: ⟨gc, dir, g, uncle⟩ :: fs)
              (node .red l x r) = plug fs (turnPut ⟨.red, fside, p, other⟩
                ⟨gc, dir, g, uncle⟩ (node .red l x r)) := by
            simp only [fixPut, hcolor]
          rw [hfix]
          cases dir.eq_or_eq_flip fside with
          | inl hsame =>
            subst hsame
            have hnot : other.root ≠ some x := by
              intro heq
              have hmem := mem_toList_of_root heq
              have hnodup := hholds.nodup
              grind [values, toList]
            rw [putStart_of_uncle_black hx hplace.color hplace.parent hdir huncle hne
              hfilter hchildp', if_neg hnot, turnPut, if_pos rfl]
            exact putCase6_turned h hg
          | inr hflip =>
            subst hflip
            rw [putStart_of_uncle_black hx hplace.color hplace.parent hdir huncle hne
              hfilter hchildp, RBTree.root, if_pos rfl, turnPut, if_neg dir.flip_ne]
            have hplace : Turned onRotate down s s₁ t (plug fs (make dir gc
                (make dir .red other p (make dir .red ((node .red l x r).child dir) x
                  ((node .red l x r).child dir.flip))) g uncle)) := by
              rw [plug, plug, Frame.fill, Frame.fill, make_flip] at h
              cases dir <;> exact h
            exact putCase5_turned hplace hp hg
        | red =>
          cases uncle with
          | nil => cases hcolor
          | node uc a u b =>
            cases hcolor
            have hpblack : Turned onRotate down s (s₁.setColor p .black) t (plug fs
                (make dir gc (make fside .black (node .red l x r) p other) g
                  (make .left .red a u b))) := Turned.setColor_near h .black
            have hublack := hpblack.setColor_far .black
            have hgred := hublack.setColor fs .red
            obtain ⟨l', r', hnode⟩ := exists_node dir .red
              (make fside .black (node .red l x r) p other) (node .black a u b) g
            rw [show make .left .black a u b = node .black a u b from rfl, hnode] at hgred
            have hfix : fixPut (⟨.red, fside, p, other⟩ ::
                ⟨gc, dir, g, node .red a u b⟩ :: fs) (node .red l x r) =
                  fixPut fs (node .red l' g r') := by
              rw [← hnode]
              rfl
            have hparent := hgred.holds.unplug.at_.1.parent
            rw [putStart_of_uncle_red hx hplace.color hplace.parent hdir huncle hne
              hfilter rfl, hparent, hfix]
            cases fs with
            | nil => exact ⟨_, rfl, hgred⟩
            | cons f fs =>
              refine ih hgred ?_ ?_
              · simp only [length_cons] at hfuel ⊢
                omega
              · intro q hq
                exact hdown q (mem_append_right _ (mem_append_right _ hq))

end

end Innigkeit.Core.RedBlackTree

import Innigkeit.Core.RedBlackTree
import Mathlib.Data.List.Perm.Basic

/-!
The memory of a red-black tree and the tree that it holds. `Holds s fs t` says that
the nodes of `s` are linked up as the tree `t` in the context `fs`: links, parents,
sides and colours, with every node in one place. A place in the tree is moved up and
down along the context, and what a function changes is seen at that place only.
-/

namespace Innigkeit.Core.RedBlackTree

open Zig Function RedBlack RedBlack.RBTree RedBlack.Context

variable {Ptr Aug : Type}

/-- A node that is in the tree, with its colour and its place below its parent. -/
structure Place (m : Ptr → Node Ptr) (p : Ptr) (c : Color) (above : Option Ptr)
    (at_ : Side) : Prop where
  color : (m p).color = c
  isolated : (m p).isolated = false
  parent : (m p).parent = above
  side : above ≠ none → (m p).side = at_

/-- The memory holds the tree below `parent`, on the given side. -/
def At (m : Ptr → Node Ptr) : Option Ptr → Side → RBTree Ptr → Prop
  | _, _, nil => True
  | parent, side, node c left p right => Place m p c parent side ∧
      (m p).link .left = left.root ∧ (m p).link .right = right.root ∧
      At m (some p) .left left ∧ At m (some p) .right right

/-- The node above a hole. -/
def parentOf : Context Ptr → Option Ptr
  | [] => none
  | f :: _ => some f.value

/-- The side of a hole; nothing depends on that of the root. -/
def holeSide : Context Ptr → Side
  | [] => .left
  | f :: _ => f.side

/-- The place of the pointer to the hole. -/
def slotOf : Context Ptr → Slot Ptr
  | [] => .root
  | f :: _ => .child f.value f.side

/-- The memory holds the context of a hole that points to `hole`. -/
def Around (m : Ptr → Node Ptr) (root : Option Ptr) : Context Ptr → Option Ptr → Prop
  | [], hole => root = hole
  | f :: fs, hole => Place m f.value f.color (parentOf fs) (holeSide fs) ∧
      (m f.value).link f.side = hole ∧ (m f.value).link f.side.flip = f.other.root ∧
      At m (some f.value) f.side.flip f.other ∧ Around m root fs (some f.value)

def values : Context Ptr → List Ptr
  | [] => []
  | f :: fs => f.value :: f.other.toList ++ values fs

structure Holds (s : RedBlackTree Ptr Aug) (fs : Context Ptr) (t : RBTree Ptr) : Prop where
  around : Around s.nodes s.root fs t.root
  at_ : At s.nodes (parentOf fs) (holeSide fs) t
  nodup : (t.toList ++ values fs).Nodup

section

theorem toList_make_perm (side : Side) (c : Color) (near far : RBTree Ptr) (p : Ptr) :
    (make side c near p far).toList.Perm (p :: near.toList ++ far.toList) := by
  cases side with
  | left => exact List.perm_middle
  | right => exact List.perm_middle.trans (List.Perm.cons p List.perm_append_comm)

theorem toList_plug_perm (fs : Context Ptr) (t : RBTree Ptr) :
    (plug fs t).toList.Perm (t.toList ++ values fs) := by
  induction fs generalizing t with
  | nil => simp [plug, values]
  | cons f fs ih =>
    refine (ih (f.fill t)).trans ?_
    refine ((toList_make_perm ..).append_right _).trans ?_
    simp only [values, List.cons_append, List.append_assoc]
    exact List.perm_middle.symm

theorem length_le_values (fs : Context Ptr) : fs.length ≤ (values fs).length := by
  induction fs with
  | nil => exact le_rfl
  | cons f fs ih =>
    simp only [values, List.length_append, List.length_cons]
    omega

theorem mem_toList_of_root {t : RBTree Ptr} {p : Ptr} (h : t.root = some p) : p ∈ t.toList := by
  cases t with
  | nil => cases h
  | node c l v r =>
    cases h
    simp [toList]

end

section

variable {m m' : Ptr → Node Ptr} {parent : Option Ptr} {side : Side} {t : RBTree Ptr}
variable {p : Ptr} {c : Color}

theorem Place.congr (heq : m' p = m p) (h : Place m p c parent side) :
    Place m' p c parent side := by
  obtain ⟨hc, hi, hp, hs⟩ := h
  exact ⟨heq ▸ hc, heq ▸ hi, heq ▸ hp, heq ▸ hs⟩

theorem At.congr (heq : ∀ p ∈ t.toList, m' p = m p) (h : At m parent side t) :
    At m' parent side t := by
  induction t generalizing parent side with
  | nil => trivial
  | node c l p r ihl ihr =>
    obtain ⟨hplace, hleft, hright, hl, hr⟩ := h
    have hp : m' p = m p := heq p (by simp [toList])
    refine ⟨hplace.congr hp, hp ▸ hleft, hp ▸ hright, ihl ?_ hl, ihr ?_ hr⟩
    · intro q hq
      exact heq q (by simp [toList, hq])
    · intro q hq
      exact heq q (by simp [toList, hq])

theorem Around.congr {root hole : Option Ptr} {fs : Context Ptr} (heq : ∀ p ∈ values fs, m' p = m p)
    (h : Around m root fs hole) : Around m' root fs hole := by
  induction fs generalizing hole with
  | nil => exact h
  | cons f fs ih =>
    obtain ⟨hplace, hlink, hother, hat, habove⟩ := h
    have hf : m' f.value = m f.value := heq f.value (by simp [values])
    refine ⟨hplace.congr hf, hf ▸ hlink, hf ▸ hother, hat.congr ?_, ih ?_ habove⟩
    · intro q hq
      exact heq q (by simp [values, hq])
    · intro q hq
      exact heq q (by simp [values, hq])

theorem at_make {near far : RBTree Ptr} (σ : Side) :
    At m parent side (make σ c near p far) ↔ Place m p c parent side ∧
      (m p).link σ = near.root ∧ (m p).link σ.flip = far.root ∧
      At m (some p) σ near ∧ At m (some p) σ.flip far := by
  cases σ with
  | left => rfl
  | right =>
    simp only [make, At, Side.flip]
    tauto

theorem At.isolated (h : At m parent side t) (hp : p ∈ t.toList) : (m p).isolated = false := by
  induction t generalizing parent side with
  | nil => cases hp
  | node c l q r ihl ihr =>
    obtain ⟨hplace, -, -, hl, hr⟩ := h
    rw [toList, List.mem_append, List.mem_cons] at hp
    obtain hp | rfl | hp := hp
    · exact ihl hl hp
    · exact hplace.isolated
    · exact ihr hr hp

theorem At.root (h : At m parent side t) (hp : t.root = some p) :
    (m p).color = t.color ∧ (m p).isolated = false ∧ (m p).parent = parent ∧
      (parent ≠ none → (m p).side = side) := by
  cases t with
  | nil => cases hp
  | node c l q r =>
    cases hp
    exact ⟨h.1.color, h.1.isolated, h.1.parent, h.1.side⟩

end

namespace Holds

variable {s s' : RedBlackTree Ptr Aug} {fs : Context Ptr} {t : RBTree Ptr} {f : Frame Ptr}

theorem cons_iff : s.Holds (f :: fs) t ↔ s.Holds fs (f.fill t) := by
  have hperm : (t.toList ++ values (f :: fs)).Perm ((f.fill t).toList ++ values fs) :=
    (toList_plug_perm (f :: fs) t).symm.trans (toList_plug_perm fs (f.fill t))
  constructor
  · intro h
    obtain ⟨⟨hplace, hlink, hother, hat, habove⟩, ht, hnodup⟩ := h
    refine ⟨?_, (at_make f.side).mpr ⟨hplace, hlink, hother, ht, hat⟩, hperm.nodup_iff.mp hnodup⟩
    rw [Frame.fill, make_root]
    exact habove
  · intro h
    obtain ⟨habove, ht, hnodup⟩ := h
    obtain ⟨hplace, hlink, hother, hnear, hfar⟩ := (at_make f.side).mp ht
    rw [Frame.fill, make_root] at habove
    exact ⟨⟨hplace, hlink, hother, hfar, habove⟩, hnear, hperm.nodup_iff.mpr hnodup⟩

theorem up (h : s.Holds (f :: fs) t) : s.Holds fs (f.fill t) := cons_iff.mp h

theorem plug (h : s.Holds fs t) : s.Holds [] (plug fs t) := by
  induction fs generalizing t with
  | nil => exact h
  | cons f fs ih => exact ih h.up

theorem unplug (h : s.Holds [] (Context.plug fs t)) : s.Holds fs t := by
  induction fs generalizing t with
  | nil => exact h
  | cons f fs ih => exact cons_iff.mpr (ih h)

theorem read_slotOf (h : s.Holds fs t) : s.read (slotOf fs) = t.root := by
  cases fs with
  | nil => exact h.around
  | cons f fs => exact h.around.2.1

end Holds

end Innigkeit.Core.RedBlackTree

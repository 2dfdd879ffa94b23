import Innigkeit.Core.RedBlackRotate
import Innigkeit.Library.RedBlack.Search

/-!
The walks along the links: the search for the entry of a node, the outermost node of a
subtree, and the node before or after a node in order.
-/

namespace Innigkeit.Core.RedBlackTree

open Zig RedBlack RedBlack.RBTree RedBlack.Context

variable {Ptr Aug : Type} {s : RedBlackTree Ptr Aug} {fs : Context Ptr} {t : RBTree Ptr}

theorem repeatLoop_eq (side : Side) {fuel : ℕ} {p : Ptr} (h : s.Holds fs t)
    (hroot : t.root = some p) (hfuel : t.toList.length ≤ fuel) :
    ∃ q, s.repeatLoop side fuel p = .ok q ∧ edge side t.toList = some q := by
  induction fuel generalizing fs t p with
  | zero =>
    have := List.length_pos_of_mem (mem_toList_of_root hroot)
    omega
  | succ fuel ih =>
    have hne : t ≠ nil := by
      rintro rfl
      cases hroot
    obtain ⟨c, near, v, far, rfl⟩ := exists_make side hne
    rw [make_root] at hroot
    cases hroot
    rw [repeatLoop, h.children.1, ok_bind]
    cases near with
    | nil =>
      refine ⟨p, rfl, ?_⟩
      cases side <;> simp [make, toList, edge]
    | node nc l v r =>
      have hbelow : s.Holds (⟨c, side, p, far⟩ :: fs) (node nc l v r) := Holds.cons_iff.mpr h
      have hlength : (node nc l v r).toList.length ≤ fuel := by
        have hperm := (toList_make_perm side c (node nc l v r) far p).length_eq
        simp only [List.length_append, List.length_cons] at hperm
        omega
      obtain ⟨q, hq, hedge⟩ := ih hbelow rfl hlength
      exact ⟨q, hq, edge_make hedge⟩

theorem climb_eq {fuel : ℕ} {p : Ptr} (dir : Side) (h : s.Holds fs t) (hroot : t.root = some p)
    (hfuel : fs.length < fuel) :
    s.climb dir fuel p = .ok (match dir with
      | .left => (before fs).getLast?
      | .right => (after fs).head?) := by
  induction fuel generalizing fs t p with
  | zero => omega
  | succ fuel ih =>
    obtain ⟨-, -, hparent, hside⟩ := h.at_.root hroot
    rw [climb, hparent]
    cases fs with
    | nil => cases dir <;> rfl
    | cons f fs =>
      rw [List.length_cons] at hfuel
      have hup := ih h.up (make_root ..) (by omega)
      have hs : (s.nodes p).side = f.side := hside (Option.some_ne_none _)
      rw [parentOf]
      dsimp only
      rw [hs, hup]
      cases dir with
      | left =>
        cases hf : f.side with
        | left => simp [before, hf]
        | right => simp [before, hf]
      | right =>
        cases hf : f.side with
        | left => simp [after, hf]
        | right => simp [after, hf]

section

variable {c : Color} {l r : RBTree Ptr} {p : Ptr} {bound : ℕ}

theorem successor_eq (h : s.Holds fs (node c l p r)) (hfs : fs.length ≤ bound)
    (hr : r.toList.length ≤ bound + 1) :
    s.successor bound p = .ok (r.toList ++ after fs).head? := by
  have hmake : s.Holds fs (make .left c l p r) := h
  have hchild : s.child p .right = .ok r.root := hmake.children.2
  rw [successor, advance, hchild, ok_bind]
  cases hroot : r.root with
  | none =>
    rw [root_eq_none] at hroot
    subst hroot
    exact climb_eq .right h rfl (Nat.lt_succ_of_le hfs)
  | some q =>
    have hbelow : s.Holds (⟨c, .right, p, l⟩ :: fs) r := Holds.cons_iff.mpr h
    obtain ⟨q', hrepeat, hedge⟩ := repeatLoop_eq .left hbelow hroot hr
    dsimp only
    rw [repeat_, Side.flip, hrepeat, List.head?_append]
    have hhead : r.toList.head? = some q' := hedge
    rw [hhead]
    rfl

theorem predecessor_eq (h : s.Holds fs (node c l p r)) (hfs : fs.length ≤ bound)
    (hl : l.toList.length ≤ bound + 1) :
    s.predecessor bound p = .ok (before fs ++ l.toList).getLast? := by
  have hmake : s.Holds fs (make .left c l p r) := h
  have hchild : s.child p .left = .ok l.root := hmake.children.1
  rw [predecessor, advance, hchild, ok_bind]
  cases hroot : l.root with
  | none =>
    rw [root_eq_none] at hroot
    subst hroot
    rw [toList, List.append_nil]
    exact climb_eq .left h rfl (Nat.lt_succ_of_le hfs)
  | some q =>
    have hbelow : s.Holds (⟨c, .left, p, r⟩ :: fs) l := Holds.cons_iff.mpr h
    obtain ⟨q', hrepeat, hedge⟩ := repeatLoop_eq .right hbelow hroot hl
    dsimp only
    rw [repeat_, Side.flip, hrepeat, List.getLast?_append]
    have hlast : l.toList.getLast? = some q' := hedge
    rw [hlast]
    rfl

end

end Innigkeit.Core.RedBlackTree

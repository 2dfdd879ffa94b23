import Innigkeit.Core.RedBlackRotate
import Mathlib.Data.List.Nodup

/-!
A node that takes over the place of another one. The new node gets what the old one held;
its children, the node above it and nothing else learn of the change.
-/

namespace Innigkeit.Core.RedBlackTree

open Zig Function RedBlack RedBlack.RBTree RedBlack.Context List

variable {Ptr Aug : Type}

section

variable [DecidableEq Ptr] {s : RedBlackTree Ptr Aug} {p q : Ptr}

private theorem nodes_fix_ite : (s.fixChildParentPointers p).nodes q =
    if (s.nodes p).left = some q ∨ (s.nodes p).right = some q then
      { s.nodes q with parent := some p } else s.nodes q := by
  have hlinks (r : Ptr) (above : Option Ptr) :
      ((s.setParent r above).nodes p).right = (s.nodes p).right := by
    simp only [setParent, modify, update_apply]
    split <;> simp_all
  rw [fixChildParentPointers]
  cases hl : (s.nodes p).left with
  | none =>
    cases hr : (s.nodes p).right with
    | none => simp
    | some b =>
      simp only [setParent, modify, update_apply]
      grind
  | some a =>
    simp only [hlinks]
    cases hr : (s.nodes p).right with
    | none | some b =>
      simp only [setParent, modify, update_apply]
      grind

theorem nodes_fixChildParentPointers : (s.fixChildParentPointers p).nodes q =
    { s.nodes q with
      parent := if (s.nodes p).left = some q ∨ (s.nodes p).right = some q then some p
        else (s.nodes q).parent } := by
  rw [nodes_fix_ite]
  split <;> rfl

theorem fixChildParentPointers_eq :
    s.fixChildParentPointers p = { s with nodes := (s.fixChildParentPointers p).nodes } := by
  rw [fixChildParentPointers]
  cases (s.nodes p).left <;> dsimp only <;> split <;> rfl

variable {value : Option Ptr} {fs : Context Ptr}

theorem isolated_write {slot : Slot Ptr} :
    ((s.write slot value).nodes q).isolated = (s.nodes q).isolated := by
  cases slot with
  | root => rfl
  | child a σ =>
    simp only [write, setChild, modify, update_apply]
    split
    · next heq => rw [heq, setLink_isolated]
    · rfl

theorem nodes_write_slotOf (hq : parentOf fs ≠ some q) :
    (s.write (slotOf fs) value).nodes q = s.nodes q := by
  cases fs with
  | nil => rfl
  | cons f fs =>
    have hne : q ≠ f.value := fun heq => hq (congrArg some heq.symm)
    exact update_of_ne hne ..

theorem Holds.write {t : RBTree Ptr} (h : s.Holds fs t) (value : Option Ptr) :
    Around (s.write (slotOf fs) value).nodes (s.write (slotOf fs) value).root fs value := by
  refine h.around.relink (nodup_append.mp h.nodup).2.1 ?_ ?_ ?_
  · cases fs <;> rfl
  · intro p hp
    cases fs with
    | nil => cases hp
    | cons f fs =>
      cases hp
      exact update_self ..
  · intro p _ hp
    exact nodes_write_slotOf hp

end

section

variable [DecidableEq Ptr] {s : RedBlackTree Ptr Aug} {old new : Ptr}

theorem replace_eq : s.replace old new = { s with
    nodes := (((s.modify new fun _ => s.nodes old).modify old fun node =>
      { node with isolated := true }).fixChildParentPointers new).nodes
    first := if s.first = some old then some new else s.first
    last := if s.last = some old then some new else s.last } := by
  simp only [replace]
  rw [fixChildParentPointers_eq]
  by_cases hfirst : s.first = some old
  · by_cases hlast : s.last = some old
    · simp only [modify, hfirst, hlast, if_true]
    · simp only [modify, hfirst, hlast, if_true, if_false]
  · by_cases hlast : s.last = some old
    · simp only [modify, hfirst, hlast, if_true, if_false]
    · simp only [modify, hfirst, hlast, if_false]

theorem nodes_replace (hne : old ≠ new) {q : Ptr} (hq : q ≠ old) :
    (s.replace old new).nodes q =
      { (if q = new then s.nodes old else s.nodes q) with
        parent := if (s.nodes old).left = some q ∨ (s.nodes old).right = some q then some new
          else (if q = new then s.nodes old else s.nodes q).parent } := by
  rw [replace_eq]
  dsimp only
  rw [nodes_fixChildParentPointers]
  simp only [modify, update_apply, hne.symm, hq, if_true, if_false]

theorem isolated_replace (q : Ptr) : ((s.replace old new).nodes q).isolated =
    if q = old then true else if q = new then (s.nodes old).isolated
    else (s.nodes q).isolated := by
  rw [replace_eq]
  dsimp only
  rw [nodes_fixChildParentPointers]
  simp only [modify, update_apply]
  split
  · rfl
  · split <;> rfl

theorem replace_holds {fs : Context Ptr} {c : Color} {l r : RBTree Ptr}
    (h : s.Holds fs (node c l old r)) (hnew : new ∉ (node c l old r).toList ++ values fs) :
    ((s.write (slotOf fs) (some new)).replace old new).Holds fs (node c l new r) := by
  have hnodup := h.nodup
  simp only [toList, append_assoc, cons_append, mem_append, mem_cons, not_or, nodup_middle,
    nodup_cons] at hnodup hnew
  obtain ⟨⟨holdl, holdr, holdv⟩, hrest⟩ := hnodup
  obtain ⟨hnewl, hne, hnewr, hnewv⟩ := hnew
  obtain ⟨hlnodup, hrv, hlrv⟩ := nodup_append.mp hrest
  obtain ⟨hrnodup, -, hrvalues⟩ := nodup_append.mp hrv
  have hwrite (q : Ptr) (hq : q ∉ values fs) :
      (s.write (slotOf fs) (some new)).nodes q = s.nodes q :=
    nodes_write_slotOf fun heq => hq (mem_values_of_parentOf heq)
  obtain ⟨hplace, hleft, hright, hl, hr⟩ := h.at_
  change (s.nodes old).left = l.root at hleft
  change (s.nodes old).right = r.root at hright
  have hnodes {q : Ptr} (hq : q ≠ old) := nodes_replace (s := s.write (slotOf fs) (some new))
    (Ne.symm hne) hq
  simp only [hwrite old holdv, hleft, hright] at hnodes
  have hroot {t : RBTree Ptr} {q : Ptr} (hq : q ∉ t.toList) : t.root ≠ some q :=
    fun heq => hq (mem_toList_of_root heq)
  have hself : ((s.write (slotOf fs) (some new)).replace old new).nodes new = s.nodes old := by
    rw [hnodes hne]
    simp [hroot hnewl, hroot hnewr]
  have hunder {u : RBTree Ptr} {side : Side} (hat : At s.nodes (some old) side u)
      (hu : u = l ∨ u = r) (hnodup : u.toList.Nodup)
      (hout : ∀ q ∈ u.toList, q ∉ values fs ∧ q ≠ old ∧ q ≠ new ∧
        (l.root = some q ∨ r.root = some q → u.root = some q)) :
      At ((s.write (slotOf fs) (some new)).replace old new).nodes (some new) side u := by
    refine hat.move hnodup (fun q hq => ?_) fun q hq hne => ?_
    · obtain ⟨hv, ho, hn, -⟩ := hout q (mem_toList_of_root hq)
      have hchild : l.root = some q ∨ r.root = some q := by
        rcases hu with rfl | rfl <;> simp [hq]
      rw [hnodes ho, if_neg hn, hwrite q hv, if_pos hchild]
      exact ⟨rfl, rfl, rfl, rfl, rfl, fun _ => (hat.root hq).2.2.2 (Option.some_ne_none _)⟩
    · obtain ⟨hv, ho, hn, hroots⟩ := hout q hq
      rw [hnodes ho, if_neg hn, hwrite q hv, if_neg fun hchild => hne (hroots hchild)]
  refine ⟨?_, ⟨?_, ?_, ?_, hunder hl (.inl rfl) hlnodup fun q hq => ?_,
    hunder hr (.inr rfl) hrnodup fun q hq => ?_⟩, ?_⟩
  · have hroot' : ((s.write (slotOf fs) (some new)).replace old new).root =
        (s.write (slotOf fs) (some new)).root := by rw [replace_eq]
    rw [hroot']
    refine (h.write (some new)).congr fun p hp => ?_
    have hpl : p ∉ l.toList := fun hq => hlrv p hq p (mem_append_right _ hp) rfl
    have hpr : p ∉ r.toList := fun hq => hrvalues p hq p hp rfl
    rw [hnodes (fun heq => holdv (heq ▸ hp))]
    simp [show p ≠ new from fun heq => hnewv (heq ▸ hp), hroot hpl, hroot hpr]
  · exact ⟨by rw [hself]; exact hplace.color, by rw [hself]; exact hplace.isolated,
      by rw [hself]; exact hplace.parent, by rw [hself]; exact hplace.side⟩
  · rw [hself]
    exact hleft
  · rw [hself]
    exact hright
  · exact ⟨fun hv => hlrv q hq q (mem_append_right _ hv) rfl, fun heq => holdl (heq ▸ hq),
      fun heq => hnewl (heq ▸ hq), fun hchild => hchild.resolve_right
        (hroot fun hq' => hlrv q hq q (mem_append_left _ hq') rfl)⟩
  · exact ⟨fun hv => hrvalues q hq q hv rfl, fun heq => holdr (heq ▸ hq),
      fun heq => hnewr (heq ▸ hq), fun hchild => hchild.resolve_left
        (hroot fun hq' => hlrv q hq' q (mem_append_left _ hq) rfl)⟩
  · simp only [toList, append_assoc, cons_append, nodup_middle, nodup_cons, mem_append, not_or]
    exact ⟨⟨hnewl, hnewr, hnewv⟩, hrest⟩

end

end Innigkeit.Core.RedBlackTree

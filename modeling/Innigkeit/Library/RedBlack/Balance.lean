import Innigkeit.Library.RedBlack.Tree

/-!
The repair of a red-black tree after an insertion, as a function on a context and the
tree in its hole, which has a red root, possibly below a red node. The repair keeps the
order of the values and gives a valid tree.
-/

namespace RedBlack

open RBTree Context Frame

variable {α : Type*}

/-- The rotations at the grandparent `g`, when the parent `p` is red and the uncle is not. -/
def turnPut (p g : Frame α) (t : RBTree α) : RBTree α :=
  if p.side = g.side then
    make g.side .black t p.value (make g.side .red p.other g.value g.other)
  else
    match t with
    | nil => g.fill (p.fill nil)
    | node _ _ x _ =>
      make g.side .black (make g.side .red p.other p.value (t.child g.side)) x
        (make g.side .red (t.child g.side.flip) g.value g.other)

/-- The repair after an insertion. -/
def fixPut : Context α → RBTree α → RBTree α
  | [], t => t
  | [p], t => { p with color := .black }.fill t
  | p :: g :: fs, t =>
    match p.color, g.other.color with
    | .black, _ => plug (p :: g :: fs) t
    | .red, .red =>
      fixPut fs ({ g with color := .red, other := g.other.setColor .black }.fill
        ({ p with color := .black }.fill t))
    | .red, .black => plug fs (turnPut p g t)

section

theorem toList_plug_congr {fs : Context α} {t t' : RBTree α} (h : t.toList = t'.toList) :
    (plug fs t).toList = (plug fs t').toList := by
  rw [toList_plug, toList_plug, h]

theorem toList_turnPut (p g : Frame α) (t : RBTree α) :
    (turnPut p g t).toList = (g.fill (p.fill t)).toList := by
  obtain ⟨pc, ps, p, po⟩ := p
  obtain ⟨gc, gs, g, go⟩ := g
  rw [turnPut.eq_def]
  split
  · next heq =>
    dsimp only at heq
    rw [heq]
    cases gs <;> simp [fill, make, toList]
  · next hne =>
    cases t with
    | nil => rfl
    | node c l x r => cases ps <;> cases gs <;> simp_all [fill, make, toList, child, Side.flip]

theorem toList_fixPut (fs : Context α) (t : RBTree α) :
    (fixPut fs t).toList = (plug fs t).toList := by
  induction fs, t using fixPut.induct with
  | case1 t => rfl
  | case2 p t => exact toList_make_color ..
  | case3 p g fs t hp => simp only [fixPut, hp]
  | case4 p g fs t hp hg ih =>
    simp only [fixPut, hp, hg]
    rw [ih]
    refine toList_plug_congr ?_
    simp only [fill, toList_make]
    cases p.side <;> cases g.side <;> simp
  | case5 p g fs t hp hg =>
    simp only [fixPut, hp, hg]
    exact toList_plug_congr (toList_turnPut p g t)

end

section

variable {fs : Context α} {t : RBTree α} {height : ℕ}

theorem fixPut_valid (hfs : Context.Valid height fs) (ht : t.Valid height)
    (hred : t.color = .red) : ∃ h, (fixPut fs t).Valid h := by
  induction fs, t using fixPut.induct generalizing height with
  | case1 t => exact ⟨height, ht⟩
  | case2 p t => exact ⟨height + 1, (valid_make_black ..).mpr ⟨height, rfl, ht, hfs.1⟩⟩
  | case3 p g fs t hp =>
    simp only [fixPut, hp]
    refine hfs.plug ht fun hcolor => ?_
    rw [Context.color, hp] at hcolor
    cases hcolor
  | case4 p g fs t hg hp ih =>
    simp only [fixPut, hp, hg]
    obtain ⟨hpo, hrest⟩ := hfs
    rw [hp] at hrest
    obtain ⟨hpblack, hgblack, hgo, hup⟩ := hrest
    have hgc : g.color = .black := hgblack
    rw [hgc] at hup
    refine ih hup ?_ (make_color ..)
    refine (valid_make_red ..).mpr ⟨make_color .., ?_, ?_, hgo.setColor_black hg⟩
    · exact setColor_color (ne_nil_of_color hg) _
    · exact (valid_make_black ..).mpr ⟨height, rfl, ht, hpo⟩
  | case5 p g fs t hg hp =>
    simp only [fixPut, hp, hg]
    obtain ⟨hpo, hrest⟩ := hfs
    rw [hp] at hrest
    obtain ⟨hpblack, hgblack, hgo, hup⟩ := hrest
    have hgc : g.color = .black := hgblack
    rw [hgc] at hup
    have hturn : (turnPut p g t).Valid (height + 1) ∧ (turnPut p g t).color = .black := by
      rw [turnPut.eq_def]
      split
      · refine ⟨(valid_make_black ..).mpr ⟨height, rfl, ht, ?_⟩, make_color ..⟩
        exact (valid_make_red ..).mpr ⟨hpblack, hg, hpo, hgo⟩
      · cases t with
        | nil => cases hred
        | node c l x r =>
          cases hred
          obtain ⟨hl, hr, hvl, hvr⟩ := ht
          have hchild (side : Side) : ((node .red l x r).child side).color = .black ∧
              ((node .red l x r).child side).Valid height := by
            cases side with
            | left => exact ⟨hl, hvl⟩
            | right => exact ⟨hr, hvr⟩
          refine ⟨(valid_make_black ..).mpr ⟨height, rfl, ?_, ?_⟩, make_color ..⟩
          · exact (valid_make_red ..).mpr ⟨hpblack, (hchild _).1, hpo, (hchild _).2⟩
          · exact (valid_make_red ..).mpr ⟨(hchild _).1, hg, (hchild _).2, hgo⟩
    exact hup.plug hturn.1 fun _ => hturn.2

end

namespace RBTree

def depth : RBTree α → ℕ
  | nil => 0
  | node _ left _ right => max left.depth right.depth + 1

variable {t : RBTree α} {height : ℕ}

theorem depth_le_length (t : RBTree α) : t.depth ≤ t.toList.length := by
  induction t with
  | nil => exact Nat.le_refl 0
  | node c l v r ihl ihr =>
    simp only [depth, toList, List.length_append, List.length_cons]
    omega

/-- A red root counts for a level of its own, since the nodes below it are black. -/
theorem Valid.bounds (h : t.Valid height) : ∃ red ≤ 1, (t.color = .black → red = 0) ∧
    t.depth ≤ 2 * height + red ∧ height + red ≤ (t.toList.length + 1).log2 := by
  induction t generalizing height with
  | nil => exact ⟨0, by simp [depth, show height = 0 from h]⟩
  | node c l v r ihl ihr =>
    simp only [depth, toList, List.length_append, List.length_cons]
    cases c with
    | black =>
      obtain ⟨below, rfl, hl, hr⟩ := h
      obtain ⟨i, hi, -, hdl, hnl⟩ := ihl hl
      obtain ⟨j, hj, -, hdr, hnr⟩ := ihr hr
      refine ⟨0, by omega, fun _ => rfl, by omega, ?_⟩
      have hpl := (Nat.le_log2 (by omega)).mp (Nat.le_of_add_right_le hnl)
      have hpr := (Nat.le_log2 (by omega)).mp (Nat.le_of_add_right_le hnr)
      rw [Nat.le_log2 (by omega), Nat.add_zero, Nat.pow_succ]
      omega
    | red =>
      obtain ⟨hcl, hcr, hl, hr⟩ := h
      obtain ⟨i, -, hi, hdl, hnl⟩ := ihl hl
      obtain ⟨j, -, hj, hdr, hnr⟩ := ihr hr
      rw [hi hcl, Nat.add_zero] at hdl hnl
      rw [hj hcr, Nat.add_zero] at hdr hnr
      refine ⟨1, Nat.le_refl 1, (fun h => by cases h), by omega, ?_⟩
      have hpl := (Nat.le_log2 (by omega)).mp hnl
      have hpr := (Nat.le_log2 (by omega)).mp hnr
      rw [Nat.le_log2 (by omega), Nat.pow_succ]
      omega

theorem Valid.depth_le_log (h : t.Valid height) : t.depth ≤ 2 * (t.toList.length + 1).log2 := by
  obtain ⟨red, -, -, hdepth, hlog⟩ := h.bounds
  omega

end RBTree

end RedBlack

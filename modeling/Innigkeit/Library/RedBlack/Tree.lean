import Mathlib.Data.List.Basic

/-!
Coloured binary trees and their contexts. A context is the path from a hole up to
the root, innermost frame first, so that a loop which climbs a tree is a recursion
on the context. The two sides of a tree are treated alike: `make side` builds a node
with its near child on the given side.

A tree is valid when no red node has a red child and all paths to an empty place
pass the same number of black nodes.
-/

namespace RedBlack

inductive Color where
  | black
  | red
  deriving DecidableEq, Repr

inductive Side where
  | left
  | right
  deriving DecidableEq, Repr

def Side.flip : Side → Side
  | .left => .right
  | .right => .left

@[simp] theorem Side.flip_flip (side : Side) : side.flip.flip = side := by
  cases side <;> rfl

theorem Side.flip_ne (side : Side) : side.flip ≠ side := by
  cases side <;> decide

theorem Side.eq_or_eq_flip (side side' : Side) : side' = side ∨ side' = side.flip := by
  cases side <;> cases side' <;> decide

inductive RBTree (α : Type*) where
  | nil
  | node (color : Color) (left : RBTree α) (value : α) (right : RBTree α)
  deriving Repr

variable {α : Type*}

namespace RBTree

def root : RBTree α → Option α
  | nil => none
  | node _ _ value _ => some value

def color : RBTree α → Color
  | nil => .black
  | node color _ _ _ => color

/-- The values in order. -/
def toList : RBTree α → List α
  | nil => []
  | node _ left value right => left.toList ++ value :: right.toList

/-- A node with the child `near` on the given side. -/
def make (side : Side) (color : Color) (near : RBTree α) (value : α) (far : RBTree α) : RBTree α :=
  match side with
  | .left => node color near value far
  | .right => node color far value near

def child : Side → RBTree α → RBTree α
  | _, nil => nil
  | .left, node _ left _ _ => left
  | .right, node _ _ _ right => right

def setColor (color : Color) : RBTree α → RBTree α
  | nil => nil
  | node _ left value right => node color left value right

/-- Every path to an empty place passes `height` black nodes, and no red node has a red child. -/
def Valid : ℕ → RBTree α → Prop
  | height, nil => height = 0
  | height, node .black left _ right => ∃ below, height = below + 1 ∧ Valid below left ∧
      Valid below right
  | height, node .red left _ right => left.color = .black ∧ right.color = .black ∧
      Valid height left ∧ Valid height right

section

variable (side : Side) (c : Color) (near far : RBTree α) (value : α)

@[simp] theorem make_root : (make side c near value far).root = some value := by
  cases side <;> rfl

@[simp] theorem make_color : (make side c near value far).color = c := by
  cases side <;> rfl

theorem make_flip : make side.flip c near value far = make side c far value near := by
  cases side <;> rfl

theorem toList_make : (make side c near value far).toList =
    match side with
    | .left => near.toList ++ value :: far.toList
    | .right => far.toList ++ value :: near.toList := by
  cases side <;> rfl

theorem toList_rotate (c' : Color) (inner outer : RBTree α) (value' : α) :
    (make side c near value (make side c' inner value' outer)).toList =
      (make side c' (make side c near value inner) value' outer).toList := by
  cases side <;> simp [make, toList]

theorem toList_make_color (c' : Color) :
    (make side c near value far).toList = (make side c' near value far).toList := by
  cases side <;> rfl

theorem valid_make_black (height : ℕ) : Valid height (make side .black near value far) ↔
    ∃ below, height = below + 1 ∧ Valid below near ∧ Valid below far := by
  cases side with
  | left => rfl
  | right => simp only [make, Valid, and_comm]

theorem valid_make_red (height : ℕ) : Valid height (make side .red near value far) ↔
    near.color = .black ∧ far.color = .black ∧ Valid height near ∧ Valid height far := by
  cases side with
  | left => rfl
  | right =>
    simp only [make, Valid]
    tauto

theorem exists_make {t : RBTree α} (side : Side) (h : t ≠ nil) :
    ∃ c near value far, t = make side c near value far := by
  cases t with
  | nil => exact absurd rfl h
  | node c l v r =>
    cases side with
    | left => exact ⟨c, l, v, r, rfl⟩
    | right => exact ⟨c, r, v, l, rfl⟩

end

@[simp] theorem setColor_color {t : RBTree α} (h : t ≠ nil) (c : Color) :
    (t.setColor c).color = c := by
  cases t with
  | nil => exact absurd rfl h
  | node => rfl

@[simp] theorem setColor_toList (c : Color) (t : RBTree α) : (t.setColor c).toList = t.toList := by
  cases t <;> rfl

variable {t : RBTree α} {height : ℕ}

theorem root_eq_none : t.root = none ↔ t = nil := by
  cases t <;> simp [root]

theorem ne_nil_of_color (h : t.color = .red) : t ≠ nil := by
  intro heq
  rw [heq] at h
  cases h

theorem Valid.setColor_black (h : t.Valid height) (hred : t.color = .red) :
    (t.setColor .black).Valid (height + 1) := by
  cases t with
  | nil => cases hred
  | node c l v r =>
    cases hred
    exact ⟨height, rfl, h.2.2.1, h.2.2.2⟩

end RBTree

/-- A node on the way to the hole: `side` is the side of the hole, `other` the other child. -/
structure Frame (α : Type*) where
  color : Color
  side : Side
  value : α
  other : RBTree α
  deriving Repr

namespace Frame

def fill (f : Frame α) (t : RBTree α) : RBTree α := RBTree.make f.side f.color t f.value f.other

end Frame

/-- The frames from the hole to the root. -/
abbrev Context (α : Type*) := List (Frame α)

namespace Context

def plug : Context α → RBTree α → RBTree α
  | [], t => t
  | f :: fs, t => plug fs (f.fill t)

theorem plug_append (gs fs : Context α) (t : RBTree α) : plug (gs ++ fs) t = plug fs (plug gs t) := by
  induction gs generalizing t with
  | nil => rfl
  | cons g gs ih => exact ih (g.fill t)

/-- What comes before the hole in order. -/
def before : Context α → List α
  | [] => []
  | f :: fs => before fs ++ match f.side with
    | .left => []
    | .right => f.other.toList ++ [f.value]

def after : Context α → List α
  | [] => []
  | f :: fs => (match f.side with
    | .left => f.value :: f.other.toList
    | .right => []) ++ after fs

theorem toList_plug (fs : Context α) (t : RBTree α) :
    (plug fs t).toList = before fs ++ t.toList ++ after fs := by
  induction fs generalizing t with
  | nil => simp [plug, before, after]
  | cons f fs ih =>
    rw [plug, ih, Frame.fill, RBTree.toList_make, before, after]
    cases f.side <;> simp

theorem exists_plug_of_mem {t : RBTree α} {v : α} (h : v ∈ t.toList) :
    ∃ fs c l r, t = plug fs (.node c l v r) := by
  induction t with
  | nil => cases h
  | node c l w r ihl ihr =>
    rw [RBTree.toList, List.mem_append, List.mem_cons] at h
    obtain h | rfl | h := h
    · obtain ⟨fs, c', l', r', rfl⟩ := ihl h
      exact ⟨fs ++ [⟨c, .left, w, r⟩], c', l', r', by rw [plug_append]; rfl⟩
    · exact ⟨[], c, l, r, rfl⟩
    · obtain ⟨fs, c', l', r', rfl⟩ := ihr h
      exact ⟨fs ++ [⟨c, .right, w, l⟩], c', l', r', by rw [plug_append]; rfl⟩

theorem toList_plug_node (fs : Context α) (c : Color) (l r : RBTree α) (v : α) :
    (plug fs (.node c l v r)).toList = (before fs ++ l.toList) ++ v :: (r.toList ++ after fs) := by
  simp [toList_plug, RBTree.toList]

def color : Context α → Color
  | [] => .black
  | f :: _ => f.color

/-- The context of a hole for a valid tree of the height: plugging one in gives a valid tree, if it
does not put a red node below a red one. -/
def Valid : ℕ → Context α → Prop
  | _, [] => True
  | height, f :: fs => f.other.Valid height ∧ match f.color with
    | .black => Valid (height + 1) fs
    | .red => f.other.color = .black ∧ color fs = .black ∧ Valid height fs

variable {fs : Context α} {t : RBTree α}

theorem Valid.plug {height : ℕ} (hfs : Valid height fs) (ht : t.Valid height)
    (hcolor : color fs = .red → t.color = .black) : ∃ h, (plug fs t).Valid h := by
  induction fs generalizing height t with
  | nil => exact ⟨height, ht⟩
  | cons f fs ih =>
    obtain ⟨fc, side, value, other⟩ := f
    obtain ⟨hother, hrest⟩ := hfs
    cases fc with
    | black =>
      refine ih hrest ?_ fun _ => by simp [Frame.fill]
      exact (RBTree.valid_make_black ..).mpr ⟨height, rfl, ht, hother⟩
    | red =>
      obtain ⟨hblack, habove, hrest⟩ := hrest
      refine ih hrest ?_ fun hred => by rw [habove] at hred; cases hred
      exact (RBTree.valid_make_red ..).mpr ⟨hcolor rfl, hblack, ht, hother⟩

theorem valid_of_plug {h : ℕ} (hvalid : (plug fs t).Valid h) :
    ∃ height, Valid height fs ∧ t.Valid height ∧ (color fs = .red → t.color = .black) := by
  induction fs generalizing t with
  | nil => exact ⟨h, trivial, hvalid, fun hred => by cases hred⟩
  | cons f fs ih =>
    obtain ⟨fc, side, value, other⟩ := f
    obtain ⟨height, hfs, ht, hcolor⟩ := ih hvalid
    cases fc with
    | black =>
      obtain ⟨below, rfl, hnear, hfar⟩ := (RBTree.valid_make_black ..).mp ht
      exact ⟨below, ⟨hfar, hfs⟩, hnear, fun hred => by cases hred⟩
    | red =>
      obtain ⟨hnear, hfar, hvn, hvf⟩ := (RBTree.valid_make_red ..).mp ht
      have habove : color fs = .black := by
        cases hc : color fs with
        | black => rfl
        | red =>
          have hred := hcolor hc
          simp [Frame.fill] at hred
      exact ⟨height, ⟨hvf, hfar, habove, hfs⟩, hvn, fun _ => hnear⟩

end Context

end RedBlack

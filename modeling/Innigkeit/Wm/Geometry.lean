import Innigkeit.Zig.Checked

/-!
Rectangles and the surface stack of the window manager. Coordinates are 32-bit
signed integers: the edges of a rectangle saturate, every other sum or difference
is checked. An intersection can only fail because the rectangles lie too far
apart, and a bounding box only because it would be too large.
-/

namespace Innigkeit.Wm

open Zig

def InI32 (v : ℤ) : Prop := -2 ^ 31 ≤ v ∧ v < 2 ^ 31
  deriving Decidable

def checkedI32 (v : ℤ) : Checked ℤ := if InI32 v then .ok v else .error .overflow

/-- `a +| b`. -/
def saturatingAdd (a b : ℤ) : ℤ := max (-2 ^ 31) (min (a + b) (2 ^ 31 - 1))

theorem checkedI32_of {v : ℤ} (h : InI32 v) : checkedI32 v = .ok v := if_pos h

theorem checkedI32_of_not {v : ℤ} (h : ¬ InI32 v) : checkedI32 v = .error .overflow := if_neg h

structure Rect where
  x : ℤ := 0
  y : ℤ := 0
  w : ℤ := 0
  h : ℤ := 0
  deriving DecidableEq, Repr

namespace Rect

def isEmpty (r : Rect) : Bool := r.w ≤ 0 || r.h ≤ 0

def right (r : Rect) : ℤ := saturatingAdd r.x r.w

def bottom (r : Rect) : ℤ := saturatingAdd r.y r.h

def intersect (a b : Rect) : Checked Rect := do
  let x := max a.x b.x
  let y := max a.y b.y
  let r := min a.right b.right
  let bm := min a.bottom b.bottom
  let w ← checkedI32 (r - x)
  let h ← checkedI32 (bm - y)
  return { x, y, w, h }

def boundingUnion (a b : Rect) : Checked Rect :=
  if a.isEmpty then .ok b
  else if b.isEmpty then .ok a
  else do
    let x := min a.x b.x
    let y := min a.y b.y
    let r := max a.right b.right
    let bm := max a.bottom b.bottom
    let w ← checkedI32 (r - x)
    let h ← checkedI32 (bm - y)
    return { x, y, w, h }

def clampedToSize (r : Rect) (w h : ℤ) : Checked Rect := r.intersect { x := 0, y := 0, w, h }

/-- The fields are values of `i32`. -/
structure Wide (r : Rect) : Prop where
  x : InI32 r.x
  y : InI32 r.y
  w : InI32 r.w
  h : InI32 r.h

/-- The rectangle of a surface: its size is not negative. -/
structure Sized (r : Rect) : Prop extends Wide r where
  w_nonneg : 0 ≤ r.w
  h_nonneg : 0 ≤ r.h

/-- The left and top edge of one rectangle are less than 2^31 behind the right and bottom edge of
the other. -/
def Near (a b : Rect) : Prop :=
  max a.x b.x ≤ min a.right b.right + 2 ^ 31 ∧ max a.y b.y ≤ min a.bottom b.bottom + 2 ^ 31

/-- The bounding box of two rectangles has a size in `i32`. -/
def Spans (a b : Rect) : Prop :=
  max a.right b.right < min a.x b.x + 2 ^ 31 ∧ max a.bottom b.bottom < min a.y b.y + 2 ^ 31

/-- Not empty, and no pixel is outside of a screen of the given size. -/
structure Inside (r : Rect) (w h : ℤ) : Prop where
  nonempty : r.isEmpty = false
  left : 0 ≤ r.x
  top : 0 ≤ r.y
  right : r.x + r.w ≤ w
  bottom : r.y + r.h ≤ h

/-- The rectangle that `intersect` computes when it does not overflow. -/
def overlap (a b : Rect) : Rect where
  x := max a.x b.x
  y := max a.y b.y
  w := min a.right b.right - max a.x b.x
  h := min a.bottom b.bottom - max a.y b.y

/-- The rectangle that `boundingUnion` computes for two rectangles that are not empty. -/
def hull (a b : Rect) : Rect where
  x := min a.x b.x
  y := min a.y b.y
  w := max a.right b.right - min a.x b.x
  h := max a.bottom b.bottom - min a.y b.y

variable {w h : ℤ} {a b r : Rect}

theorem saturatingAdd_sub_le {x : ℤ} (hx : InI32 x) (hw : InI32 w) :
    saturatingAdd x w - x < 2 ^ 31 := by
  unfold saturatingAdd InI32 at *
  omega

theorem saturatingAdd_mem (x w : ℤ) : InI32 (saturatingAdd x w) := by
  unfold saturatingAdd InI32
  omega

theorem le_saturatingAdd {x : ℤ} (hx : InI32 x) (hw : 0 ≤ w) : x ≤ saturatingAdd x w := by
  unfold saturatingAdd InI32 at *
  omega

theorem intersect_of_near (ha : a.Wide) (hn : Near a b) : a.intersect b = .ok (a.overlap b) := by
  have hw : InI32 (min a.right b.right - max a.x b.x) := by
    have := saturatingAdd_sub_le ha.x ha.w
    have hr : a.right = saturatingAdd a.x a.w := rfl
    have := hn.1
    unfold InI32
    omega
  have hh : InI32 (min a.bottom b.bottom - max a.y b.y) := by
    have := saturatingAdd_sub_le ha.y ha.h
    have hr : a.bottom = saturatingAdd a.y a.h := rfl
    have := hn.2
    unfold InI32
    omega
  simp only [intersect, checkedI32_of hw, checkedI32_of hh, ok_bind, pure_eq_ok, overlap]

theorem intersect_traps (hn : ¬ Near a b) : a.intersect b = .error .overflow := by
  by_cases hw : InI32 (min a.right b.right - max a.x b.x)
  · have hh : ¬ InI32 (min a.bottom b.bottom - max a.y b.y) := by
      unfold Near InI32 at *
      omega
    simp only [intersect, checkedI32_of hw, checkedI32_of_not hh, ok_bind, error_bind]
  · simp only [intersect, checkedI32_of_not hw, error_bind]

theorem boundingUnion_of_spans (ha : a.Wide) (hae : a.isEmpty = false) (hbe : b.isEmpty = false)
    (hs : Spans a b) : a.boundingUnion b = .ok (a.hull b) := by
  have hpos : 0 < a.w ∧ 0 < a.h := by simpa [isEmpty] using hae
  have hw : InI32 (max a.right b.right - min a.x b.x) := by
    have := le_saturatingAdd ha.x hpos.1.le
    have hr : a.right = saturatingAdd a.x a.w := rfl
    have := hs.1
    unfold InI32
    omega
  have hh : InI32 (max a.bottom b.bottom - min a.y b.y) := by
    have := le_saturatingAdd ha.y hpos.2.le
    have hr : a.bottom = saturatingAdd a.y a.h := rfl
    have := hs.2
    unfold InI32
    omega
  simp only [boundingUnion, hae, hbe, Bool.false_eq_true, if_false, checkedI32_of hw,
    checkedI32_of hh, ok_bind, pure_eq_ok, hull]

theorem boundingUnion_traps (hae : a.isEmpty = false) (hbe : b.isEmpty = false) (hs : ¬ Spans a b) :
    a.boundingUnion b = .error .overflow := by
  by_cases hw : InI32 (max a.right b.right - min a.x b.x)
  · have hh : ¬ InI32 (max a.bottom b.bottom - min a.y b.y) := by
      unfold Spans InI32 at *
      omega
    simp only [boundingUnion, hae, hbe, Bool.false_eq_true, if_false, checkedI32_of hw,
      checkedI32_of_not hh, ok_bind, error_bind]
  · simp only [boundingUnion, hae, hbe, Bool.false_eq_true, if_false, checkedI32_of_not hw,
      error_bind]

def onScreen (r : Rect) (w h : ℤ) : Rect := r.overlap { x := 0, y := 0, w, h }

/-- A rectangle whose right edge is not far before its left edge is clamped without overflow. -/
theorem clampedToSize_of (hr : r.Wide) (hx : r.x ≤ r.right + 2 ^ 31) (hy : r.y ≤ r.bottom + 2 ^ 31)
    (hw : 0 ≤ w) (hh : 0 ≤ h) : r.clampedToSize w h = .ok (r.onScreen w h) := by
  refine intersect_of_near hr ?_
  have h1 := saturatingAdd_mem r.x r.w
  have h2 := saturatingAdd_mem r.y r.h
  obtain ⟨hxr, hyr, -, -⟩ := hr
  simp only [Near, right, bottom, saturatingAdd, InI32] at *
  omega

theorem clampedToSize_of_sized (hr : r.Sized) (hw : 0 ≤ w) (hh : 0 ≤ h) :
    r.clampedToSize w h = .ok (r.onScreen w h) := by
  have h1 := le_saturatingAdd hr.x hr.w_nonneg
  have h2 := le_saturatingAdd hr.y hr.h_nonneg
  refine clampedToSize_of hr.toWide ?_ ?_ hw hh <;> simp only [right, bottom] <;> omega

theorem onScreen_inside (hw : InI32 w) (hh : InI32 h) (hne : (r.onScreen w h).isEmpty = false) :
    (r.onScreen w h).Inside w h := by
  refine ⟨hne, ?_, ?_, ?_, ?_⟩ <;>
    simp only [onScreen, overlap, right, bottom, saturatingAdd, InI32] at * <;> omega

theorem overlap_wide (ha : a.Wide) (hb : b.Wide) (hn : Near a b) : (a.overlap b).Wide := by
  have h1 := saturatingAdd_sub_le ha.x ha.w
  have h2 := saturatingAdd_sub_le ha.y ha.h
  obtain ⟨⟨_, _⟩, ⟨_, _⟩, -, -⟩ := ha
  obtain ⟨⟨_, _⟩, ⟨_, _⟩, -, -⟩ := hb
  obtain ⟨hn1, hn2⟩ := hn
  constructor <;> simp only [overlap, right, bottom, InI32] at * <;> omega

theorem hull_sized (ha : a.Sized) (hb : b.Sized) (hs : Spans a b) : (a.hull b).Sized := by
  have h1 := le_saturatingAdd ha.x ha.w_nonneg
  have h2 := le_saturatingAdd ha.y ha.h_nonneg
  obtain ⟨⟨⟨_, _⟩, ⟨_, _⟩, -, -⟩, -, -⟩ := ha
  obtain ⟨⟨⟨_, _⟩, ⟨_, _⟩, -, -⟩, -, -⟩ := hb
  obtain ⟨hs1, hs2⟩ := hs
  refine ⟨⟨?_, ?_, ?_, ?_⟩, ?_, ?_⟩ <;> simp only [hull, right, bottom, InI32] at * <;> omega

theorem intersect_clamped (ha : a.Wide) (hb : b.Wide) (hn : Near a b) (hw : 0 ≤ w) (hh : 0 ≤ h) :
    (a.overlap b).clampedToSize w h = .ok ((a.overlap b).onScreen w h) := by
  have h1 := saturatingAdd_mem a.x a.w
  have h2 := saturatingAdd_mem a.y a.h
  have h3 := saturatingAdd_mem b.x b.w
  have h4 := saturatingAdd_mem b.y b.h
  obtain ⟨hn1, hn2⟩ := hn
  refine clampedToSize_of (overlap_wide ha hb ⟨hn1, hn2⟩) ?_ ?_ hw hh
  · simp only [overlap, right, saturatingAdd] at *
    omega
  · simp only [overlap, bottom, saturatingAdd] at *
    omega

end Rect

end Innigkeit.Wm

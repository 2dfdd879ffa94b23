import Innigkeit.Core.RedBlackQuery

/-!
The iterator of the tree, which is read from both ends. Until the cursors meet they stand
at the ends of what is left. Where they meet the iterator is cleared, but the cursor that
took the last node then moves on to its neighbour: if the other end took that neighbour
before, it is handed out a second time.
-/

namespace Innigkeit.Core.RedBlackTree

open Zig RedBlack RedBlack.RBTree List

variable {Ptr Aug : Type} [DecidableEq Ptr]

structure Iterator (Ptr : Type) where
  head : Option Ptr := none
  tail : Option Ptr := none
  deriving DecidableEq, Repr

omit [DecidableEq Ptr] in
def iterator (s : RedBlackTree Ptr Aug) : Iterator Ptr := { head := s.first, tail := s.last }

namespace Iterator

omit [DecidableEq Ptr] in
def cursor (it : Iterator Ptr) : Side → Option Ptr
  | .left => it.head
  | .right => it.tail

omit [DecidableEq Ptr] in
def setCursor (it : Iterator Ptr) (side : Side) (p : Option Ptr) : Iterator Ptr :=
  match side with
  | .left => { it with head := p }
  | .right => { it with tail := p }

/-- `next` at the left end, `nextBack` at the right end. -/
def take (s : RedBlackTree Ptr Aug) (bound : ℕ) (it : Iterator Ptr) (side : Side) :
    Checked (Option Ptr × Iterator Ptr) := do
  match it.cursor side with
  | none => return (none, it)
  | some cur =>
    let it := if it.head = it.tail then {} else it
    return (some cur, it.setCursor side (← s.advance bound cur side.flip))

def next (s : RedBlackTree Ptr Aug) (bound : ℕ) (it : Iterator Ptr) :
    Checked (Option Ptr × Iterator Ptr) :=
  it.take s bound .left

def nextBack (s : RedBlackTree Ptr Aug) (bound : ℕ) (it : Iterator Ptr) :
    Checked (Option Ptr × Iterator Ptr) :=
  it.take s bound .right

/-- A call of `next` for each left side and of `nextBack` for each right side, with what
the calls return. -/
def run (s : RedBlackTree Ptr Aug) (bound : ℕ) :
    Iterator Ptr → List Side → Checked (List (Side × Option Ptr))
  | _, [] => .ok []
  | it, side :: sides => do
    let (found, it) ← match side with
      | .left => it.next s bound
      | .right => it.nextBack s bound
    return (side, found) :: (← it.run s bound sides)

end Iterator

section

omit [DecidableEq Ptr]

/-- The nodes that an end has handed out. -/
def yielded (side : Side) (trace : List (Side × Option Ptr)) : List Ptr :=
  trace.filterMap fun call => if call.1 = side then call.2 else none

/-- The calls of `next` have handed out the nodes from the first one on and those of
`nextBack` the nodes from the last one back, no node twice, and the calls return null only
when no node is left. -/
def Sweeps (l : List Ptr) (trace : List (Side × Option Ptr)) : Prop :=
  ∃ rest, l = yielded .left trace ++ rest ++ (yielded .right trace).reverse ∧
    ∀ side, (side, none) ∈ trace → rest = []

/-- The end that takes the last of `n` nodes is asked again, and the other end has taken
a node before, among the calls `past` or since. -/
def AskedAgain (past : List Side) (n : ℕ) (sides : List Side) : Prop :=
  ∃ a side b, sides = a ++ side :: b ∧ a.length + 1 = n ∧ side.flip ∈ past ++ a ∧ side ∈ b

theorem askedAgain_cons {past sides : List Side} {n : ℕ} (side : Side) (hn : 0 < n) :
    AskedAgain past (n + 1) (side :: sides) ↔ AskedAgain (past ++ [side]) n sides := by
  constructor
  · rintro ⟨a, side', b, hsides, hlength, hflip, hb⟩
    cases a with
    | nil =>
      rw [length_nil] at hlength
      omega
    | cons e a =>
      cases hsides
      exact ⟨a, side', b, rfl, by simpa using hlength, by simpa using hflip, hb⟩
  · rintro ⟨a, side', b, rfl, hlength, hflip, hb⟩
    exact ⟨side :: a, side', b, rfl, by simpa using hlength, by simpa using hflip, hb⟩

variable {side : Side} {p : Ptr} {l : List Ptr} {trace : List (Side × Option Ptr)}

theorem sweeps_null (h : Sweeps [] trace) : Sweeps [] ((side, (none : Option Ptr)) :: trace) := by
  obtain ⟨rest, hrest, -⟩ := h
  have hnil : rest = [] := by simp_all
  exact ⟨rest, by simpa [yielded] using hrest, fun _ _ => hnil⟩

theorem sweeps_left (h : Sweeps l trace) : Sweeps (p :: l) ((.left, some p) :: trace) := by
  obtain ⟨rest, rfl, hnull⟩ := h
  exact ⟨rest, by simp [yielded], fun side hside => hnull side (by simpa using hside)⟩

theorem sweeps_right (h : Sweeps l trace) : Sweeps (l ++ [p]) ((.right, some p) :: trace) := by
  obtain ⟨rest, rfl, hnull⟩ := h
  exact ⟨rest, by simp [yielded], fun side hside => hnull side (by simpa using hside)⟩

theorem sweeps_map_none (sides : List Side) :
    Sweeps [] (sides.map fun side => (side, (none : Option Ptr))) := by
  induction sides with
  | nil => exact ⟨[], rfl, fun _ _ => rfl⟩
  | cons side sides ih => exact sweeps_null ih

/-- The number of nodes handed out. -/
def count (trace : List (Side × Option Ptr)) : ℕ := (trace.filterMap Prod.snd).length

theorem length_yielded (trace : List (Side × Option Ptr)) :
    (yielded .left trace).length + (yielded .right trace).length = count trace := by
  induction trace with
  | nil => rfl
  | cons call trace ih =>
    obtain ⟨side, found⟩ := call
    cases side <;> cases found <;> simp_all [yielded, count] <;> omega

theorem Sweeps.count_le (h : Sweeps l trace) : count trace ≤ l.length := by
  obtain ⟨rest, rfl, -⟩ := h
  rw [← length_yielded]
  simp only [length_append, length_reverse]
  omega

end

namespace Iterator

section

variable {s : RedBlackTree Ptr Aug} {order f rest g : List Ptr} {x : Ptr} {past sides : List Side}
  {it : Iterator Ptr} {bound : ℕ}

omit [DecidableEq Ptr] in
/-- The cursors at the ends of what is left. -/
def ends (rest : List Ptr) : Iterator Ptr := { head := rest.head?, tail := rest.getLast? }

omit [DecidableEq Ptr] in
/-- The ends that have been asked are those where nodes are missing. -/
def Asked (past : List Side) (f g : List Ptr) : Prop :=
  (.left ∈ past ↔ f ≠ []) ∧ (.right ∈ past ↔ g ≠ [])

theorem run_of_take {it it' : Iterator Ptr} {side : Side} {found : Option Ptr}
    (h : it.take s bound side = .ok (found, it')) (sides : List Side) :
    it.run s bound (side :: sides) = do return (side, found) :: (← it'.run s bound sides) := by
  cases side with
  | left =>
    rw [run, next, h]
    rfl
  | right =>
    rw [run, nextBack, h]
    rfl

theorem take_none {side : Side} (h : it.cursor side = none) :
    it.take s bound side = .ok (none, it) := by
  rw [take, h]
  rfl

theorem run_idle (h : ∀ side ∈ sides, it.cursor side = none) :
    it.run s bound sides = .ok (sides.map fun side => (side, none)) := by
  induction sides with
  | nil => rfl
  | cons side sides ih =>
    rw [run_of_take (take_none (h side mem_cons_self)),
      ih fun e he => h e (mem_cons_of_mem _ he)]
    rfl

/-- The end with the only cursor hands out a node as soon as it is asked. -/
theorem count_run_pos (side : Side) {p : Ptr}
    {trace : List (Side × Option Ptr)} (hp : it.cursor side = some p)
    (hflip : it.cursor side.flip = none) (hside : side ∈ sides)
    (hrun : it.run s bound sides = .ok trace) : 0 < count trace := by
  induction sides generalizing trace with
  | nil => cases hside
  | cons e sides ih =>
    obtain rfl | rfl := side.eq_or_eq_flip e
    · cases htake : it.take s bound e with
      | error trap => cases e <;> simp [run, next, nextBack, htake] at hrun
      | ok result =>
        obtain ⟨found, it'⟩ := result
        rw [run_of_take htake, bind_eq_ok] at hrun
        obtain ⟨trace', -, heq⟩ := hrun
        cases heq
        simp only [take, hp, bind_eq_ok, pure_eq_ok, Except.ok.injEq, Prod.mk.injEq] at htake
        obtain ⟨-, -, rfl, -⟩ := htake
        simp [count]
    · rw [run_of_take (take_none hflip), bind_eq_ok] at hrun
      obtain ⟨trace', hrun, heq⟩ := hrun
      cases heq
      have hmem := (mem_cons.mp hside).resolve_left side.flip_ne.symm
      simpa [count] using ih hmem hrun

variable (hnodup : order.Nodup)
variable (hadvance : ∀ l p r, order = l ++ p :: r →
  s.successor bound p = .ok r.head? ∧ s.predecessor bound p = .ok l.getLast?)

include hadvance

/-- Where the cursors meet, the one that takes the node goes on to its neighbour. -/
theorem take_meet (horder : order = f ++ [x] ++ g) (side : Side) :
    (ends [x]).take s bound side = .ok (some x, setCursor {} side (match side with
      | .left => g.head?
      | .right => f.getLast?)) := by
  obtain ⟨hsucc, hpred⟩ := hadvance f x g (by simpa using horder)
  cases side with
  | left =>
    change s.advance bound x .right = _ at hsucc
    simp [take, ends, cursor, Side.flip, hsucc]
  | right =>
    change s.advance bound x .left = _ at hpred
    simp [take, ends, cursor, Side.flip, hpred]

include hnodup

theorem take_left (hrest : rest ≠ []) (horder : order = f ++ (x :: rest) ++ g) :
    (ends (x :: rest)).take s bound .left = .ok (some x, ends rest) := by
  have hsucc : s.advance bound x .right = .ok (rest ++ g).head? :=
    (hadvance f x (rest ++ g) (by simpa using horder)).1
  have hne : some x ≠ rest.getLast? := by
    intro heq
    have hx : x ∈ rest := mem_of_getLast? heq.symm
    simp_all [nodup_append]
  rw [head?_append_of_ne_nil _ hrest] at hsucc
  have hlast : (x :: rest).getLast? = rest.getLast? := by
    cases rest with
    | nil => exact absurd rfl hrest
    | cons y ys => exact getLast?_cons_cons
  simp [take, ends, cursor, Side.flip, hsucc, hlast, hne, setCursor]

theorem take_right (hrest : rest ≠ []) (horder : order = f ++ (rest ++ [x]) ++ g) :
    (ends (rest ++ [x])).take s bound .right = .ok (some x, ends rest) := by
  have hpred : s.advance bound x .left = .ok (f ++ rest).getLast? :=
    (hadvance (f ++ rest) x g (by simpa using horder)).2
  have hne : rest.head? ≠ some x := by
    intro heq
    have hx : x ∈ rest := mem_of_mem_head? heq
    simp only [horder, nodup_append, mem_append] at hnodup
    exact hnodup.1.2.1.2.2 x hx x mem_cons_self rfl
  rw [getLast?_append_of_ne_nil _ hrest] at hpred
  simp [take, ends, cursor, Side.flip, hpred, head?_append_of_ne_nil _ hrest, hne, setCursor]

theorem take_step (hrest : 2 ≤ rest.length) (horder : order = f ++ rest ++ g)
    (hasked : Asked past f g) (side : Side) :
    ∃ x rest' f' g', (ends rest).take s bound side = .ok (some x, ends rest') ∧
      order = f' ++ rest' ++ g' ∧ rest.length = rest'.length + 1 ∧
      Asked (past ++ [side]) f' g' ∧
      ∀ trace, Sweeps rest' trace → Sweeps rest ((side, some x) :: trace) := by
  cases side with
  | left =>
    obtain _ | ⟨x, rest'⟩ := rest
    · cases hrest
    · have hne : rest' ≠ [] := by
        rintro rfl
        simp at hrest
      refine ⟨x, rest', f ++ [x], g, take_left hnodup hadvance hne horder, by simp [horder], rfl, ?_,
        fun trace => sweeps_left⟩
      simpa [Asked] using hasked.2
  | right =>
    obtain rfl | ⟨rest', x, rfl⟩ := rest.eq_nil_or_concat
    · cases hrest
    · rw [concat_eq_append] at *
      have hne : rest' ≠ [] := by
        rintro rfl
        simp at hrest
      refine ⟨x, rest', f, x :: g, take_right hnodup hadvance hne horder, by simp [horder], by simp, ?_,
        fun trace => sweeps_right⟩
      simpa [Asked] using hasked.1

/-- While no end is asked again past the meeting point, the run hands out what is left. -/
theorem run_sweeps (horder : order = f ++ rest ++ g) (hasked : Asked past f g)
    (h : ¬ AskedAgain past rest.length sides) :
    ∃ trace, (ends rest).run s bound sides = .ok trace ∧ Sweeps rest trace := by
  induction sides generalizing f rest g past with
  | nil => exact ⟨[], rfl, rest, by simp [yielded], by simp⟩
  | cons side sides ih =>
    obtain _ | ⟨x, _ | ⟨y, ys⟩⟩ := rest
    · have hidle : ∀ e ∈ side :: sides, (ends ([] : List Ptr)).cursor e = none := by
        intro e _
        cases e <;> rfl
      exact ⟨_, run_idle hidle, sweeps_map_none _⟩
    · rw [run_of_take (take_meet hadvance horder side), run_idle]
      · refine ⟨_, rfl, ?_⟩
        cases side with
        | left => exact sweeps_left (sweeps_map_none sides)
        | right => exact sweeps_right (l := []) (sweeps_map_none sides)
      · -- the cursor that moved on is at a node only if the other end was asked before
        intro e he
        have hpast : side = e → side.flip ∉ past := fun hside hflip =>
          h ⟨[], side, sides, rfl, rfl, by simpa using hflip, hside ▸ he⟩
        cases side <;> cases e <;> simp_all [cursor, setCursor, Asked, Side.flip]
    · obtain ⟨z, rest', f', g', htake, horder', hlength, hasked', hsweeps⟩ :=
        take_step hnodup hadvance (by simp) horder hasked side
      rw [hlength, askedAgain_cons side (by simp at hlength; omega)] at h
      obtain ⟨trace, hrun, htrace⟩ := ih horder' hasked' h
      rw [run_of_take htake, hrun]
      exact ⟨_, rfl, hsweeps trace htrace⟩

/-- An end that is asked again past the meeting point hands out a node too many. -/
theorem count_of_askedAgain {trace : List (Side × Option Ptr)} (horder : order = f ++ rest ++ g)
    (hasked : Asked past f g) (h : AskedAgain past rest.length sides)
    (hrun : (ends rest).run s bound sides = .ok trace) : rest.length < count trace := by
  induction sides generalizing f rest g past trace with
  | nil =>
    obtain ⟨a, side, b, hsides, -⟩ := h
    simp at hsides
  | cons side sides ih =>
    obtain _ | ⟨x, _ | ⟨y, ys⟩⟩ := rest
    · obtain ⟨a, -, -, -, hlength, -⟩ := h
      cases hlength
    · obtain ⟨a, side', b, hsides, hlength, hflip, hb⟩ := h
      obtain rfl : a = [] := by simpa using hlength
      cases hsides
      rw [run_of_take (take_meet hadvance horder side), bind_eq_ok] at hrun
      obtain ⟨trace', hrun, heq⟩ := hrun
      cases heq
      have hpos : 0 < count trace' := by
        cases side with
        | left =>
          have hg : g ≠ [] := hasked.2.mp (by simpa [Side.flip] using hflip)
          exact count_run_pos .left (by exact head?_eq_some_head hg) rfl hb hrun
        | right =>
          have hf : f ≠ [] := hasked.1.mp (by simpa [Side.flip] using hflip)
          exact count_run_pos .right (by exact getLast?_eq_some_getLast hf) rfl hb hrun
      simpa [count] using hpos
    · obtain ⟨z, rest', f', g', htake, horder', hlength, hasked', -⟩ :=
        take_step hnodup hadvance (by simp) horder hasked side
      rw [hlength, askedAgain_cons side (by simp at hlength; omega)] at h
      rw [run_of_take htake, bind_eq_ok] at hrun
      obtain ⟨trace', hrun, heq⟩ := hrun
      cases heq
      have hcount := ih horder' hasked' h hrun
      rw [hlength]
      simp only [count, filterMap_cons, length_cons] at hcount ⊢
      omega

end

end Iterator

section

variable {s : RedBlackTree Ptr Aug} {t : RBTree Ptr} {bound : ℕ}

/-- For every tree and every sequence of calls, the calls hand out each node once, from the
ends, unless the end that took the last node is asked again after the other end took one. -/
theorem iterator_sweeps_iff (h : s.Holds [] t) (hfirst : s.first = t.toList.head?)
    (hlast : s.last = t.toList.getLast?) (hbound : t.toList.length ≤ bound) (sides : List Side) :
    (∃ trace, s.iterator.run s bound sides = .ok trace ∧ Sweeps t.toList trace) ↔
      ¬ AskedAgain [] t.toList.length sides := by
  have hends : s.iterator = Iterator.ends t.toList := by
    rw [iterator, hfirst, hlast]
    rfl
  have hnodup : t.toList.Nodup := by simpa [values] using h.nodup
  have hadvance := fun l p r => neighbours_eq (l := l) (p := p) (r := r) h hbound
  have horder : t.toList = [] ++ t.toList ++ [] := by simp
  have hasked : Iterator.Asked [] ([] : List Ptr) [] := by simp [Iterator.Asked]
  rw [hends]
  constructor
  · rintro ⟨trace, hrun, hsweeps⟩ hagain
    have hcount := Iterator.count_of_askedAgain hnodup hadvance horder hasked hagain hrun
    have hle := hsweeps.count_le
    omega
  · exact Iterator.run_sweeps hnodup hadvance horder hasked

theorem iterator_sweeps_pair :
    (∃ trace, pair.iterator.run pair 2 [.left, .right, .left] = .ok trace ∧ Sweeps [1, 2] trace) ↔
      ¬ AskedAgain [] 2 [.left, .right, .left] :=
  iterator_sweeps_iff pair_holds rfl rfl (by decide) _

/-- Of two nodes the second one is taken from the back, and then the first one again. -/
theorem iterator_yields_twice :
    pair.iterator.run pair 2 [.left, .right, .right] =
        .ok [(.left, some 1), (.right, some 2), (.right, some 1)] ∧
      ¬ ∃ trace, pair.iterator.run pair 2 [.left, .right, .right] = .ok trace ∧
        Sweeps [1, 2] trace := by
  have hrun : pair.iterator.run pair 2 [.left, .right, .right] =
      .ok [(.left, some 1), (.right, some 2), (.right, some 1)] := by decide
  refine ⟨hrun, ?_⟩
  rintro ⟨trace, htrace, hsweeps⟩
  rw [hrun] at htrace
  cases htrace
  exact absurd hsweeps.count_le (by decide)

end

end Innigkeit.Core.RedBlackTree

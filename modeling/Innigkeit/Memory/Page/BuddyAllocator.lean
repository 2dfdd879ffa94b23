import Innigkeit.Library.Transition
import Innigkeit.Zig.Checked
import Mathlib.Data.Nat.Bitwise

/-!
The buddy allocator of physical pages. A free block is recorded at its first
page only, which is also its link in the free list of its order. The results
are about states in which every page is linked at most once, so the doubly
linked lists are lists here; what the pages contain is left out.
-/

namespace Innigkeit.Memory.Page

open Zig List Function

structure PhysicalPage where
  freeOrder : ℕ := 0
  isFree : Bool := false
  deriving DecidableEq, Repr

structure BuddyAllocator where
  pages : ℕ → PhysicalPage := fun _ => {}
  pageCount : ℕ
  freeLists : ℕ → List ℕ := fun _ => []
  nrFree : ℕ → ℕ := fun _ => 0

namespace BuddyAllocator

def maxOrder : ℕ := 10

def fromIndex (self : BuddyAllocator) (index : ℕ) : Checked PhysicalPage :=
  if index < self.pageCount then .ok (self.pages index) else .error .bounds

/-- The block at `index` goes to the front of the free list of its order. -/
def addBlock (self : BuddyAllocator) (index order : ℕ) : Checked BuddyAllocator := do
  let _ ← self.fromIndex index
  if maxOrder < order then throw .bounds
  let count ← add 32 (self.nrFree order) 1
  return { self with
    pages := update self.pages index ⟨order, true⟩
    freeLists := update self.freeLists order (index :: self.freeLists order)
    nrFree := update self.nrFree order count }

/-- The block at `index` leaves the free list of its order. -/
def remove (self : BuddyAllocator) (index order : ℕ) : Checked BuddyAllocator := do
  let count ← sub (self.nrFree order) 1
  return { self with
    pages := update self.pages index { self.pages index with isFree := false }
    freeLists := update self.freeLists order ((self.freeLists order).erase index)
    nrFree := update self.nrFree order count }

/-- The loop of `allocLocked`: the block is halved `halvings` times and the upper halves are free. -/
def allocLocked.split (self : BuddyAllocator) (block order : ℕ) : ℕ → Checked BuddyAllocator
  | 0 => .ok self
  | halvings + 1 => do
    let curOrder := order + halvings
    let self ← self.addBlock (block + 1 <<< curOrder) curOrder
    split self block order halvings

/-- The block, or `none` when the pages are exhausted. -/
def allocLocked (self : BuddyAllocator) (order : ℕ) : Checked (Option ℕ × BuddyAllocator) :=
  match (List.range' order (maxOrder + 1 - order)).find? (self.freeLists · ≠ []) with
  | none => .ok (none, self)
  | some avail => do
    let block ← unwrap (self.freeLists avail).head?
    let self ← self.remove block avail
    let self ← allocLocked.split self block order (avail - order)
    return (some block, self)

/-- The loop of `freeLocked`: `rounds` orders are left up to the largest. -/
def freeLocked.coalesce (self : BuddyAllocator) (curIdx curOrder : ℕ) :
    ℕ → Checked (BuddyAllocator × ℕ × ℕ)
  | 0 => .ok (self, curIdx, curOrder)
  | rounds + 1 => do
    let buddy := curIdx ^^^ (1 <<< curOrder)
    let buddyPage ← self.fromIndex buddy
    if !buddyPage.isFree || buddyPage.freeOrder ≠ curOrder then
      return (self, curIdx, curOrder)
    let self ← self.remove buddy curOrder
    coalesce self (min curIdx buddy) (curOrder + 1) rounds

/-- `none` is the panic about a double free. -/
def freeLocked (self : BuddyAllocator) (index order : ℕ) : Checked (Option BuddyAllocator) := do
  if (← self.fromIndex index).isFree then return none
  let (self, curIdx, curOrder) ← freeLocked.coalesce self index order (maxOrder - order)
  return some (← self.addBlock curIdx curOrder)

/-- The block of `2 ^ order` pages at `index` has the page. -/
def Covers (index order page : ℕ) : Prop := index ≤ page ∧ page < index + 2 ^ order
  deriving Decidable

section

variable {index order page : ℕ}

/-- A block and its buddy are the halves of a block of the next order. -/
theorem covers_buddy (h : 2 ^ order ∣ index) :
    2 ^ (order + 1) ∣ min index (index ^^^ 1 <<< order) ∧
      ∀ page, Covers (min index (index ^^^ 1 <<< order)) (order + 1) page ↔
        Covers index order page ∨ Covers (index ^^^ 1 <<< order) order page := by
  obtain ⟨k, rfl⟩ := h
  have hbuddy : (2 ^ order * k) ^^^ 1 <<< order = 2 ^ order * (k ^^^ 1) := by
    rw [mul_comm, ← Nat.shiftLeft_eq, ← Nat.shiftLeft_xor_distrib, Nat.shiftLeft_eq, mul_comm]
  have hhalf : k ^^^ 1 = k + 1 ∧ k = 2 * (k / 2) ∨ k ^^^ 1 = k - 1 ∧ k = 2 * (k / 2) + 1 := by
    rcases Nat.even_or_odd k with hk | hk
    · exact .inl ⟨Nat.xor_one_of_even hk, (Nat.two_mul_div_two_of_even hk).symm⟩
    · exact .inr ⟨Nat.xor_one_of_odd hk, (Nat.two_mul_div_two_add_one_of_odd hk).symm⟩
  rw [hbuddy]
  simp only [Covers, pow_succ]
  generalize k / 2 = m at hhalf
  rcases hhalf with ⟨hxor, rfl⟩ | ⟨hxor, rfl⟩
  all_goals rw [hxor]
  · rw [Nat.mul_add, Nat.mul_one, min_eq_left (Nat.le_add_right _ _)]
    refine ⟨Nat.mul_dvd_mul_left _ (Nat.dvd_mul_right 2 m), fun page => ?_⟩
    omega
  · rw [Nat.add_sub_cancel, Nat.mul_add, Nat.mul_one, min_eq_right (Nat.le_add_right _ _)]
    refine ⟨Nat.mul_dvd_mul_left _ (Nat.dvd_mul_right 2 m), fun page => ?_⟩
    omega

theorem covers_halves : Covers index (order + 1) page ↔
    Covers index order page ∨ Covers (index + 1 <<< order) order page := by
  rw [Nat.one_shiftLeft]
  simp only [Covers, pow_succ]
  omega

end

def PageFree (s : BuddyAllocator) (page : ℕ) : Prop :=
  ∃ index order, s.pages index = ⟨order, true⟩ ∧ Covers index order page

/-- No page of the block belongs to a free block. -/
def Clear (s : BuddyAllocator) (index order : ℕ) : Prop :=
  ∀ page, Covers index order page → ¬ s.PageFree page

/-- The free blocks are aligned, each of them is linked once, and no page is in two of them. -/
structure Good (s : BuddyAllocator) : Prop where
  linked : ∀ order index,
    (s.freeLists order).count index = if s.pages index = ⟨order, true⟩ then 1 else 0
  inside : ∀ order index, s.pages index = ⟨order, true⟩ → index < s.pageCount ∧ 2 ^ order ∣ index
  apart : ∀ order index order' index' page, s.pages index = ⟨order, true⟩ →
    s.pages index' = ⟨order', true⟩ → Covers index order page → Covers index' order' page →
    index = index'

variable {s s' : BuddyAllocator} {index order : ℕ}

theorem fromIndex_eq_ok {page : PhysicalPage} :
    s.fromIndex index = .ok page ↔ index < s.pageCount ∧ page = s.pages index := by
  unfold fromIndex
  split <;> simp_all [eq_comm]

theorem covers_self : Covers index order index := ⟨le_rfl, by simp⟩

section

variable (hg : s.Good)
include hg

theorem Good.addBlock (ha : 2 ^ order ∣ index) (hclear : s.Clear index order)
    (h : s.addBlock index order = .ok s') :
    s'.Good ∧ ∀ page, s'.PageFree page ↔ s.PageFree page ∨ Covers index order page := by
  simp only [BuddyAllocator.addBlock, fromIndex_eq_ok, bind_eq_ok] at h
  obtain ⟨_, ⟨hlt, -⟩, h⟩ := h
  split at h
  · cases h
  · simp only [bind_eq_ok] at h
    obtain ⟨count, -, h⟩ := h
    cases h
    have hnot (o : ℕ) : s.pages index ≠ ⟨o, true⟩ := fun heq =>
      hclear index covers_self ⟨index, o, heq, covers_self⟩
    refine ⟨⟨fun o i => ?_, ?_, ?_⟩, ?_⟩
    · have hcount := hg.linked o i
      simp only [update_apply]
      grind
    · have hinside := hg.inside
      simp only [update_apply]
      grind
    · have hapart := hg.apart
      simp only [Clear, PageFree] at hclear
      simp only [update_apply]
      grind
    · simp only [PageFree, update_apply]
      grind

theorem Good.remove (hi : s.pages index = ⟨order, true⟩) (h : s.remove index order = .ok s') :
    s'.Good ∧ ∀ page, s'.PageFree page ↔ s.PageFree page ∧ ¬ Covers index order page := by
  rw [BuddyAllocator.remove, bind_eq_ok] at h
  obtain ⟨count, -, h⟩ := h
  cases h
  have hapart := hg.apart
  refine ⟨⟨fun o i => ?_, ?_, ?_⟩, ?_⟩
  · have hcount := hg.linked o i
    simp only [update_apply]
    grind
  · have hinside := hg.inside
    simp only [update_apply]
    grind
  · simp only [update_apply]
    grind
  · simp only [PageFree, update_apply]
    grind

theorem Good.split {halvings : ℕ} (ha : 2 ^ (order + halvings) ∣ index)
    (hclear : s.Clear index (order + halvings))
    (h : allocLocked.split s index order halvings = .ok s') :
    s'.Good ∧ ∀ page, s'.PageFree page ↔
      s.PageFree page ∨ Covers index (order + halvings) page ∧ ¬ Covers index order page := by
  induction halvings generalizing s with
  | zero =>
    cases h
    exact ⟨hg, fun page => by simp⟩
  | succ n ih =>
    rw [allocLocked.split, bind_eq_ok] at h
    obtain ⟨t, hadd, h⟩ := h
    rw [← add_assoc] at ha hclear
    have hlow : 2 ^ (order + n) ∣ index := (pow_dvd_pow 2 (Nat.le_succ _)).trans ha
    have hhalf : 2 ^ (order + n) ∣ index + 1 <<< (order + n) := by
      rw [Nat.one_shiftLeft]
      exact Nat.dvd_add hlow dvd_rfl
    have hup : s.Clear (index + 1 <<< (order + n)) (order + n) := fun page hpage =>
      hclear page (covers_halves.mpr (.inr hpage))
    obtain ⟨hgood, hfree⟩ := hg.addBlock hhalf hup hadd
    obtain ⟨hgood', hfree'⟩ := ih hgood hlow (fun page hpage hpf => by
      rcases (hfree page).mp hpf with hold | hnew
      · exact hclear page (covers_halves.mpr (.inl hpage)) hold
      · rw [Nat.one_shiftLeft] at hnew
        exact absurd hpage.2 (not_lt.mpr hnew.1)) h
    refine ⟨hgood', fun page => ?_⟩
    have hout (hpage : Covers (index + 1 <<< (order + n)) (order + n) page) :
        ¬ Covers index order page := by
      have hle : 2 ^ order ≤ 2 ^ (order + n) := Nat.pow_le_pow_right two_pos (Nat.le_add_right _ _)
      simp only [Covers, Nat.one_shiftLeft] at hpage ⊢
      omega
    rw [hfree', hfree, ← add_assoc, covers_halves]
    tauto

theorem Good.allocLocked {block : Option ℕ}
    (h : s.allocLocked order = .ok (block, s')) :
    s'.Good ∧ (∀ page, s'.PageFree page ↔
        s.PageFree page ∧ ∀ first ∈ block, ¬ Covers first order page) ∧
      ∀ first ∈ block, 2 ^ order ∣ first ∧ ∀ page, Covers first order page → s.PageFree page := by
  unfold BuddyAllocator.allocLocked at h
  split at h
  · cases h
    simp [hg]
  · rename_i avail hfind
    have hle := mem_range'_1.mp (mem_of_find?_eq_some hfind)
    simp only [bind_eq_ok] at h
    obtain ⟨first, hfirst, t, hrem, u, hsplit, h⟩ := h
    cases h
    have hhead : s.pages first = ⟨avail, true⟩ := by
      have hcount := hg.linked avail first
      have hpos := count_pos_iff.mpr (mem_of_mem_head? (unwrap_eq_ok.mp hfirst))
      grind
    obtain ⟨hgood, hfree⟩ := hg.remove hhead hrem
    obtain ⟨n, rfl⟩ := Nat.exists_eq_add_of_le hle.1
    rw [Nat.add_sub_cancel_left] at hsplit
    have hclear : t.Clear first (order + n) := fun page hc hpf => ((hfree page).mp hpf).2 hc
    have ha := (hg.inside _ first hhead).2
    obtain ⟨hgood', hfree'⟩ := hgood.split ha hclear hsplit
    have hsub {page : ℕ} (hpage : Covers first order page) : Covers first (order + n) page :=
      ⟨hpage.1, hpage.2.trans_le (Nat.add_le_add_left (Nat.pow_le_pow_right two_pos hle.1) _)⟩
    have hwas {page : ℕ} (hpage : Covers first (order + n) page) : s.PageFree page :=
      ⟨first, _, hhead, hpage⟩
    refine ⟨hgood', fun page => ?_, ?_⟩
    · simp only [hfree', hfree, Option.mem_some_iff, forall_eq']
      tauto
    · rintro _ ⟨⟩
      exact ⟨(pow_dvd_pow 2 hle.1).trans ha, fun page hpage => hwas (hsub hpage)⟩

theorem Good.coalesce {rounds : ℕ} {index' order' : ℕ} (ha : 2 ^ order ∣ index)
    (hclear : s.Clear index order)
    (h : freeLocked.coalesce s index order rounds = .ok (s', index', order')) :
    s'.Good ∧ 2 ^ order' ∣ index' ∧ s'.Clear index' order' ∧ ∀ page,
      s'.PageFree page ∨ Covers index' order' page ↔ s.PageFree page ∨ Covers index order page := by
  induction rounds generalizing s index order with
  | zero =>
    cases h
    exact ⟨hg, ha, hclear, fun _ => Iff.rfl⟩
  | succ n ih =>
    simp only [freeLocked.coalesce, bind_eq_ok] at h
    obtain ⟨page, hpage, h⟩ := h
    split at h
    · cases h
      exact ⟨hg, ha, hclear, fun _ => Iff.rfl⟩
    · rename_i hbuddy
      simp only [bind_eq_ok] at h
      obtain ⟨t, hrem, h⟩ := h
      obtain ⟨hmerged, hcovers⟩ := covers_buddy ha
      have hhead : s.pages (index ^^^ 1 <<< order) = ⟨order, true⟩ := by
        obtain ⟨-, rfl⟩ := fromIndex_eq_ok.mp hpage
        cases hp : s.pages (index ^^^ 1 <<< order) with
        | mk freeOrder isFree => simp_all
      obtain ⟨hgood, hfree⟩ := hg.remove hhead hrem
      obtain ⟨hgood', ha', hclear', hfree'⟩ := ih hgood hmerged (fun page hpage hpf => by
        obtain ⟨hold, hnot⟩ := (hfree page).mp hpf
        rcases (hcovers page).mp hpage with hc | hb
        · exact hclear page hc hold
        · exact hnot hb) h
      refine ⟨hgood', ha', hclear', fun page => ?_⟩
      have hwas (hpage : Covers (index ^^^ 1 <<< order) order page) : s.PageFree page :=
        ⟨_, _, hhead, hpage⟩
      rw [hfree', hfree, hcovers]
      tauto

theorem Good.freeLocked (ha : 2 ^ order ∣ index) (hclear : s.Clear index order)
    (h : s.freeLocked index order = .ok (some s')) :
    s'.Good ∧ ∀ page, s'.PageFree page ↔ s.PageFree page ∨ Covers index order page := by
  simp only [BuddyAllocator.freeLocked, bind_eq_ok] at h
  obtain ⟨page, -, h⟩ := h
  split at h
  · cases h
  · simp only [bind_eq_ok] at h
    obtain ⟨⟨t, index', order'⟩, hmerge, u, hadd, h⟩ := h
    cases h
    obtain ⟨hgood, ha', hclear', hfree⟩ := hg.coalesce ha hclear hmerge
    obtain ⟨hgood', hfree'⟩ := hgood.addBlock ha' hclear' hadd
    exact ⟨hgood', fun page => (hfree' page).trans (hfree page)⟩

end

inductive Call where
  | addBlock (index order : ℕ)
  | alloc (order : ℕ)
  | free (index order : ℕ)

def next (s : BuddyAllocator) : Call → Option BuddyAllocator
  | .addBlock index order => (s.addBlock index order).toOption
  | .alloc order => (s.allocLocked order).toOption.map Prod.snd
  | .free index order => (s.freeLocked index order).toOption.join

/-- The blocks given to the allocator are aligned. A block that is added, as one that is freed, has
no free page, unless the free block that has it starts with it. -/
def Allowed (s : BuddyAllocator) : Call → Prop
  | .addBlock index order => 2 ^ order ∣ index ∧ s.Clear index order
  | .alloc _ => True
  | .free index order =>
    2 ^ order ∣ index ∧ ((s.pages index).isFree = true ∨ s.Clear index order)

def system : Transition.System BuddyAllocator Call :=
  .ofNext (fun s => ∃ pageCount, s = { pageCount }) next

theorem reachable_good (h : system.Reachable Allowed s) : s.Good := by
  refine h.invariant ?_ ?_
  · rintro _ ⟨pageCount, rfl⟩
    exact ⟨by simp, by simp, by simp⟩
  · intro s call s' hg hcall hstep
    cases call with
    | addBlock index order =>
      exact (hg.addBlock hcall.1 hcall.2 (toOption_eq_some.mp hstep)).1
    | alloc order =>
      obtain ⟨⟨block, t⟩, hok, rfl⟩ := Option.map_eq_some_iff.mp hstep
      exact (hg.allocLocked (toOption_eq_some.mp hok)).1
    | free index order =>
      have hok := toOption_eq_some.mp (Option.join_eq_some_iff.mp hstep)
      rcases hcall.2 with hfree | hclear
      · -- the head of a free block is not freed again
        simp only [BuddyAllocator.freeLocked, bind_eq_ok, fromIndex_eq_ok] at hok
        obtain ⟨_, ⟨-, rfl⟩, hok⟩ := hok
        rw [if_pos hfree] at hok
        cases hok
      · exact (hg.freeLocked hcall.1 hclear hok).1

/-- No page is in two free blocks as long as the freed blocks have no free page, or start with the
first page of a free block; among the double frees the allocator finds just the latter. -/
theorem freeLocked_detects_iff (h : system.Reachable Allowed s) (index order : ℕ) :
    s.Good ∧ (((∃ page, Covers index order page ∧ s.PageFree page) →
        s.freeLocked index order = .ok none) ↔
      (s.pages index).isFree = true ∨ s.Clear index order) := by
  have hg := reachable_good h
  refine ⟨hg, fun hfound => ?_, ?_⟩
  · by_cases hclear : s.Clear index order
    · exact .inr hclear
    · simp only [Clear, not_forall, not_not] at hclear
      obtain ⟨page, hc, hpf⟩ := hclear
      have hok := hfound ⟨page, hc, hpf⟩
      simp only [BuddyAllocator.freeLocked, bind_eq_ok, fromIndex_eq_ok] at hok
      obtain ⟨_, ⟨-, rfl⟩, hok⟩ := hok
      split at hok
      · exact .inl ‹_›
      · simp [bind_eq_ok] at hok
  · rintro (hfree | hclear) ⟨page, hc, hpf⟩
    · have hhead : s.pages index = ⟨(s.pages index).freeOrder, true⟩ := by rw [← hfree]
      have hin := fromIndex_eq_ok.mpr ⟨(hg.inside _ index hhead).1, rfl⟩
      rw [BuddyAllocator.freeLocked, hin, ok_bind, if_pos hfree]
      rfl
    · exact absurd hpf (hclear page hc)

theorem freeLocked_detects_head :
    let s : BuddyAllocator :=
      { pages := update (fun _ => {}) 0 ⟨1, true⟩, pageCount := 4
        freeLists := update (fun _ => []) 1 [0]
        nrFree := update (fun _ => 0) 1 1 }
    s.Good ∧ s.freeLocked 0 1 = .ok none := by
  intro s
  have hclear : Clear { pageCount := 4 } 0 1 := by
    rintro page - ⟨order, index, hmem, -⟩
    simp at hmem
  have hs : system.Reachable Allowed s :=
    .step (.init ⟨4, rfl⟩) (l := .addBlock 0 1) ⟨by simp, hclear⟩ rfl
  obtain ⟨hg, hiff⟩ := freeLocked_detects_iff hs 0 1
  exact ⟨hg, hiff.mpr (.inl rfl) ⟨0, by decide, 0, 1, rfl, by decide⟩⟩

/-- Two pages are allocated and freed, and merge into one block; the second is freed again. -/
theorem second_page_freed_twice :
    (Transition.System.runNext next { pageCount := 4 }
      [.addBlock 0 1, .alloc 0, .alloc 0, .free 0 0, .free 1 0, .free 1 0]).map
        (fun s => (s.freeLists 0, s.freeLists 1)) = some ([1], [0]) ∧
      Covers 1 0 1 ∧ Covers 0 1 1 := by
  decide

/-- The allocator with the blocks that it was given and those that it has handed out. -/
structure Ledger where
  allocator : BuddyAllocator
  given : List (ℕ × ℕ) := []
  held : List (ℕ × ℕ) := []

namespace Ledger

def having (page : ℕ) (blocks : List (ℕ × ℕ)) : ℕ := blocks.countP fun b => Covers b.1 b.2 page

def next (s : Ledger) : Call → Option Ledger
  | .addBlock index order => (s.allocator.addBlock index order).toOption.map fun allocator =>
      { s with allocator, given := (index, order) :: s.given }
  | .alloc order => (s.allocator.allocLocked order).toOption.map fun (block, allocator) =>
      { s with allocator, held := (block.map (·, order)).toList ++ s.held }
  | .free index order => (s.allocator.freeLocked index order).toOption.join.map fun allocator =>
      { s with allocator, held := s.held.erase (index, order) }

/-- A page is given once, and what is freed was handed out. -/
def Allowed (s : Ledger) : Call → Prop
  | .addBlock index order =>
    2 ^ order ∣ index ∧ ∀ page, Covers index order page → having page s.given = 0
  | .alloc _ => True
  | .free index order => (index, order) ∈ s.held

def system : Transition.System Ledger Call :=
  .ofNext (fun s => ∃ pageCount, s = { allocator := { pageCount } }) next

open Classical in
/-- A page that was given is free or in one block that was handed out. -/
structure Balanced (s : Ledger) : Prop where
  good : s.allocator.Good
  aligned : ∀ b ∈ s.held, 2 ^ b.2 ∣ b.1
  once : ∀ page, having page s.given ≤ 1
  pages : ∀ page, having page s.given =
    having page s.held + if s.allocator.PageFree page then 1 else 0

theorem having_cons (page : ℕ) (b : ℕ × ℕ) (blocks : List (ℕ × ℕ)) :
    having page (b :: blocks) = having page blocks + if Covers b.1 b.2 page then 1 else 0 := by
  simp [having, countP_cons]

theorem having_erase (page : ℕ) {b : ℕ × ℕ} {blocks : List (ℕ × ℕ)} (h : b ∈ blocks) :
    having page blocks = having page (blocks.erase b) + if Covers b.1 b.2 page then 1 else 0 := by
  rw [← having_cons]
  exact (perm_cons_erase h).countP_eq _

/-- No page is lost or handed out twice. -/
theorem pages_conserved {s : Ledger} (h : system.Reachable Allowed s) : s.Balanced := by
  refine h.invariant ?_ ?_
  · rintro _ ⟨pageCount, rfl⟩
    exact ⟨⟨by simp, by simp, by simp⟩, nofun, by simp [having], by simp [having, PageFree]⟩
  · rintro s call s' ⟨hg, ha, honce, hpages⟩ hcall hstep
    cases call with
    | addBlock index order =>
      obtain ⟨t, hok, rfl⟩ := Option.map_eq_some_iff.mp hstep
      obtain ⟨hdvd, hnew⟩ := hcall
      have hclear : s.allocator.Clear index order := fun page hpage => by grind
      obtain ⟨hg', hfree⟩ := hg.addBlock hdvd hclear (toOption_eq_some.mp hok)
      exact ⟨hg', ha, fun page => by grind [having_cons], fun page => by grind [having_cons]⟩
    | alloc order =>
      obtain ⟨⟨block, t⟩, hok, rfl⟩ := Option.map_eq_some_iff.mp hstep
      obtain ⟨hg', hfree, hblock⟩ := hg.allocLocked (toOption_eq_some.mp hok)
      cases block with
      | none => exact ⟨hg', ha, honce, fun page => by grind⟩
      | some first =>
        obtain ⟨hdvd, hwas⟩ := hblock first rfl
        refine ⟨hg', forall_mem_cons.mpr ⟨hdvd, ha⟩, honce, fun page => ?_⟩
        grind [having_cons]
    | free index order =>
      obtain ⟨t, hok, rfl⟩ := Option.map_eq_some_iff.mp hstep
      have herase (page : ℕ) := having_erase page hcall
      have hclear : s.allocator.Clear index order := fun page hpage => by grind
      obtain ⟨hg', hfree⟩ := hg.freeLocked (ha _ hcall) hclear
        (toOption_eq_some.mp (Option.join_eq_some_iff.mp hok))
      exact ⟨hg', fun b hb => ha b (mem_of_mem_erase hb), honce, fun page => by grind⟩

theorem pages_conserved_lent : ∃ s, system.Reachable Allowed s ∧ s.held = [(0, 0)] ∧ s.Balanced := by
  obtain ⟨s, hs, hheld⟩ : ∃ s, system.Reachable Allowed s ∧ s.held = [(0, 0)] :=
    ⟨_, .step (.step (.init ⟨2, rfl⟩) (l := .addBlock 0 1) ⟨by simp, by simp [having]⟩ rfl)
      (l := .alloc 0) trivial rfl, rfl⟩
  exact ⟨s, hs, hheld, pages_conserved hs⟩

end Ledger

end BuddyAllocator

end Innigkeit.Memory.Page

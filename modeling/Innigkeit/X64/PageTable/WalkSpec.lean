import Innigkeit.X64.PageTable.WalkSteps
import Mathlib.Data.List.Basic
import Mathlib.Tactic.Ring

/-!
What a walk does, level by level. The effect of visiting a page, an entry or a
table is a record of plain functions, built like the tables from the bottom up.
A visit serves an effect if it starts where the last one has ended and leaves the
tables, the list of freed pages and the flushed addresses as the effect says. It
traps only where the walk would leave the address space behind the last page.
-/

namespace Innigkeit.X64.PageTable

open Zig Memory List Function Entry Walk Nat

/-- The pages of a range, counted from the beginning of the tables. -/
structure PageSpan where
  base : ℕ
  first : ℕ
  last : ℕ
  base_eq : base = 0 ∨ base = 0xFFFF000000000000
  first_le : first ≤ last
  last_lt : last < 512 ^ 4
  lower_half : base = 0 → last < 2 ^ 35

namespace PageSpan

variable (span : PageSpan)

def address (page : ℕ) : ℕ := span.base + 4096 * page

/-- The `i`-th part of the `j`-th table has pages of the span, parts being of `size` pages. -/
def InSlots (size j i : ℕ) : Prop :=
  i < 512 ∧ span.first / size ≤ j * 512 + i ∧ j * 512 + i ≤ span.last / size
  deriving Decidable

def slotFirst (size j : ℕ) : ℕ := max (span.first / size) (j * 512) - j * 512

def slotLast (size j : ℕ) : ℕ := min (span.last / size) (j * 512 + 511) - j * 512

def slots (size j : ℕ) : List ℕ :=
  List.range' (span.slotFirst size j) (span.slotLast size j + 1 - span.slotFirst size j)

variable {span} {size j : ℕ}

theorem inSlots_iff (hhi : j ≤ span.last / (512 * size)) (i : ℕ) :
    span.InSlots size j i ↔ span.slotFirst size j ≤ i ∧ i ≤ span.slotLast size j := by
  rw [mul_comm, ← Nat.div_div_eq_div_mul] at hhi
  simp only [InSlots, slotFirst, slotLast]
  omega

theorem slotFirst_le (hlo : span.first / (512 * size) ≤ j) (hhi : j ≤ span.last / (512 * size)) :
    span.slotFirst size j ≤ span.slotLast size j := by
  have hle : span.first / size ≤ span.last / size := Nat.div_le_div_right span.first_le
  rw [mul_comm, ← Nat.div_div_eq_div_mul] at hlo hhi
  simp only [slotFirst, slotLast]
  omega

theorem slotLast_of_lt (hlt : j < span.last / (512 * size)) : span.slotLast size j = 511 := by
  rw [mul_comm, ← Nat.div_div_eq_div_mul] at hlt
  simp only [slotLast]
  omega

theorem last_iff (hhi : j ≤ span.last / (512 * size)) {i : ℕ} (hin : span.InSlots size j i) :
    j * 512 + i = span.last / size ↔
      i = span.slotLast size j ∧ j = span.last / (512 * size) := by
  obtain ⟨hi, -, hle⟩ := hin
  have hdiv : span.last / (512 * size) = span.last / size / 512 := by
    rw [Nat.div_div_eq_div_mul, mul_comm]
  rw [hdiv] at hhi ⊢
  simp only [slotLast]
  omega

theorem last_mod (hj : j = span.last / (512 * size)) :
    j * 512 + span.last / size % 512 = span.last / size := by
  rw [hj, mul_comm 512, ← Nat.div_div_eq_div_mul, Nat.div_add_mod']

theorem max_div (hsize : 0 < size) :
    max span.first (j * (512 * size)) / size = max (span.first / size) (j * 512) := by
  have hmul : j * (512 * size) / size = j * 512 := by
    rw [← mul_assoc, Nat.mul_div_cancel _ hsize]
  rcases le_total span.first (j * (512 * size)) with h | h
  · rw [Nat.max_eq_right h, hmul, Nat.max_eq_right]
    exact hmul ▸ Nat.div_le_div_right h
  · rw [Nat.max_eq_left h, Nat.max_eq_left]
    exact hmul ▸ Nat.div_le_div_right h

variable (span) in
private theorem base_multiple (hdvd : 512 * size ∣ 512 ^ 4) :
    ∃ n, span.base = 4096 * (size * (512 * n)) := by
  obtain ⟨k, hk⟩ := hdvd
  have hbase : ∃ m, span.base = m * (4096 * 512 ^ 4) := by
    cases span.base_eq with
    | inl h => exact ⟨0, by rw [h, zero_mul]⟩
    | inr h => exact ⟨65535, by omega⟩
  obtain ⟨m, hm⟩ := hbase
  refine ⟨m * k, ?_⟩
  rw [hm, hk]
  ring

theorem address_index (hsize : 0 < size) (hdvd : 512 * size ∣ 512 ^ 4) (page : ℕ) :
    span.address page / (4096 * size) % 512 = page / size % 512 := by
  obtain ⟨n, hn⟩ := base_multiple span hdvd
  have hsum : span.address page = 4096 * (page + size * (512 * n)) := by
    rw [address, hn]
    ring
  rw [hsum, Nat.mul_div_mul_left _ _ (by decide), Nat.add_mul_div_left _ _ hsize,
    Nat.add_mul_mod_self_left]

theorem address_alignBackward (hsize : 0 < size) (hdvd : 512 * size ∣ 512 ^ 4) (page : ℕ) :
    span.address page / (4096 * size) * (4096 * size) = span.address (page / size * size) := by
  obtain ⟨n, hn⟩ := base_multiple span hdvd
  have hsum : span.address page = 4096 * (page + size * (512 * n)) := by
    rw [address, hn]
    ring
  rw [hsum, Nat.mul_div_mul_left _ _ (by decide), Nat.add_mul_div_left _ _ hsize, address, hn]
  ring

theorem first_index (hsize : 0 < size) (hdvd : 512 * size ∣ 512 ^ 4)
    (hlo : span.first / (512 * size) ≤ j) :
    span.address (max span.first (j * (512 * size))) / (4096 * size) % 512 =
      span.slotFirst size j := by
  rw [address_index hsize hdvd, max_div hsize, slotFirst]
  rw [mul_comm, ← Nat.div_div_eq_div_mul] at hlo
  omega

theorem address_lt {page : ℕ} (h : page ≤ span.last) : span.address page < 2 ^ 64 := by
  have := span.last_lt
  have := span.base_eq
  simp only [address]
  omega

variable (span) in
theorem address_mod (page : ℕ) : span.address page % 4096 = 0 := by
  have := span.base_eq
  simp only [address]
  omega

theorem place_div (hsize : 0 < size) (hlo : span.first / size ≤ j) :
    max span.first (j * size) / size = j ∧ max span.first (j * size) < (j + 1) * size := by
  have hlt : span.first < (j + 1) * size := (Nat.div_lt_iff_lt_mul hsize).mp (Nat.lt_succ_of_le hlo)
  have hmul : (j + 1) * size = j * size + size := Nat.succ_mul j size
  have hmax : max span.first (j * size) < (j + 1) * size := by omega
  refine ⟨?_, hmax⟩
  apply le_antisymm
  · exact Nat.lt_succ_iff.mp ((Nat.div_lt_iff_lt_mul hsize).mpr hmax)
  · exact (Nat.le_div_iff_mul_le hsize).mpr (le_max_right _ _)

/-- The first place of a table is where the walk enters it. -/
theorem first_place :
    max span.first ((j * 512 + span.slotFirst size j) * size) =
      max span.first (j * (512 * size)) := by
  have hsum : j * 512 + span.slotFirst size j = max (span.first / size) (j * 512) := by
    simp only [slotFirst]
    omega
  rw [hsum, ← mul_assoc]
  rcases le_total (span.first / size) (j * 512) with h | h
  · rw [max_eq_right h]
  · have hle : span.first / size * size ≤ span.first := div_mul_le_self _ _
    rw [max_eq_left h, max_eq_left hle, max_eq_left]
    exact le_trans (mul_le_mul_right size h) hle

theorem lastAddress_index (hsize : 0 < size) (hdvd : 512 * size ∣ 512 ^ 4) :
    (span.address span.last + 4095) / (4096 * size) % 512 = span.last / size % 512 := by
  have hmod := address_mod span span.last
  have hdiv : (span.address span.last + 4095) / 4096 = span.address span.last / 4096 := by omega
  rw [← Nat.div_div_eq_div_mul, hdiv, Nat.div_div_eq_div_mul, address_index hsize hdvd]

variable (span) in
/-- The loop over a table that has to go on to its end is not stopped at the index of the last
address. -/
def Trim (size j : ℕ) : Prop :=
  span.last / (512 * size) % 512 = j % 512 →
    j = span.last / (512 * size) ∨ span.last / size % 512 = 511

theorem lastIndex_eq (hhi : j ≤ span.last / (512 * size)) (h : span.Trim size j) :
    lastIndex (span.last / (512 * size) % 512) (j % 512) (span.last / size % 512) =
      span.slotLast size j := by
  have hdiv : span.last / (512 * size) = span.last / size / 512 := by
    rw [Nat.div_div_eq_div_mul, mul_comm]
  rw [Trim, hdiv] at h
  rw [hdiv] at hhi ⊢
  simp only [lastIndex, slotLast, numberOfEntries]
  split <;> omega

theorem next_fits (hsize : 0 < size) (hdvd : 512 * size ∣ 512 ^ 4) (hlo : span.first / size ≤ j)
    (hlt : j < span.last / size) : span.address (max span.first (j * size) + size) < 2 ^ 64 := by
  obtain ⟨k, hk⟩ := hdvd
  have hlast : span.last / size < 512 * k := by
    rw [div_lt_iff_lt_mul hsize, mul_right_comm, ← hk]
    exact span.last_lt
  have hplace := (place_div hsize hlo).2
  have hroom : (j + 2) * size ≤ 512 ^ 4 := by
    rw [hk, mul_right_comm]
    exact mul_le_mul_right size (by omega)
  have hmul : (j + 2) * size = (j + 1) * size + size := succ_mul (j + 1) size
  have := span.base_eq
  simp only [address]
  omega

end PageSpan

/-- The index of the page that an entry points to, which is known to be a word of 32 bits. -/
def physicalPage (entry : Raw) : PhysicalPage :=
  (getAddress4kib entry).toNat / standardPageSize

/-- What is freed was allocated, and an allocated page has an index of 32 bits. -/
def IsPage (entry : Raw) : Prop := physicalPage entry < 2 ^ 32

theorem Walk.prepend_eq {walk : Walk} {entry : Raw} (h : IsPage entry) :
    walk.prepend entry = .ok { walk with
      deallocatePageList := physicalPage entry :: walk.deallocatePageList } := by
  have hcast : PhysicalPage.fromAddress (getAddress4kib entry) = .ok (physicalPage entry) :=
    intCast_of_lt h
  simp only [prepend, hcast, ok_bind, pure_eq_ok]

/-- The effect of visiting an item that has the pages from `j * size` on. -/
structure Effect (Item : Type) where
  Ok : ℕ → Item → Prop
  Ends : Item → Prop
  result : ℕ → Item → Item
  freed : ℕ → Item → List PhysicalPage
  Touches : ℕ → Item → ℕ → Prop

open PageSpan

section

variable (span : PageSpan) (visitor : Visitor)

structure Visited (walk walk' : Walk) (freed : List PhysicalPage) (Touches : ℕ → Prop) : Prop where
  pages : walk'.deallocatePageList = freed ++ walk.deallocatePageList
  keeps : ∀ address, walk.Covers address → walk'.Covers address
  covers : visitor.needToFlush = true → ∀ page, Touches page → ∀ address,
    VirtualRange.Contains ⟨span.address page, 4096⟩ address → walk'.Covers address

variable {span visitor} in
theorem Visited.trans {walk walk' walk'' : Walk} {freed freed' : List PhysicalPage}
    {Touches Touches' : ℕ → Prop} (h : Visited span visitor walk walk' freed Touches)
    (h' : Visited span visitor walk' walk'' freed' Touches') :
    Visited span visitor walk walk'' (freed' ++ freed)
      (fun page => Touches page ∨ Touches' page) where
  pages := by rw [h'.pages, h.pages, append_assoc]
  keeps address hc := h'.keeps address (h.keeps address hc)
  covers hflush page ht address hin := by
    cases ht with
    | inl ht => exact h'.keeps address (h.covers hflush page ht address hin)
    | inr ht => exact h'.covers hflush page ht address hin

variable {span visitor} in
theorem Visited.congr {walk walk' : Walk} {freed freed' : List PhysicalPage}
    {Touches Touches' : ℕ → Prop} (h : Visited span visitor walk walk' freed Touches)
    (hfreed : freed' = freed) (htouches : ∀ page, Touches' page → Touches page) :
    Visited span visitor walk walk' freed' Touches' :=
  ⟨hfreed ▸ h.pages, h.keeps, fun hflush page ht => h.covers hflush page (htouches page ht)⟩

/-- The visit does what the effect says at every place of the span, and moves on to the next place.
-/
def Serves {Item : Type} (size : ℕ) (visit : ℕ → Item → Walk → Checked (Item × Walk))
    (effect : Effect Item) : Prop :=
  ∀ j item walk, span.first / size ≤ j → j ≤ span.last / size → effect.Ok j item → walk.Tidy →
    walk.currentVirtualAddress = span.address (max span.first (j * size)) →
    ((j = span.last / size → effect.Ends item) →
      ∃ walk', visit (j % 512) item walk = .ok (effect.result j item, walk') ∧ walk'.Tidy ∧
        (j < span.last / size → walk'.currentVirtualAddress = span.address ((j + 1) * size)) ∧
        Visited span visitor walk walk' (effect.freed j item) (effect.Touches j item)) ∧
    (j = span.last / size → ¬ effect.Ends item →
      ∃ trap, visit (j % 512) item walk = .error trap)

def pageEffect : Effect Raw where
  Ok _ entry := present entry = true → visitor.backingPage = .free → IsPage entry
  Ends _ := span.address (span.last + 1) < 2 ^ 64
  result _ entry := if present entry = true then visitor.update entry else entry
  freed _ entry :=
    if present entry = true ∧ visitor.backingPage = .free then [physicalPage entry] else []
  Touches j entry page := present entry = true ∧ page = j

variable {span visitor} in
theorem visitPage_serves : Serves span visitor 1 (visitPage visitor) (pageEffect span visitor) := by
  intro j entry walk hlo hhi hok htidy haddr
  rw [Nat.div_one] at hlo hhi
  have hj : max span.first (j * 1) = j := by omega
  rw [hj] at haddr
  have hnext : span.address (j + 1) = walk.currentVirtualAddress + 4096 := by
    rw [haddr]
    simp only [address]
    omega
  have hfits (hends : j = span.last → span.address (span.last + 1) < 2 ^ 64) :
      walk.currentVirtualAddress + 4096 < 2 ^ 64 := by
    rw [← hnext]
    rcases Nat.lt_or_eq_of_le hhi with hlt | heq
    · exact address_lt hlt
    · rw [heq]
      exact hends heq
  simp only [Nat.div_one, mul_one]
  cases hp : present entry with
  | false =>
    simp only [visitPage, hp, if_true, pageEffect, Bool.false_eq_true, if_false, false_and]
    constructor
    · intro hends
      obtain ⟨walk', hwalk, htidy', haddr', hpages, hcovers⟩ := pass_spec htidy (hfits hends)
      obtain ⟨w, hw, hmove⟩ := bind_eq_ok.mp hwalk
      refine ⟨walk', ?_, htidy', fun _ => haddr'.trans hnext.symm, hpages, hcovers, ?_⟩
      · simp only [hw, ok_bind, hmove, pure_eq_ok]
      · intro _ page hpage
        exact hpage.elim
    · intro heq hends
      have htrap := pass_trap htidy (by rwa [← hnext, heq])
      obtain ⟨w, hw, -⟩ := flush_spec htidy
      rw [hw, ok_bind] at htrap
      exact ⟨.overflow, by simp only [hw, htrap, ok_bind, error_bind]⟩
  | true =>
    obtain ⟨w, hw, hwaddr, hwtidy, hwpages, hwcovers⟩ : ∃ w : Walk,
        walk.prependIf visitor.backingPage entry = .ok w ∧
        w.currentVirtualAddress = walk.currentVirtualAddress ∧ w.Tidy ∧
        w.deallocatePageList = (pageEffect span visitor).freed j entry ++
          walk.deallocatePageList ∧ ∀ address, walk.Covers address → w.Covers address := by
      by_cases hfree : visitor.backingPage = .free
      · refine ⟨{ walk with
          deallocatePageList := physicalPage entry :: walk.deallocatePageList },
          by rw [prependIf, if_pos hfree, prepend_eq (hok hp hfree)], rfl, ?_, ?_, ?_⟩
        · exact ⟨htidy.word, htidy.aligned, htidy.inProgress, htidy.batch⟩
        · simp [pageEffect, hp, hfree]
        · exact fun _ h => h
      · exact ⟨walk, by rw [prependIf, if_neg hfree]; rfl, rfl, htidy, by simp [pageEffect, hfree],
          fun _ h => h⟩
    simp only [visitPage, hp, Bool.true_eq_false, if_false, hw, ok_bind]
    rw [← hwaddr] at hnext hfits haddr
    constructor
    · intro hends
      obtain ⟨walk', hwalk, htidy', haddr', hpages, hcovers, hnew⟩ :=
        extend_spec hwtidy visitor.needToFlush (hfits hends)
      obtain ⟨w', hw', hmove⟩ := bind_eq_ok.mp hwalk
      refine ⟨walk', ?_, htidy', fun _ => haddr'.trans hnext.symm, ?_, ?_, ?_⟩
      · simp only [hw', ok_bind, hmove, pure_eq_ok, pageEffect, hp, if_true]
      · rw [hpages, hwpages]
      · exact fun address hc => hcovers address (hwcovers address hc)
      · intro hflush page hpage
        rw [hpage.2, ← haddr]
        exact hnew hflush
    · intro heq hends
      obtain ⟨trap, htrap⟩ := extend_trap visitor.needToFlush
        (show ¬ w.currentVirtualAddress + 4096 < 2 ^ 64 by rwa [← hnext, heq])
      cases hw' : w.extend visitor.needToFlush with
      | error trap => exact ⟨trap, rfl⟩
      | ok w' =>
        rw [hw', ok_bind] at htrap
        exact ⟨trap, by simp only [htrap, ok_bind, error_bind]⟩

def entryEffect {Next : Type} (size : ℕ) (decision : CleanupDecision) (empty : Next → Bool)
    (below : Effect Next) : Effect (TableEntry Next) where
  Ok j entry := present entry.raw = true →
    huge entry.raw = false ∧ (decision = .free → IsPage entry.raw) ∧ below.Ok j entry.next
  Ends entry :=
    if present entry.raw = true then below.Ends entry.next
    else span.address (max span.first (span.last / size * size) + size) < 2 ^ 64
  result j entry :=
    if present entry.raw = true then
      { raw := if decision = .free ∧ empty (below.result j entry.next) = true then 0 else entry.raw
        next := below.result j entry.next }
    else entry
  freed j entry :=
    if present entry.raw = true then
      (if decision = .free ∧ empty (below.result j entry.next) = true then [physicalPage entry.raw]
        else []) ++ below.freed j entry.next
    else []
  Touches j entry page := present entry.raw = true ∧ below.Touches j entry.next page

variable {span visitor} in
theorem visitEntry_serves {Next : Type} {size : ℕ} {decision : CleanupDecision}
    {empty : Next → Bool} {visitNext : ℕ → Next → Walk → Checked (Next × Walk)}
    {below : Effect Next} (hsize : 0 < size) (hdvd : 512 * size ∣ 512 ^ 4)
    (h : Serves span visitor size visitNext below) :
    Serves span visitor size (visitEntry (4096 * size) decision empty visitNext)
      (entryEffect span size decision empty below) := by
  intro j entry walk hlo hhi hok htidy haddr
  cases hp : present entry.raw with
  | false =>
    have hnext : getNextLevel entry.raw = .error .notPresent := if_pos hp
    obtain ⟨w, hw, hwtidy, hnone, hwaddr, hwpages, hwcovers⟩ := flush_spec htidy
    obtain ⟨hdiv, hplace⟩ := place_div hsize hlo
    have hsum : w.currentVirtualAddress + 4096 * size =
        span.address (max span.first (j * size) + size) := by
      rw [hwaddr, haddr]
      simp only [address]
      omega
    simp only [visitEntry, hnext, hw, ok_bind, entryEffect, hp, Bool.false_eq_true,
      if_false, false_and]
    constructor
    · intro hends
      have hfits : w.currentVirtualAddress + 4096 * size < 2 ^ 64 := by
        rw [hsum]
        rcases lt_or_eq_of_le hhi with hlt | heq
        · exact next_fits hsize hdvd hlo hlt
        · rw [heq]
          exact hends heq
      have halign : (w.currentVirtualAddress + 4096 * size) / (4096 * size) * (4096 * size) =
          span.address ((j + 1) * size) := by
        rw [hsum, address_alignBackward hsize hdvd, add_div_right _ hsize, hdiv]
      refine ⟨_, by rw [skip_eq hfits, ok_bind, pure_eq_ok], ?_, ?_, ?_⟩
      · rw [halign]
        refine ⟨?_, ?_, ?_, ?_⟩
        · exact lt_of_le_of_lt (halign ▸ div_mul_le_self _ _) hfits
        · exact address_mod span _
        · intro r hr
          rw [hnone] at hr
          cases hr
        · intro last hlast
          have hle := hwtidy.batch last hlast
          simp only [pending, hnone, Option.map_none, Option.getD_none, hwaddr, haddr,
            address] at hle ⊢
          omega
      · intro _
        exact halign
      · exact ⟨hwpages, fun address hc => .inl (hwcovers address hc),
          fun _ _ hpage => hpage.elim⟩
    · intro heq hends
      rw [← heq] at hends
      rw [skip, VirtualAddress.moveForward, add, if_neg (by rwa [hsum]), error_bind]
      exact ⟨.overflow, rfl⟩
  | true =>
    obtain ⟨hhuge, hpage, hbelow⟩ := hok hp
    have hnext : getNextLevel entry.raw = .ok () := by
      simp [getNextLevel, hp, hhuge]
    obtain ⟨hrun, htrap⟩ := h j entry.next walk hlo hhi hbelow htidy haddr
    simp only [visitEntry, hnext, entryEffect, hp, if_true, true_and]
    constructor
    · intro hends
      obtain ⟨walk', hwalk, htidy', haddr', hvisited⟩ := hrun hends
      simp only [hwalk, ok_bind]
      by_cases hfree : decision = .free ∧ empty (below.result j entry.next) = true
      · simp only [if_pos hfree, prepend_eq (hpage hfree.1), ok_bind, pure_eq_ok]
        refine ⟨_, rfl, ⟨htidy'.word, htidy'.aligned, htidy'.inProgress, htidy'.batch⟩, haddr',
          ?_, hvisited.keeps, hvisited.covers⟩
        rw [hvisited.pages]
        rfl
      · simp only [if_neg hfree, nil_append]
        exact ⟨walk', rfl, htidy', haddr', hvisited⟩
    · intro heq hends
      obtain ⟨trap, htrap⟩ := htrap heq hends
      exact ⟨trap, by simp only [htrap, error_bind]⟩

def tableEffect {E : Type} (size : ℕ) (Trim : ℕ → Prop) (entry : Effect E) : Effect (ℕ → E) where
  Ok j table := Trim j ∧ ∀ i, span.InSlots size j i → entry.Ok (j * 512 + i) (table i)
  Ends table := entry.Ends (table (span.last / size % 512))
  result j table i :=
    if span.InSlots size j i then entry.result (j * 512 + i) (table i) else table i
  freed j table :=
    (span.slots size j).reverse.flatMap fun i => entry.freed (j * 512 + i) (table i)
  Touches j table page := ∃ i, span.InSlots size j i ∧ entry.Touches (j * 512 + i) (table i) page

variable {span visitor}

theorem visitTable_step {E : Type} {visit : ℕ → E → Walk → Checked (E × Walk)} {i last : ℕ}
    (h : i ≤ last) (table : ℕ → E) (walk : Walk) :
    visitTable visit i last table walk = (visit i (table i) walk >>= fun result =>
      visitTable visit (i + 1) last (update table i result.1) result.2) := by
  have hcount : last + 1 - i = (last + 1 - (i + 1)) + 1 := by omega
  simp only [visitTable, hcount, range'_succ, foldlM_cons, bind_assoc, pure_bind]

section

variable {E : Type} {size j : ℕ} {visit : ℕ → E → Walk → Checked (E × Walk)} {entry : Effect E}
  (hsize : 0 < size) (h : Serves span visitor size visit entry)
  (hhi : j ≤ span.last / (512 * size))

include hsize h hhi

private theorem visitTable_loop (n i : ℕ) (table : ℕ → E) (walk : Walk)
    (hn : i + n = span.slotLast size j + 1) (hi : span.slotFirst size j ≤ i)
    (hok : ∀ i', i ≤ i' → span.InSlots size j i' → entry.Ok (j * 512 + i') (table i'))
    (htidy : walk.Tidy)
    (haddr : n ≠ 0 → walk.currentVirtualAddress =
      span.address (max span.first ((j * 512 + i) * size)))
    (hend : n = 0 → j < span.last / (512 * size) →
      walk.currentVirtualAddress = span.address ((j + 1) * (512 * size))) :
    ((n ≠ 0 → j = span.last / (512 * size) → entry.Ends (table (span.last / size % 512))) →
      ∃ walk', visitTable visit i (span.slotLast size j) table walk =
          .ok (fun i' => if i ≤ i' ∧ i' ≤ span.slotLast size j then
            entry.result (j * 512 + i') (table i') else table i', walk') ∧
        walk'.Tidy ∧
        (j < span.last / (512 * size) →
          walk'.currentVirtualAddress = span.address ((j + 1) * (512 * size))) ∧
        Visited span visitor walk walk'
          ((List.range' i n).reverse.flatMap fun i' => entry.freed (j * 512 + i') (table i'))
          (fun page => ∃ i', i ≤ i' ∧ i' ≤ span.slotLast size j ∧
            entry.Touches (j * 512 + i') (table i') page)) ∧
    (n ≠ 0 → j = span.last / (512 * size) → ¬ entry.Ends (table (span.last / size % 512)) →
      ∃ trap, visitTable visit i (span.slotLast size j) table walk = .error trap) := by
  have hcount : span.slotLast size j + 1 - i = n := by omega
  induction n generalizing i table walk with
  | zero =>
    refine ⟨fun _ => ⟨walk, ?_, htidy, hend rfl, ?_, fun _ hc => hc, ?_⟩, by simp⟩
    · have hnone : ∀ i', ¬ (i ≤ i' ∧ i' ≤ span.slotLast size j) := by
        intro i'
        omega
      simp only [visitTable, hcount, range'_zero, foldlM_nil, pure_eq_ok, hnone, if_false]
    · rfl
    · intro _ page hpage
      obtain ⟨i', hge, hle, -⟩ := hpage
      omega
  | succ n ih =>
    have hile : i ≤ span.slotLast size j := by omega
    have hin : span.InSlots size j i := (inSlots_iff hhi i).mpr ⟨hi, hile⟩
    have hmod : (j * 512 + i) % 512 = i := by
      rw [mul_comm, mul_add_mod, mod_eq_of_lt hin.1]
    have hlast : j * 512 + i = span.last / size ↔ n = 0 ∧ j = span.last / (512 * size) := by
      rw [last_iff hhi hin]
      omega
    have hzero : n = 0 ↔ i = span.slotLast size j := by omega
    have hindex : j * 512 + i = span.last / size → span.last / size % 512 = i := by
      intro heq
      rw [← heq, hmod]
    obtain ⟨hstep, htrap⟩ := h (j * 512 + i) (table i) walk hin.2.1 hin.2.2
      (hok i (le_refl i) hin) htidy (haddr (succ_ne_zero n))
    rw [hmod] at hstep htrap
    rw [visitTable_step hile]
    by_cases hends : j * 512 + i = span.last / size → entry.Ends (table i)
    case neg =>
      obtain ⟨heq, hno⟩ := Classical.not_imp.mp hends
      obtain ⟨trap, htrap⟩ := htrap heq hno
      rw [htrap, error_bind]
      refine ⟨fun hall => absurd ?_ hno, fun _ _ _ => ⟨trap, rfl⟩⟩
      rw [← hindex heq]
      exact hall (succ_ne_zero n) (hlast.mp heq).2
    obtain ⟨w, hw, hwtidy, hwaddr, hwvisited⟩ := hstep hends
    rw [hw, ok_bind]
    have hother : ∀ i', i + 1 ≤ i' →
        update table i (entry.result (j * 512 + i) (table i)) i' = table i' := by
      intro i' hi'
      have hne : i' ≠ i := ne_of_gt hi'
      rw [update_of_ne hne]
    have hplace : max span.first ((j * 512 + (i + 1)) * size) = (j * 512 + i + 1) * size := by
      have hlt : span.first / size < j * 512 + i + 1 := lt_succ_of_le hin.2.1
      rw [← add_assoc, max_eq_right]
      exact le_of_lt ((div_lt_iff_lt_mul hsize).mp hlt)
    have hbefore : n ≠ 0 ∨ j < span.last / (512 * size) → j * 512 + i < span.last / size := by
      intro hor
      refine lt_of_le_of_ne hin.2.2 fun heq => ?_
      obtain ⟨hn0, hj⟩ := hlast.mp heq
      omega
    obtain ⟨hrest, hresttrap⟩ := ih (i + 1)
      (update table i (entry.result (j * 512 + i) (table i))) w
      (by omega) (by omega)
      (by
        intro i' hi' hin'
        rw [hother i' hi']
        exact hok i' (le_of_succ_le hi') hin')
      hwtidy
      (by
        intro hne
        rw [hwaddr (hbefore (.inl hne)), hplace])
      (by
        intro hn0 hlt
        rw [hwaddr (hbefore (.inr hlt)), hzero.mp hn0, slotLast_of_lt hlt]
        congr 1
        ring)
      (by omega)
    have hkeep : n ≠ 0 → j = span.last / (512 * size) →
        update table i (entry.result (j * 512 + i) (table i))
          (span.last / size % 512) = table (span.last / size % 512) := by
      intro hne hj
      have hne' : span.last / size % 512 ≠ i := by
        intro heq
        have hsum := last_mod hj
        rw [heq] at hsum
        exact hne (hlast.mp hsum).1
      rw [update_of_ne hne']
    constructor
    · intro hall
      obtain ⟨walk', hrun, htidy', haddr', hvisited⟩ := hrest (by
        intro hne hj
        rw [hkeep hne hj]
        exact hall (succ_ne_zero n) hj)
      refine ⟨walk', ?_, htidy', haddr', ?_⟩
      · rw [hrun]
        congr 2
        funext i'
        by_cases heq : i' = i
        · rw [heq, if_neg (by omega), if_pos ⟨le_refl i, hile⟩, update_self]
        · rw [update_of_ne heq]
          exact if_congr (by omega) rfl rfl
      · refine (hwvisited.trans hvisited).congr ?_ ?_
        · rw [range'_succ, reverse_cons, flatMap_append, flatMap_singleton]
          congr 1
          apply flatMap_congr
          intro i' hi'
          rw [mem_reverse, mem_range'_1] at hi'
          rw [hother i' hi'.1]
        · intro page htouch
          obtain ⟨i', hge, hle, htouch⟩ := htouch
          by_cases heq : i' = i
          · exact .inl (heq ▸ htouch)
          · have hgt : i + 1 ≤ i' := by omega
            exact .inr ⟨i', hgt, hle, by rwa [hother i' hgt]⟩
    · intro _ hj hno
      by_cases hn0 : n = 0
      · have heq := hlast.mpr ⟨hn0, hj⟩
        rw [hindex heq] at hno
        exact absurd (hends heq) hno
      · exact hresttrap hn0 hj (by rwa [hkeep hn0 hj])

end

theorem visitTable_serves {E : Type} {size : ℕ} {visit : ℕ → E → Walk → Checked (E × Walk)}
    {entry : Effect E} {Trim : ℕ → Prop} {lastOf : ℕ → ℕ} (hsize : 0 < size)
    (hdvd : 512 * size ∣ 512 ^ 4) (h : Serves span visitor size visit entry)
    (htrim : ∀ j ≤ span.last / (512 * size), Trim j → lastOf (j % 512) = span.slotLast size j) :
    Serves span visitor (512 * size) (fun index table walk =>
      visitTable visit (walk.currentVirtualAddress / (4096 * size) % 512) (lastOf index) table walk)
      (tableEffect span size Trim entry) := by
  intro j table walk hlo hhi hok htidy haddr
  have hfirst := slotFirst_le hlo hhi
  obtain ⟨hrun, htrap⟩ := visitTable_loop hsize h hhi
    (span.slotLast size j + 1 - span.slotFirst size j) (span.slotFirst size j) table walk
    (by omega) le_rfl (fun i _ hin => hok.2 i hin) htidy
    (by
      intro _
      rw [haddr, first_place])
    (by omega)
  have hne : span.slotLast size j + 1 - span.slotFirst size j ≠ 0 := by omega
  simp only [haddr, first_index hsize hdvd hlo, htrim j hhi hok.1]
  constructor
  · intro hends
    obtain ⟨walk', hwalk, htidy', haddr', hvisited⟩ := hrun (fun _ => hends)
    refine ⟨walk', ?_, htidy', haddr', hvisited.congr rfl ?_⟩
    · rw [hwalk]
      congr 2
      funext i
      exact if_congr (inSlots_iff hhi i).symm rfl rfl
    · intro page htouch
      obtain ⟨i, hin, htouch⟩ := htouch
      obtain ⟨hge, hle⟩ := (inSlots_iff hhi i).mp hin
      exact ⟨i, hge, hle, htouch⟩
  · intro heq hno
    exact htrap hne heq hno

end

end Innigkeit.X64.PageTable

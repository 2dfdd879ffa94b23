import Innigkeit.Zig.Checked
import Mathlib.Data.List.TakeDrop

/-!
The long-name entries that the image builder writes into a FAT directory in
front of the entry of a file. Checksums, dates and clusters have no influence
on the name and are left out.
-/

namespace Innigkeit.ImageBuilder.Fat

open List Zig

structure LongFileNameEntry where
  sequenceNumber : BitVec 8
  /-- The first, the middle and the final characters. -/
  characters : List (BitVec 16)

inductive DirectoryEntry where
  | standard (shortName : List (BitVec 8))
  | longFileName (entry : LongFileNameEntry)

def DirectoryEntry.isLastEntry : DirectoryEntry → Bool
  | .standard shortName => shortName.headD 0 = 0
  | .longFileName entry => entry.sequenceNumber = 0

def DirectoryEntry.isUnusedEntry : DirectoryEntry → Bool
  | .standard shortName => shortName.headD 0 = 0xE5
  | .longFileName entry => entry.sequenceNumber = 0xE5

/-- An entry that was never written. -/
def DirectoryEntry.blank : DirectoryEntry := .standard (replicate 11 0)

open LongFileNameEntry DirectoryEntry

abbrev Directory := List DirectoryEntry

abbrev Bytes := List (BitVec 8)

def firstUnusedEntry : Directory → Checked (Option ℕ)
  | [] => return none
  | entry :: rest => do
    assert (entry.isUnusedEntry = false)
    if entry.isLastEntry then return some 0
    return (← firstUnusedEntry rest).map (· + 1)

/-- What one turn of the loop writes. The window never has a fourteenth character. -/
def longFileNameEntry (longName : Bytes) (required counter start : ℕ) : LongFileNameEntry :=
  let number := BitVec.ofNat 8 counter
  let window := (longName.drop start).take (min (longName.length - start) 13)
  { sequenceNumber := if counter = required then number ||| 0x40 else number
    characters := window.map (·.setWidth 16) ++ replicate (13 - window.length) 0xFFFF }

def addLongFileName.loop (longName : Bytes) (required : ℕ) :
    ℕ → ℕ → Directory → Checked (Option Directory)
  | 0, _, self => return some self
  | counter + 1, start, self => do
    let some entry ← firstUnusedEntry self | return none
    loop longName required counter (if start ≠ 0 then start - 13 else start)
      (self.set entry (longFileName (longFileNameEntry longName required (counter + 1) start)))

def addLongFileName (self : Directory) (longName : Bytes) : Checked (Option Directory) := do
  assert (longName.getLast? = some 0)
  let required := longName.length / 13 + 1
  assert (required ≤ 20)
  addLongFileName.loop longName required required (longName.length / 13 * 13) self

/-- `addFile` up to the copying, for a name that has a long form. -/
def addFile (self : Directory) (shortName longName : Bytes) : Checked (Option Directory) := do
  let some self ← addLongFileName self longName | return none
  let some entry ← firstUnusedEntry self | return none
  return some (self.set entry (standard shortName))

/-- An entry in front of the first free one; none is ever removed. -/
def DirectoryEntry.Taken (entry : DirectoryEntry) : Prop :=
  entry.isLastEntry = false ∧ entry.isUnusedEntry = false

/-- As many entries as the name needs, numbered down to one, stand in front of the standard entry
and read as the name, a zero and filling. -/
def WritesName (used : Directory) (free : ℕ) (shortName name : Bytes) : Prop :=
  ∃ (entries : List LongFileNameEntry) (rest : Directory) (filling : ℕ),
    addFile (used ++ replicate free blank) shortName (name ++ [0]) =
      .ok (some (used ++ (entries.map longFileName ++ standard shortName :: rest))) ∧
    entries.length = (name.length + 1 + 12) / 13 ∧
    entries.map sequenceNumber = (range entries.length).reverse.map (fun j =>
      BitVec.ofNat 8 (j + 1) ||| if j + 1 = entries.length then 0x40 else 0) ∧
    (entries.reverse.flatMap characters).span (· ≠ 0) =
      (name.map (·.setWidth 16), 0 :: replicate filling 0xFFFF)

section

variable (longName : Bytes) (required n : ℕ) {c : ℕ}

def turns (c : ℕ) : List LongFileNameEntry :=
  (range c).reverse.map fun j => longFileNameEntry longName required (j + 1) (j * 13)

theorem turns_succ : turns longName required (c + 1) =
    longFileNameEntry longName required (c + 1) (c * 13) :: turns longName required c := by
  simp [turns, range_succ]

theorem taken_turns (hc : c ≤ 20) :
    ∀ e ∈ (turns longName required c).map longFileName, e.Taken := by
  have hnumber : ∀ j < 20, ∀ number ∈ [BitVec.ofNat 8 (j + 1), BitVec.ofNat 8 (j + 1) ||| 0x40],
      number ≠ 0 ∧ number ≠ 0xE5 := by
    decide
  simp only [turns, forall_mem_map, mem_reverse, mem_range, Taken, isLastEntry, isUnusedEntry,
    longFileNameEntry, decide_eq_false_iff_not]
  intro j hj
  refine hnumber j (by omega) _ ?_
  split <;> simp

theorem characters_turns (h : c * 13 ≤ longName.length + 13) :
    (turns longName required c).reverse.flatMap characters =
      (longName.take (c * 13)).map (·.setWidth 16) ++
        replicate (c * 13 - longName.length) 0xFFFF := by
  induction c with
  | zero => simp [turns]
  | succ c ih =>
    have hnone : c * 13 - longName.length = 0 := by omega
    rw [turns_succ, reverse_cons, flatMap_append, ih (by omega), hnone, Nat.succ_mul, take_add]
    simp [longFileNameEntry]
    congr 1
    · rw [take_eq_take_iff, length_drop, length_map]
      omega
    · congr 1
      omega

variable {used : Directory} (hused : ∀ e ∈ used, e.Taken)

include hused

theorem firstUnusedEntry_append (rest : Directory) :
    firstUnusedEntry (used ++ blank :: rest) = .ok (some used.length) := by
  induction used with
  | nil => rfl
  | cons entry used ih =>
    obtain ⟨⟨hlast, hunused⟩, htail⟩ := forall_mem_cons.mp hused
    simp [firstUnusedEntry, assert, hlast, hunused, ih htail]

theorem loop_eq (hc : c ≤ 20) :
    addLongFileName.loop longName required c ((c - 1) * 13) (used ++ replicate (n + c) blank) =
      .ok (some (used ++ ((turns longName required c).map longFileName ++ replicate n blank))) := by
  induction c generalizing used with
  | zero => simp [addLongFileName.loop, turns]
  | succ c ih =>
    have hnew := taken_turns longName required hc
    rw [turns_succ, map_cons, forall_mem_cons] at hnew
    have hrest := ih (forall_mem_append.mpr ⟨hused, forall_mem_singleton.mpr hnew.1⟩) (by omega)
    have hstart : (if c * 13 ≠ 0 then c * 13 - 13 else c * 13) = (c - 1) * 13 := by
      split <;> omega
    rw [← Nat.add_assoc, replicate_succ, addLongFileName.loop, firstUnusedEntry_append hused,
      Nat.add_sub_cancel, hstart]
    simpa [turns_succ] using hrest

variable (shortName : Bytes) {name : Bytes}

theorem addFile_eq (hc : (name.length + 1) / 13 + 1 = c) (hle : c ≤ 20) :
    addFile (used ++ replicate (n + 1 + c) blank) shortName (name ++ [0]) =
      .ok (some (used ++ ((turns (name ++ [0]) c c).map longFileName ++
        standard shortName :: replicate n blank))) := by
  have hstart : (name.length + 1) / 13 * 13 = (c - 1) * 13 := by omega
  have hunused := firstUnusedEntry_append
    (forall_mem_append.mpr ⟨hused, taken_turns (name ++ [0]) c hle⟩) (replicate n blank)
  rw [append_assoc] at hunused
  simp only [addFile, addLongFileName, length_append, length_singleton, hc, hstart, assert,
    getLast?_concat, hle, if_true, ok_bind, loop_eq _ _ _ hused hle, replicate_succ]
  rw [hunused]
  simp

omit hused in
/-- A name for more than twenty entries fails the assertion. -/
theorem addFile_traps (hc : 20 < (name.length + 1) / 13 + 1) (self : Directory) :
    addFile self shortName (name ++ [0]) = .error .assertion := by
  simp only [addFile, addLongFileName, length_append, length_singleton, assert, getLast?_concat,
    not_le.mpr hc, if_true, if_false, ok_bind, error_bind]

theorem not_writesName (hmod : (name.length + 1) % 13 = 0) :
    ¬ WritesName used (n + 1 + ((name.length + 1) / 13 + 1)) shortName name := by
  rintro ⟨entries, rest, -, heq, hcount, -⟩
  by_cases hc : (name.length + 1) / 13 + 1 ≤ 20
  · rw [addFile_eq n hused shortName rfl hc, Except.ok.injEq, Option.some_inj,
      append_cancel_left_eq] at heq
    have hlt : entries.length < (name.length + 1) / 13 + 1 := by omega
    have hat := congrArg (·[entries.length]?) heq
    rw [getElem?_append_left (by simpa [turns] using hlt)] at hat
    simp at hat
  · rw [addFile_traps shortName (by omega)] at heq
    cases heq

variable (hlen : name.length + 1 ≤ 260)

include hlen

/-- A name is written as it should be exactly if its bytes do not fill the entries. -/
theorem writesName_iff (hname : 0 ∉ name) :
    WritesName used (n + 1 + ((name.length + 1) / 13 + 1)) shortName name ↔
      (name.length + 1) % 13 ≠ 0 := by
  refine ⟨fun h hmod => not_writesName n hused shortName hmod h, fun hmod => ?_⟩
  refine ⟨_, _, ((name.length + 1) / 13 + 1) * 13 - (name.length + 1),
    addFile_eq n hused shortName rfl (by omega), ?_, ?_, ?_⟩
  · simp [turns]
    omega
  · simp [turns, longFileNameEntry]
    intro j _
    split <;> simp
  · have hnonzero : ∀ a ∈ name.map (·.setWidth 16), decide (a ≠ (0 : BitVec 16)) = true := by
      intro a ha
      obtain ⟨byte, hbyte, rfl⟩ := mem_map.mp ha
      have hne : byte ≠ 0 := fun heq => hname (heq ▸ hbyte)
      rw [decide_eq_true_iff]
      bv_omega
    rw [characters_turns _ _ (by simp; omega), take_of_length_le (by simp; omega),
      span_eq_takeWhile_dropWhile, map_append, append_assoc,
      takeWhile_append_of_pos hnonzero, dropWhile_append_of_pos hnonzero]
    simp

end

theorem writesName_letter : WritesName [] 2 [0x41] [0x61] :=
  (writesName_iff 0 (by simp) _ (by decide) (by decide)).mpr (by decide)

/-- Twelve letters and their zero fill one entry, and one without any character is written first. -/
theorem twelve_letters_two_entries : ¬ WritesName [] 3 [0x41] (replicate 12 0x61) :=
  not_writesName 0 (by simp) _ rfl

end Innigkeit.ImageBuilder.Fat

import Innigkeit.Memory.AddressSpace.Coalesce
import Innigkeit.Memory.AddressSpace.Desired

/-!
The loop of `performChangeProtection`. It returns exactly if no window outgrows
its map, and the counter of modified entries stays at zero exactly if every
changed entry is merged with the one behind it.
-/

namespace Innigkeit.Memory.AddressSpace

open Zig List ChangeProtection

variable {limit : ℕ} {heap₀ heap : Heap} {range : VirtualRange}
  {request : Request} {before rest tail : List Entry}

variable (request) in
theorem Consistent.applyLast {front : List Entry} {m : Entry}
    (h : Consistent limit heap (front ++ m :: tail)) :
    Consistent limit heap (front ++ request.apply m :: tail) := by
  have hm := h.entry m (by simp)
  have h' : Consistent limit heap (front ++ [m] ++ tail) := by simpa using h
  have : Consistent limit heap (front ++ [request.apply m] ++ tail) := h'.refine
    (by simpa using Request.apply_good hm) (by simp)
    (by simpa using Request.apply_within)
    (by simp [Entry.refersTo])
  simpa using this

def MergesBehind (heap : Heap) (request : Request) (entries : List Entry)
    (entry : Entry) : Prop :=
  ∃ n ∈ entries, Entry.Mergeable heap (request.apply entry) n

/-- What the loop leaves of `middle` and the part `rest` behind it. -/
structure Modified (limit : ℕ) (heap₀ : Heap) (range : VirtualRange)
    (request : Request) (before middle rest : List Entry)
    (result : ChangeProtectionResult) (heap : Heap) (merged : List Entry)
    (result' : ChangeProtectionResult) : Prop where
  fits : ∀ m ∈ middle, WindowFits heap₀ range (before ++ middle.map request.apply ++ rest)
    (request.apply m)
  consistent : Consistent limit heap (before ++ merged)
  coalesced : Coalesced heap₀ range (before ++ middle.map request.apply ++ rest)
    (middle.map request.apply ++ rest) heap merged
  counter : result'.entriesModified = 0 ↔ result.entriesModified = 0 ∧
    ∀ m ∈ middle, request.satisfied m = false →
      MergesBehind heap₀ request (before ++ middle.map request.apply ++ rest) m

section

variable {middle : List Entry} {m : Entry}

private theorem desired_last (request : Request) :
    before ++ (middle ++ [m]).map request.apply ++ rest =
      (before ++ middle.map request.apply) ++ request.apply m :: rest := by
  simp

private theorem modifyEntries_last (result : ChangeProtectionResult) :
    modifyEntries request before.length (middle ++ [m]).length heap
        (before ++ (middle ++ [m]) ++ tail) result =
      mergeAt heap ((before ++ middle) ++ request.apply m :: tail) (before ++ middle).length >>=
        fun r => modifyEntries request before.length middle.length r.1 r.2.1
          (result.count r.2.2 (!request.satisfied m)) := by
  have hlist : before ++ (middle ++ [m]) ++ tail = (before ++ middle) ++ m :: tail := by simp
  have hlen : before.length + middle.length = (before ++ middle).length := by simp
  have hget : ((before ++ middle) ++ m :: tail)[(before ++ middle).length]? = some m := by simp
  rw [length_append, length_singleton, hlist]
  simp only [modifyEntries, hlen, index_of hget, ok_bind, Surgery.set_length]

private theorem Modified.last {result result' : ChangeProtectionResult} {merged : List Entry}
    {b : Bool}
    (h : Modified limit heap₀ range request before middle (request.apply m :: rest)
      (result.count b (!request.satisfied m)) heap merged result')
    (hfits : WindowFits heap₀ range
      ((before ++ middle.map request.apply) ++ request.apply m :: rest) (request.apply m))
    (hb : b = true ↔ MergesBehind heap₀ request
      ((before ++ middle.map request.apply) ++ request.apply m :: rest) m) :
    Modified limit heap₀ range request before (middle ++ [m]) rest result heap merged result' := by
  obtain ⟨hf, hcons, hcoal, hcount⟩ := h
  constructor
  case fits =>
    rw [desired_last]
    intro x hx
    rcases mem_append.mp hx with hx | hx
    · exact hf x hx
    · rw [mem_singleton.mp hx]
      exact hfits
  case consistent => exact hcons
  case coalesced =>
    rw [desired_last]
    simpa using hcoal
  case counter =>
    rw [desired_last, hcount]
    simp only [forall_mem_append, mem_singleton, forall_eq, ← hb]
    cases b <;> cases request.satisfied m <;> simp [ChangeProtectionResult.count]

end

theorem modifyEntries_spec {middle : List Entry} (hl : limit < 2 ^ 64)
    (h₀ : Consistent limit heap₀ (before ++ middle.map request.apply ++ rest))
    (hin : ∀ m ∈ middle, m.range.Overlaps range)
    (h : Consistent limit heap (before ++ middle ++ tail))
    (hc : Coalesced heap₀ range (before ++ middle.map request.apply ++ rest) rest heap tail)
    (result : ChangeProtectionResult) :
    (∃ heap' merged result',
      modifyEntries request before.length middle.length heap (before ++ middle ++ tail) result =
        .ok (heap', before ++ merged, result') ∧
      Modified limit heap₀ range request before middle rest result heap' merged result') ∨
    (∃ trap,
      modifyEntries request before.length middle.length heap (before ++ middle ++ tail) result =
        .error trap) ∧
      ∃ m ∈ middle, ¬ WindowFits heap₀ range (before ++ middle.map request.apply ++ rest)
        (request.apply m) := by
  -- the loop runs from the last entry to the first: `rest` and `tail` take in what it has done
  induction middle using List.reverseRecOn generalizing rest heap tail result with
  | nil =>
    refine .inl ⟨heap, tail, result, by simp [modifyEntries], ?_⟩
    exact ⟨by simp, by simpa using h, by simpa using hc, by simp⟩
  | append_singleton middle m ih =>
    rw [desired_last] at h₀ hc
    have h' : Consistent limit heap ((before ++ middle) ++ m :: tail) := by simpa using h
    have hcons := Consistent.applyLast request h'
    have hgood : (request.apply m).Good limit heap := hcons.entry _ (by simp)
    have hin' : ∀ x ∈ middle, x.range.Overlaps range := fun x hx => hin x (by simp [hx])
    rw [modifyEntries_last, desired_last]
    rcases mergeAt_step h₀ hc hgood hcons hl
        (fun _ _ _ => .inl (hin m (by simp))) with
      ⟨heap1, tail1, b, heq, hcons1, hc1, hb, hfits⟩ | ⟨⟨trap, htrap⟩, hno⟩
    · simp only [heq, ok_bind]
      rcases ih h₀ hin' hcons1 hc1 (result.count b (!request.satisfied m)) with
        ⟨heap', merged, result', hrun, hmod⟩ | ⟨⟨trap, htrap⟩, x, hx, hno⟩
      · exact .inl ⟨heap', merged, result', hrun, hmod.last hfits hb⟩
      · exact .inr ⟨⟨trap, htrap⟩, x, by simp [hx], hno⟩
    · rw [htrap]
      exact .inr ⟨⟨trap, rfl⟩, m, by simp, hno⟩

end Innigkeit.Memory.AddressSpace

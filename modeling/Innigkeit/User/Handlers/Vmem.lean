import Innigkeit.Capabilities.Dropped
import Innigkeit.User.Handlers.Memory

/-!
Frames and the pages that they lend to address spaces. A frame owns a physical
page and gives it back when its last reference goes. `vmem_map` has a reference
for the time of the call only, so that a mapping keeps none: the page of a
mapped frame goes back as soon as the capabilities for the frame are gone.

A run interleaves the table operations, the creation of frames and the changes
of the address spaces of any number of processes. The lookup of the handle, the
mapping and the release of the snapshot are three steps. What happened to a page
is remembered by the number of times that it was given back.
-/

namespace Innigkeit.User.Handlers

open Zig Function Transition List Option
open Innigkeit.Memory (Allocation AddressSpace VirtualRangeBatch Protection)
open Innigkeit.Memory.AddressSpace (MapOptions)
open Innigkeit.Capabilities (World Operation SlotInfo ObjectType Rights)

structure Frame where
  ptr : ℕ
  page : ℕ
  deriving DecidableEq, Repr

/-- A present user leaf that maps the page of a frame. -/
structure Leaf where
  page : ℕ
  /-- How often the page had been given back when it was mapped. -/
  returned : ℕ
  deriving DecidableEq, Repr

structure Vmem (Process : Type) where
  world : World Process
  frames : List Frame
  spaces : Process → AddressSpace
  leaves : Process → ℕ → Option Leaf
  /-- How often a page was given back to the physical page allocator. -/
  returned : ℕ → ℕ

inductive VmemStep (Process : Type) where
  | table (op : Operation Process)
  | createFrame (ptr page : ℕ)
  /-- `vmem_map` after the lookup; the last argument is the success of `mapSinglePage`. -/
  | map (p : Process) (info : SlotInfo) (allocation : Allocation) (mapped : Bool)
  /-- A change of the address space that maps no frame. -/
  | mapOther (p : Process) (allocation : Allocation) (options : MapOptions)
  /-- `munmap` and `vmem_unmap` after the checks of their arguments. -/
  | unmap (p : Process) (allocation : Allocation) (range : VirtualRange)
  | unmapAll (p : Process) (allocation : Allocation)

namespace Vmem

variable {Process : Type} [DecidableEq Process]

def vmemProtection (rights : Rights) : Protection where
  read := rights.read
  write := rights.write
  execute := false

/-- The frames whose last reference is gone give back their pages. -/
def settle (s : Vmem Process) (world : World Process) : Vmem Process :=
  { s with
    world
    frames := s.frames.filter fun f => !(world.kernel.objects f.ptr).destroyed
    returned := fun page => s.returned page +
      s.frames.countP fun f => (world.kernel.objects f.ptr).destroyed && f.page == page }

def unmapLeaves (batches : List VirtualRangeBatch) (leaves : ℕ → Option Leaf) (address : ℕ) :
    Option Leaf :=
  if ∃ batch ∈ batches, ∃ range ∈ batch, range.Contains address then none else leaves address

/-- `AddressSpace.unmap`; the pages of the leaves that go are kept. -/
def unmapRange (s : Vmem Process) (p : Process) (allocation : Allocation) (range : VirtualRange) :
    Checked (Vmem Process) := do
  match ← AddressSpace.unmap allocation (s.spaces p) range with
  | (.error _, space) => return { s with spaces := update s.spaces p space }
  | (.ok batches, space) =>
    return { s with
      spaces := update s.spaces p space
      leaves := update s.leaves p (unmapLeaves batches (s.leaves p)) }

/-- The part of `vmem_map` between the lookup and the release of the snapshot. -/
def vmemMap (s : Vmem Process) (p : Process) (info : SlotInfo) (frame : Frame)
    (allocation : Allocation) (mapped : Bool) :
    Checked (Except SyscallError ℕ × Vmem Process) := do
  if info.capType ≠ .frame then return (.error .badHandle, s)
  if info.rights.read = false then return (.error .permissionDenied, s)
  let protection := vmemProtection info.rights
  let options : MapOptions :=
    { size := standardPageSize, protection, maxProtection := some protection, type := .zeroFill }
  match ← AddressSpace.map allocation (s.spaces p) options with
  | (.error error, space) =>
    return (.error (mmapError error), { s with spaces := update s.spaces p space })
  | (.ok range, space) =>
    let s := { s with spaces := update s.spaces p space }
    if mapped then
      let leaf : Leaf := ⟨frame.page, s.returned frame.page⟩
      return (.ok range.address,
        { s with leaves := update s.leaves p (update (s.leaves p) range.address (some leaf)) })
    else
      -- A rollback that fails is logged only.
      return (.error .outOfMemory, ← s.unmapRange p allocation range)

def perform (s : Vmem Process) : VmemStep Process → Option (Vmem Process)
  | .table op => (s.world.next op).map s.settle
  | .createFrame ptr page =>
    if page ∈ s.frames.map Frame.page then none
    else (s.world.next (.create ptr)).map fun world =>
      { s with world, frames := ⟨ptr, page⟩ :: s.frames }
  | .map p info allocation mapped =>
    -- The caller has a snapshot, and an object with a capability for frames is a frame.
    if info.ptr ∈ s.world.outstanding then
      (s.frames.find? fun f => f.ptr == info.ptr).bind fun frame =>
        (s.vmemMap p info frame allocation mapped).toOption.map Prod.snd
    else none
  | .mapOther p allocation options =>
    (AddressSpace.map allocation (s.spaces p) options).toOption.map fun result =>
      { s with spaces := update s.spaces p result.2 }
  | .unmap p allocation range => (s.unmapRange p allocation range).toOption
  | .unmapAll p allocation =>
    (s.unmapRange p allocation (s.spaces p).range).toOption.map fun s =>
      let space := { s.spaces p with entries := [], entriesVersion := 0 }
      { s with spaces := update s.spaces p space }

/-- No frame exists and nothing is mapped; the address spaces may be any. -/
def Initial (s : Vmem Process) : Prop :=
  s.world.Initial ∧ s.frames = [] ∧ ∀ p address, s.leaves p address = none

def system : System (Vmem Process) (VmemStep Process) := System.ofNext Initial perform

/-- A page that is mapped was not given back since. -/
def PagesKept (s : Vmem Process) : Prop :=
  ∀ p address leaf, s.leaves p address = some leaf → s.returned leaf.page = leaf.returned

def keepsMapped (s : Vmem Process) : VmemStep Process → Prop
  | .table op => ∀ frame ∈ s.frames,
      (∃ p address leaf, s.leaves p address = some leaf ∧ leaf.page = frame.page) →
        s.world.dropped op frame.ptr < (s.world.kernel.objects frame.ptr).refcount
  | _ => True

section

variable [Fintype Process] {s s' : Vmem Process}

structure Sound (s : Vmem Process) : Prop where
  accounted : s.world.Accounted
  alive : ∀ frame ∈ s.frames, (s.world.kernel.objects frame.ptr).destroyed = false
  pages : (s.frames.map Frame.page).Nodup
  leaf : ∀ p address leaf, s.leaves p address = some leaf →
    (∃ frame ∈ s.frames, frame.page = leaf.page) ∧ s.returned leaf.page = leaf.returned

variable {world : World Process}

/-- The frames that are mapped survive a table operation, and the others may go. -/
private theorem Sound.table {op : Operation Process} (h : s.Sound)
    (hkeep : keepsMapped s (.table op)) (hnext : s.world.next op = some world) :
    (s.settle world).Sound := by
  obtain ⟨ho, hperform⟩ := World.next_eq_some.mp hnext
  have haccounted : world.Accounted := (World.next_steps h.accounted hnext).accounted h.accounted
  refine ⟨haccounted, ?_, ?_, ?_⟩
  · intro frame hframe
    have halive := (mem_filter.mp hframe).2
    rw [Bool.not_eq_true'] at halive
    exact halive
  · exact h.pages.sublist (filter_sublist.map _)
  · intro p address leaf hleaf
    obtain ⟨⟨frame, hframe, hpage⟩, hreturned⟩ := h.leaf p address leaf hleaf
    have hlt := hkeep frame hframe ⟨p, address, leaf, hleaf, hpage.symm⟩
    have hle := World.perform_refcount h.accounted ho hperform frame.ptr
    have hcount : (world.kernel.objects frame.ptr).refcount ≠ 0 := by omega
    have halive : (world.kernel.objects frame.ptr).destroyed = false := by
      rw [Bool.eq_false_iff]
      exact fun hdestroyed => hcount ((haccounted.destroyed frame.ptr).mp hdestroyed)
    refine ⟨⟨frame, mem_filter.mpr ⟨hframe, by rw [halive]; rfl⟩, hpage⟩, ?_⟩
    -- No other frame has the page, so that it is not given back.
    have hnone : (s.frames.countP fun f =>
        (world.kernel.objects f.ptr).destroyed && f.page == leaf.page) = 0 := by
      rw [countP_eq_zero]
      intro f hf hgone
      obtain ⟨hdestroyed, hsame⟩ := Bool.and_eq_true_iff.mp hgone
      have hff : f = frame :=
        inj_on_of_nodup_map h.pages hf hframe ((beq_iff_eq.mp hsame).trans hpage.symm)
      rw [hff, halive] at hdestroyed
      cases hdestroyed
    show s.returned leaf.page + _ = leaf.returned
    rw [hnone]
    exact hreturned

private theorem Sound.createFrame {ptr page : ℕ} (h : s.Sound)
    (hpage : page ∉ s.frames.map Frame.page) (hnext : s.world.next (.create ptr) = some world) :
    Sound { s with world, frames := ⟨ptr, page⟩ :: s.frames } := by
  obtain ⟨ho, hperform⟩ := World.next_eq_some.mp hnext
  have haccounted : world.Accounted := (World.next_steps h.accounted hnext).accounted h.accounted
  have hworld : world = ⟨s.world.kernel.modifyObject ptr fun _ => {}, ptr :: s.world.outstanding⟩ :=
    (Except.ok.inj hperform).symm
  refine ⟨haccounted, ?_, ?_, ?_⟩
  · intro frame hframe
    show (world.kernel.objects frame.ptr).destroyed = false
    rw [hworld, Capabilities.Kernel.modifyObject_objects, update_apply]
    split
    · rfl
    · next hne =>
      cases mem_cons.mp hframe with
      | inl heq => exact absurd (congrArg Frame.ptr heq) hne
      | inr hold => exact h.alive frame hold
  · rw [map_cons]
    exact nodup_cons.mpr ⟨hpage, h.pages⟩
  · intro p address leaf hleaf
    obtain ⟨⟨frame, hframe, heq⟩, hreturned⟩ := h.leaf p address leaf hleaf
    exact ⟨⟨frame, mem_cons_of_mem _ hframe, heq⟩, hreturned⟩

omit [DecidableEq Process] in
private theorem Sound.leaves (h : s.Sound) (hworld : s'.world = s.world)
    (hframes : s'.frames = s.frames) (hreturned : s'.returned = s.returned)
    (hleaf : ∀ p address leaf, s'.leaves p address = some leaf →
      s.leaves p address = some leaf ∨
        ∃ frame ∈ s.frames, leaf = ⟨frame.page, s.returned frame.page⟩) : s'.Sound := by
  refine ⟨hworld ▸ h.accounted, ?_, hframes ▸ h.pages, ?_⟩
  · rw [hframes, hworld]
    exact h.alive
  · intro p address leaf hsome
    rw [hframes, hreturned]
    cases hleaf p address leaf hsome with
    | inl hold => exact h.leaf p address leaf hold
    | inr hnew =>
      obtain ⟨frame, hframe, heq⟩ := hnew
      rw [heq]
      exact ⟨⟨frame, hframe, rfl⟩, rfl⟩

variable {p : Process} {allocation : Allocation}
variable {range : VirtualRange}

omit [Fintype Process] in
private theorem unmapRange_keeps (h : s.unmapRange p allocation range = .ok s') :
    s'.world = s.world ∧ s'.frames = s.frames ∧ s'.returned = s.returned ∧
      ∀ q address leaf, s'.leaves q address = some leaf → s.leaves q address = some leaf := by
  rw [unmapRange] at h
  obtain ⟨⟨result, space⟩, -, hout⟩ := bind_eq_ok.mp h
  cases result with
  | error e =>
    cases hout
    exact ⟨rfl, rfl, rfl, fun _ _ _ => id⟩
  | ok batches =>
    cases hout
    refine ⟨rfl, rfl, rfl, ?_⟩
    intro q address leaf hleaf
    simp only [update_apply] at hleaf
    split at hleaf
    · next hq =>
      rw [unmapLeaves] at hleaf
      split at hleaf
      · cases hleaf
      · rw [hq]
        exact hleaf
    · exact hleaf

private theorem Sound.unmapRange (h : s.Sound)
    (hrun : s.unmapRange p allocation range = .ok s') : s'.Sound := by
  obtain ⟨hworld, hframes, hreturned, hleaf⟩ := unmapRange_keeps hrun
  exact h.leaves hworld hframes hreturned fun q address leaf hsome =>
    .inl (hleaf q address leaf hsome)

omit [DecidableEq Process] in
private theorem Sound.spaces (h : s.Sound) (spaces : Process → AddressSpace) :
    Sound { s with spaces } :=
  h.leaves rfl rfl rfl fun _ _ _ => .inl

private theorem Sound.vmemMap {info : SlotInfo} {frame : Frame} {mapped : Bool}
    {result : Except SyscallError ℕ} (h : s.Sound) (hframe : frame ∈ s.frames)
    (hrun : s.vmemMap p info frame allocation mapped = .ok (result, s')) : s'.Sound := by
  simp only [Vmem.vmemMap] at hrun
  split at hrun
  · cases hrun
    exact h
  split at hrun
  · cases hrun
    exact h
  obtain ⟨⟨outcome, space⟩, -, hout⟩ := bind_eq_ok.mp hrun
  cases outcome with
  | error e =>
    cases hout
    exact h.spaces _
  | ok range =>
    simp only at hout
    split at hout
    · cases hout
      refine h.leaves rfl rfl rfl fun q address leaf hsome => ?_
      simp only [update_apply] at hsome
      split at hsome
      · next hq =>
        rw [update_apply] at hsome
        split at hsome
        · cases hsome
          exact .inr ⟨frame, hframe, rfl⟩
        · rw [hq]
          exact .inl hsome
      · exact .inl hsome
    · obtain ⟨s₁, hunmap, heq⟩ := bind_eq_ok.mp hout
      cases heq
      exact (h.spaces _).unmapRange hunmap

omit [DecidableEq Process] in
private theorem Initial.sound (h : s.Initial) : s.Sound := by
  obtain ⟨hworld, hframes, hleaves⟩ := h
  refine ⟨hworld.accounted, ?_, ?_, ?_⟩
  · rw [hframes]
    intro frame hframe
    cases hframe
  · rw [hframes]
    exact nodup_nil
  · intro p address leaf hleaf
    rw [hleaves] at hleaf
    cases hleaf

private theorem Sound.perform {a : VmemStep Process} (h : s.Sound) (hkeep : keepsMapped s a)
    (hrun : s.perform a = some s') : s'.Sound := by
  cases a with
  | table op =>
    obtain ⟨world, hnext, heq⟩ := map_eq_some_iff.mp hrun
    rw [← heq]
    exact h.table hkeep hnext
  | createFrame ptr page =>
    simp only [Vmem.perform] at hrun
    split at hrun
    · cases hrun
    · next hpage =>
      obtain ⟨world, hnext, heq⟩ := map_eq_some_iff.mp hrun
      rw [← heq]
      exact h.createFrame hpage hnext
  | map p info allocation mapped =>
    simp only [Vmem.perform] at hrun
    split at hrun
    · obtain ⟨frame, hfind, hmap⟩ := bind_eq_some_iff.mp hrun
      obtain ⟨⟨result, s₁⟩, hvmem, heq⟩ := map_eq_some_iff.mp hmap
      cases heq
      exact h.vmemMap (mem_of_find?_eq_some hfind) (toOption_eq_some.mp hvmem)
    · cases hrun
  | mapOther p allocation options =>
    obtain ⟨result, -, heq⟩ := map_eq_some_iff.mp hrun
    rw [← heq]
    exact h.spaces _
  | unmap p allocation range => exact h.unmapRange (toOption_eq_some.mp hrun)
  | unmapAll p allocation =>
    obtain ⟨s₁, hunmap, heq⟩ := map_eq_some_iff.mp hrun
    rw [← heq]
    exact (h.unmapRange (toOption_eq_some.mp hunmap)).spaces _

/-- In a run in which no step gives up the last reference to a frame that is mapped, a page that is
mapped was not given back. -/
theorem mapped_pages_kept (h : system.Reachable keepsMapped s) : s.PagesKept := by
  have hsound : s.Sound := @System.Reachable.invariant _ _ system keepsMapped Sound
    (fun _ => Initial.sound) (fun _ _ _ => Sound.perform) s h
  intro p address leaf hleaf
  exact (hsound.leaf p address leaf hleaf).2

end

/-- No frame, and an address space for user memory that is empty. -/
def blank : Vmem Unit where
  world := World.blank Unit
  frames := []
  spaces := fun _ => { range := userMemoryRange, context := .user }
  leaves := fun _ _ => none
  returned := fun _ => 0

theorem blank_initial : blank.Initial :=
  ⟨World.blank_initial, rfl, fun _ _ => rfl⟩

/-- A frame is made, its capability inserted, and the frame mapped through a snapshot that is
released. -/
private def mapFrame : List (VmemStep Unit) :=
  [.createFrame 4096 7, .table (.insert () .frame 4096 Rights.all), .table (.get () 0),
    .map () ⟨.frame, 4096, Rights.all⟩ {} true, .table (.unref 4096)]

private def keepsFrames (s : Vmem Unit) : VmemStep Unit → Prop
  | .table op => ∀ frame ∈ s.frames,
      s.world.dropped op frame.ptr < (s.world.kernel.objects frame.ptr).refcount
  | _ => True

private instance (s : Vmem Unit) : (a : VmemStep Unit) → Decidable (keepsFrames s a)
  | .table op => inferInstanceAs (Decidable (∀ frame ∈ s.frames,
      s.world.dropped op frame.ptr < (s.world.kernel.objects frame.ptr).refcount))
  | .createFrame .. | .map .. | .mapOther .. | .unmap .. | .unmapAll .. =>
    inferInstanceAs (Decidable True)

private theorem keepsMapped_of_keepsFrames (s : Vmem Unit) (a : VmemStep Unit)
    (h : keepsFrames s a) : keepsMapped s a := by
  cases a with
  | table op => exact fun frame hframe _ => h frame hframe
  | createFrame | map | mapOther | unmap | unmapAll => trivial

open System

theorem mapped_page_kept : ∃ s : Vmem Unit,
    system.Reachable keepsMapped s ∧ s.leaves () 4096 = some ⟨7, 0⟩ ∧ s.PagesKept := by
  have hrun : (runNext (restrict keepsFrames perform) blank mapFrame).map
      (fun s => s.leaves () 4096) = some (some ⟨7, 0⟩) := by decide
  obtain ⟨s, hs, hleaf⟩ := map_eq_some_iff.mp hrun
  have hblank : (ofNext Initial perform).Reachable keepsFrames blank := .init blank_initial
  have hreach : system.Reachable keepsMapped s :=
    (restrict_reachable mapFrame hblank hs).mono keepsMapped_of_keepsFrames
  exact ⟨s, hreach, hleaf, mapped_pages_kept hreach⟩

/-- The capability of a mapped frame is removed, and the page is given back. -/
theorem mapped_page_returned : ∃ s : Vmem Unit,
    System.runNext perform blank (mapFrame ++ [.table (.remove () 0)]) = some s ∧
    s.leaves () 4096 = some ⟨7, 0⟩ ∧ s.returned 7 = 1 ∧ ¬ s.PagesKept := by
  have hrun : (runNext perform blank (mapFrame ++ [.table (.remove () 0)])).map
      (fun s => (s.leaves () 4096, s.returned 7)) = some (some ⟨7, 0⟩, 1) := by decide
  obtain ⟨s, hs, hstate⟩ := map_eq_some_iff.mp hrun
  obtain ⟨hleaf, hreturned⟩ := Prod.mk.inj hstate
  refine ⟨s, hs, hleaf, hreturned, fun hkept => ?_⟩
  have hzero : s.returned 7 = 0 := hkept () 4096 ⟨7, 0⟩ hleaf
  omega

end Vmem

end Innigkeit.User.Handlers

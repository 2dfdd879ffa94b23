import Innigkeit.Wm.Server

/-!
What the display server does with arbitrary clients. In every state that a
sequence of messages can reach, a call of `handleOne` neither traps nor fails for
another reason than the platform exactly if the request is tolerable: it names a
surface that is there, the table has room for a new one, and its coordinates stay
in range. Whatever is presented lies on the screen.
-/

namespace Innigkeit.Wm

open Zig Transition List Option Except Rect StackItem Request

namespace Stack

variable {Item : Type} {cap : ℕ} [StackItem Item] {self : Stack Item cap} {id : SurfaceId}
variable {item : Item}

theorem mem_of_find (h : self.find id = some item) : item ∈ self.items := by
  obtain ⟨i, -, hi⟩ := bind_eq_some_iff.mp h
  exact mem_of_getElem? hi

theorem forall_modify {P : Item → Prop} {f : Item → Item} (h : ∀ item ∈ self.items, P item)
    (hf : ∀ item ∈ self.items, P (f item)) : ∀ item ∈ (self.modify id f).items, P item := by
  intro item hitem
  unfold modify at hitem
  split at hitem
  next i _ =>
    obtain ⟨j, hj⟩ := mem_iff_getElem?.mp hitem
    rw [getElem?_modify] at hj
    cases hold : self.items[j]? with
    | none => simp [hold] at hj
    | some old =>
      have hmem := mem_of_getElem? hold
      rw [hold, Option.map_eq_map, map_some, some.injEq] at hj
      subst hj
      split
      · exact hf old hmem
      · exact h old hmem
  next => exact h item hitem

theorem remove_of_find (h : self.find id = some item) :
    ∃ stack, self.remove id = some (rect item, stack) ∧
      ∀ other ∈ stack.items, other ∈ self.items := by
  obtain ⟨i, hi, hitem⟩ := bind_eq_some_iff.mp h
  simp only [remove, hi, hitem]
  exact ⟨_, rfl, fun other hother => mem_of_mem_eraseIdx hother⟩

theorem remove_of_missing (h : self.find id = none) : self.remove id = none := by
  unfold remove
  split
  next i hi =>
    rw [find, hi, bind_some] at h
    rw [h]
  next => rfl

end Stack

namespace Compositor

variable {maxSurfaces : ℕ} {self : Compositor maxSurfaces}

structure Valid (compositor : Compositor maxSurfaces) : Prop where
  sized : ∀ s ∈ compositor.stack.items, s.rect.Sized
  width : 0 ≤ compositor.scanout.w ∧ InI32 compositor.scanout.w
  height : 0 ≤ compositor.scanout.h ∧ InI32 compositor.scanout.h

def translated (rect damage : Rect) : Rect :=
  { damage with x := rect.x + damage.x, y := rect.y + damage.y }

/-- The damage in screen coordinates is in range and not too far from the surface. -/
def CommitFits (rect damage : Rect) : Prop :=
  InI32 (rect.x + damage.x) ∧ InI32 (rect.y + damage.y) ∧ (translated rect damage).Near rect

/-- An empty surface moves freely, the others as far as old and new place fit in one rectangle. -/
def MoveFits (rect : Rect) (x y : ℤ) : Prop :=
  rect.isEmpty = true ∨ Spans rect { rect with x, y }

def Tolerates (self : Compositor maxSurfaces) : Request → Prop
  | .connect _ => True
  | .createSurface => self.stack.items.length < maxSurfaces ∧ self.nextId + 1 < 2 ^ 32
  | .attachBuffer surface _ _ _ _ => ∃ s, self.stack.find surface = some s
  | .commit surface damage => ∃ s, self.stack.find surface = some s ∧ CommitFits s.rect damage
  | .setPosition surface x y => ∃ s, self.stack.find surface = some s ∧ MoveFits s.rect x y
  | .destroySurface surface => ∃ s, self.stack.find surface = some s

def Served (self : Compositor maxSurfaces) : Outcome → Prop
  | .damage rect => rect.isEmpty = false → rect.Inside self.scanout.w self.scanout.h
  | _ => True

theorem satI32_nonneg (v : BitVec 32) : 0 ≤ satI32 v ∧ InI32 (satI32 v) := by
  unfold satI32 InI32
  omega

variable {x y : ℤ} {id : SurfaceId} {s : ServerSurface} {damage : Rect}

theorem moved_sized {rect : Rect} (h : rect.Sized) (hx : InI32 x) (hy : InI32 y) :
    Sized { rect with x, y } :=
  ⟨⟨hx, hy, h.w, h.h⟩, h.w_nonneg, h.h_nonneg⟩

theorem Valid.clamped (hv : self.Valid) {rect : Rect} (h : rect.Sized) :
    ∃ shown, rect.clampedToSize self.scanout.w self.scanout.h = .ok shown ∧
      self.Served (.damage shown) :=
  ⟨_, clampedToSize_of_sized h hv.width.1 hv.height.1,
    onScreen_inside hv.width.2 hv.height.2⟩

open Stack

theorem Valid.modify (hv : self.Valid) (id : SurfaceId) {f : ServerSurface → ServerSurface}
    (hf : ∀ s : ServerSurface, s.rect.Sized → (f s).rect.Sized) :
    Valid { self with stack := self.stack.modify id f } :=
  ⟨forall_modify hv.sized fun s hs => hf s (hv.sized s hs), hv.width, hv.height⟩

/-- A result that is passed on to the client loop, with the compositor it leaves. -/
def Goes (self : Compositor maxSurfaces)
    (x : Checked (Except Error (Rect × Compositor maxSurfaces))) : Prop :=
  ∃ rect compositor, x = .ok (.ok (rect, compositor)) ∧ self.Served (.damage rect) ∧
    compositor.Valid ∧ compositor.scanout = self.scanout

/-- A trap, or an error of the compositor. -/
def Fails {α : Type} (x : Checked (Except Error α)) : Prop :=
  (∃ trap, x = .error trap) ∨ ∃ e, x = .ok (.error e)

theorem commit_goes (hv : self.Valid) (hs : self.stack.find id = some s) (hd : damage.Wide)
    (hfits : CommitFits s.rect damage) : self.Goes (self.commit id damage) := by
  obtain ⟨hx, hy, hnear⟩ := hfits
  have hsized := hv.sized s (mem_of_find hs)
  have hwide : (translated s.rect damage).Wide := ⟨hx, hy, hd.w, hd.h⟩
  have hclip := intersect_of_near hwide hnear
  have hclamp := intersect_clamped hwide hsized.toWide hnear hv.width.1 hv.height.1
  refine ⟨((translated s.rect damage).overlap s.rect).onScreen self.scanout.w self.scanout.h, _, ?_,
    onScreen_inside hv.width.2 hv.height.2,
    hv.modify id (f := fun s => { s with mapped := true }) (fun _ h => h), rfl⟩
  simp only [translated] at hclip hclamp ⊢
  simp only [commit, hs, checkedI32_of hx, checkedI32_of hy, hclip, hclamp, ok_bind, pure_eq_ok]

theorem commit_fails (hs : self.stack.find id = some s) (hfits : ¬ CommitFits s.rect damage) :
    Fails (self.commit id damage) := by
  refine .inl ⟨.overflow, ?_⟩
  by_cases hx : InI32 (s.rect.x + damage.x)
  · by_cases hy : InI32 (s.rect.y + damage.y)
    · have hclip := intersect_traps fun hnear => hfits ⟨hx, hy, hnear⟩
      simp only [translated] at hclip
      simp only [commit, hs, checkedI32_of hx, checkedI32_of hy, hclip, ok_bind, error_bind]
    · simp only [commit, hs, checkedI32_of hx, checkedI32_of_not hy, ok_bind, error_bind]
  · simp only [commit, hs, checkedI32_of_not hx, error_bind]

theorem setPosition_of_union {shown : Rect} (hs : self.stack.find id = some s)
    (hunion : s.rect.boundingUnion { s.rect with x, y } = .ok damage)
    (hshown : damage.clampedToSize self.scanout.w self.scanout.h = .ok shown) :
    self.setPosition id x y = .ok (.ok (shown, { self with
      stack := self.stack.modify id fun s => { s with rect := { s.rect with x, y } } })) := by
  simp only [setPosition, moveTo, hs, rect, withOrigin, hunion, hshown,
    ok_bind, pure_eq_ok]

theorem setPosition_goes (hv : self.Valid) (hs : self.stack.find id = some s) (hx : InI32 x)
    (hy : InI32 y) (hfits : MoveFits s.rect x y) : self.Goes (self.setPosition id x y) := by
  have hsized := hv.sized s (mem_of_find hs)
  have hmoved := moved_sized hsized hx hy
  have hmodified : Valid { self with
      stack := self.stack.modify id fun s => { s with rect := { s.rect with x, y } } } :=
    hv.modify id fun _ h => moved_sized h hx hy
  -- the union is the new place of an empty surface, and the hull of both places otherwise
  cases hempty : s.rect.isEmpty with
  | true =>
    have hunion : s.rect.boundingUnion { s.rect with x, y } = .ok { s.rect with x, y } := by
      rw [boundingUnion, hempty, if_pos rfl]
    obtain ⟨shown, hshown, hserved⟩ := hv.clamped hmoved
    exact ⟨_, _, setPosition_of_union hs hunion hshown, hserved, hmodified, rfl⟩
  | false =>
    have hspans : Spans s.rect { s.rect with x, y } := by
      rcases hfits with h | h
      · rw [hempty] at h
        cases h
      · exact h
    have hunion := boundingUnion_of_spans hsized.toWide hempty
      (b := { s.rect with x, y }) hempty hspans
    obtain ⟨shown, hshown, hserved⟩ := hv.clamped (hull_sized hsized hmoved hspans)
    exact ⟨_, _, setPosition_of_union hs hunion hshown, hserved, hmodified, rfl⟩

theorem setPosition_fails (hs : self.stack.find id = some s) (hfits : ¬ MoveFits s.rect x y) :
    Fails (self.setPosition id x y) := by
  have hempty : s.rect.isEmpty = false := by
    rw [← Bool.not_eq_true]
    exact fun h => hfits (.inl h)
  have hunion := boundingUnion_traps hempty (b := { s.rect with x, y }) hempty
    (fun h => hfits (.inr h))
  refine .inl ⟨.overflow, ?_⟩
  simp only [setPosition, moveTo, hs, rect, withOrigin, hunion, error_bind]

theorem destroy_goes (hv : self.Valid) (hs : self.stack.find id = some s) :
    self.Goes (self.destroy id) := by
  obtain ⟨stack, hremove, hsub⟩ := remove_of_find hs
  obtain ⟨shown, hshown, hserved⟩ := hv.clamped (hv.sized s (mem_of_find hs))
  refine ⟨shown, { self with stack }, ?_, hserved,
    ⟨fun t ht => hv.sized t (hsub t ht), hv.width, hv.height⟩, rfl⟩
  simp only [destroy, hremove, rect, hshown, ok_bind, pure_eq_ok]

/-- The result of `apply` when the server can act on it. -/
def Applies (self : Compositor maxSurfaces)
    (x : Checked (Except Error (Outcome × Compositor maxSurfaces))) : Prop :=
  ∃ outcome compositor, x = .ok (.ok (outcome, compositor)) ∧ self.Served outcome ∧
    compositor.Valid ∧ compositor.scanout = self.scanout

theorem Goes.applies {x : Checked (Except Error (Rect × Compositor maxSurfaces))}
    (h : self.Goes x) : self.Applies (damageOutcome <$> x) := by
  obtain ⟨rect, compositor, rfl, hserved, hv, hsame⟩ := h
  exact ⟨_, _, rfl, hserved, hv, hsame⟩

theorem Fails.outcome {x : Checked (Except Error (Rect × Compositor maxSurfaces))}
    (h : Fails x) : Fails (damageOutcome <$> x) := by
  rcases h with ⟨trap, rfl⟩ | ⟨e, rfl⟩
  · exact .inl ⟨trap, rfl⟩
  · exact .inr ⟨e, rfl⟩

theorem createSurface_applies (hv : self.Valid) (client : ℕ)
    (hroom : self.stack.items.length < maxSurfaces) (hid : self.nextId + 1 < 2 ^ 32) :
    self.Applies (self.apply client .createSurface) := by
  simp only [apply, createSurface, Stack.add, dif_neg hroom.ne, add_of_lt hid, ok_bind,
    pure_eq_ok, Except.map]
  refine ⟨_, _, rfl, trivial, ⟨?_, hv.width, hv.height⟩, rfl⟩
  intro s hs
  rw [mem_append, mem_singleton] at hs
  rcases hs with hs | rfl
  · exact hv.sized s hs
  · have hzero : InI32 0 := by decide
    exact ⟨⟨hzero, hzero, hzero, hzero⟩, le_refl _, le_refl _⟩

theorem createSurface_fails (client : ℕ)
    (h : ¬ (self.stack.items.length < maxSurfaces ∧ self.nextId + 1 < 2 ^ 32)) :
    Fails (self.apply client .createSurface) := by
  by_cases hroom : self.stack.items.length = maxSurfaces
  · refine .inr ⟨.full, ?_⟩
    simp only [apply, createSurface, Stack.add, dif_pos hroom, ok_bind, pure_eq_ok, Except.map]
  · have hid : ¬ self.nextId + 1 < 2 ^ 32 := by
      have := self.stack.len_le
      omega
    refine .inl ⟨.overflow, ?_⟩
    simp only [apply, createSurface, Stack.add, dif_neg hroom, Zig.add, if_neg hid, error_bind]

theorem attach_applies (hv : self.Valid) (client : ℕ) (hs : self.stack.find id = some s)
    (buffer : Handle) (width height format : BitVec 32) :
    self.Applies (self.apply client (.attachBuffer id buffer width height format)) := by
  simp only [apply, attach, hs, Except.map]
  refine ⟨_, _, rfl, trivial, hv.modify id fun t ht => ?_, rfl⟩
  obtain ⟨hw, hwide⟩ := satI32_nonneg width
  obtain ⟨hh, hhigh⟩ := satI32_nonneg height
  exact ⟨⟨ht.x, ht.y, hwide, hhigh⟩, hw, hh⟩

variable {req : Request}

theorem apply_of_tolerates (hv : self.Valid) (client : ℕ) (hw : req.Wide)
    (h : self.Tolerates req) : self.Applies (self.apply client req) := by
  cases req with
  | connect endpoint => exact ⟨_, _, rfl, trivial, hv, rfl⟩
  | createSurface => exact createSurface_applies hv client h.1 h.2
  | attachBuffer surface buffer width height format =>
    obtain ⟨s, hs⟩ := h
    exact attach_applies hv client hs buffer width height format
  | commit surface damage =>
    obtain ⟨s, hs, hfits⟩ := h
    exact (commit_goes hv hs hw hfits).applies
  | setPosition surface x y =>
    obtain ⟨s, hs, hfits⟩ := h
    exact (setPosition_goes hv hs hw.1 hw.2 hfits).applies
  | destroySurface surface =>
    obtain ⟨s, hs⟩ := h
    exact (destroy_goes hv hs).applies

theorem missing_fails (h : self.stack.find id = none) :
    (∀ damage, Fails (self.commit id damage)) ∧ (∀ x y, Fails (self.setPosition id x y)) ∧
      Fails (self.destroy id) := by
  refine ⟨fun damage => .inr ⟨.noSurface, ?_⟩, fun x y => .inr ⟨.noSurface, ?_⟩,
    .inr ⟨.noSurface, ?_⟩⟩
  · simp only [commit, h]
  · simp only [setPosition, moveTo, h, ok_bind, pure_eq_ok]
  · simp only [destroy, remove_of_missing h]

theorem apply_fails (client : ℕ) (h : ¬ self.Tolerates req) : Fails (self.apply client req) := by
  cases req with
  | connect endpoint => exact absurd trivial h
  | createSurface => exact createSurface_fails client h
  | attachBuffer surface buffer width height format =>
    cases hs : self.stack.find surface with
    | none => exact .inr ⟨.noSurface, by simp only [apply, attach, hs, Except.map]⟩
    | some s => exact absurd ⟨s, hs⟩ h
  | commit surface damage =>
    cases hs : self.stack.find surface with
    | none => exact ((missing_fails hs).1 damage).outcome
    | some s => exact (commit_fails hs fun hfits => h ⟨s, hs, hfits⟩).outcome
  | setPosition surface x y =>
    cases hs : self.stack.find surface with
    | none => exact ((missing_fails hs).2.1 x y).outcome
    | some s => exact (setPosition_fails hs fun hfits => h ⟨s, hs, hfits⟩).outcome
  | destroySurface surface =>
    cases hs : self.stack.find surface with
    | none => exact (missing_fails hs).2.2.outcome
    | some s => exact absurd ⟨s, hs⟩ h

end Compositor

namespace Server

variable {PlatformError : Type} {maxSurfaces maxClients : ℕ}

open Compositor

/-- The call returns, fails only if the platform does, drops what it cannot read and presents
only what is on the screen. -/
def Survives (self : Server maxSurfaces maxClients) (platform : Platform PlatformError) : Prop :=
  ∃ handled, self.handleOne platform = .ok handled ∧
    (∀ e, handled.result = .error e → ∃ error, e = .platform error) ∧
    (∀ inc, platform.recv = .ok inc → maxClients ≤ inc.client ∨ decode inc.msg = none →
      handled = { server := self }) ∧
    ∀ rect ∈ handled.presented,
      rect.Inside self.compositor.scanout.w self.compositor.scanout.h

/-- The compositor tolerates the request, if one arrives that the server can read. -/
def Tolerable (self : Server maxSurfaces maxClients) (platform : Platform PlatformError) : Prop :=
  ∀ inc req, platform.recv = .ok inc → inc.client < maxClients →
    decode inc.msg = some req → self.compositor.Tolerates req

theorem announce_result (self : Server maxSurfaces maxClients) (platform : Platform PlatformError)
    (client : Fin maxClients) (id : SurfaceId) :
    (∀ e, (self.announce platform client id).result = .error e → ∃ error, e = .platform error) ∧
      (self.announce platform client id).presented = [] ∧
      (self.announce platform client id).server = self := by
  unfold announce
  dsimp only
  split
  · simp
  · split
    · simp
    · cases platform.sendEvent <;> simp [Except.mapError]

variable {self : Server maxSurfaces maxClients} {platform : Platform PlatformError}
variable {req : Request}

theorem dispatch_of_applies (platform : Platform PlatformError) (client : Fin maxClients)
    (h : self.compositor.Applies (self.compositor.apply client req)) :
    ∃ handled, self.dispatch platform client req = .ok handled ∧
      (∀ e, handled.result = .error e → ∃ error, e = .platform error) ∧
      (∀ rect ∈ handled.presented,
        rect.Inside self.compositor.scanout.w self.compositor.scanout.h) ∧
      handled.server.compositor.Valid ∧
      handled.server.compositor.scanout = self.compositor.scanout := by
  obtain ⟨outcome, compositor, happly, hserved, hv, hsame⟩ := h
  cases outcome with
  | created id =>
    obtain ⟨hresult, hpresented, hserver⟩ :=
      announce_result { self with compositor } platform client id
    refine ⟨announce { self with compositor } platform client id, ?_, hresult, ?_, ?_, ?_⟩
    · simp only [dispatch, happly, ok_bind, pure_eq_ok]
    · simp [hpresented]
    · rw [hserver]
      exact hv
    · rw [hserver]
      exact hsame
  | damage rect =>
    refine ⟨_, by simp only [dispatch, happly, ok_bind, pure_eq_ok]; rfl,
      by simp, ?_, hv, hsame⟩
    intro shown hshown
    cases hempty : rect.isEmpty with
    | true => simp [hempty] at hshown
    | false =>
      simp only [hempty, Bool.false_eq_true, if_false, mem_singleton] at hshown
      exact hshown ▸ hserved hempty
  | none =>
    exact ⟨_, by simp only [dispatch, happly, ok_bind, pure_eq_ok]; rfl,
      by simp, by simp, hv, hsame⟩

theorem dispatch_of_fails (platform : Platform PlatformError) (client : Fin maxClients)
    (h : Fails (self.compositor.apply client req)) :
    (∃ trap, self.dispatch platform client req = .error trap) ∨
      ∃ e, self.dispatch platform client req =
        .ok { server := self, result := .error (.compositor e) } := by
  rcases h with ⟨trap, h⟩ | ⟨e, h⟩
  · exact .inl ⟨trap, by simp only [dispatch, h, error_bind]⟩
  · exact .inr ⟨e, by simp only [dispatch, h, ok_bind, pure_eq_ok]⟩

theorem handleOne_of_tolerable (hv : self.compositor.Valid) (h : self.Tolerable platform) :
    ∃ handled, self.handleOne platform = .ok handled ∧
      (∀ e, handled.result = .error e → ∃ error, e = .platform error) ∧
      (∀ inc, platform.recv = .ok inc → maxClients ≤ inc.client ∨ decode inc.msg = none →
        handled = { server := self }) ∧
      (∀ rect ∈ handled.presented,
        rect.Inside self.compositor.scanout.w self.compositor.scanout.h) := by
  unfold handleOne
  cases hrecv : platform.recv with
  | error e => exact ⟨_, rfl, by simp, by simp, by simp⟩
  | ok inc =>
    dsimp only
    by_cases hclient : inc.client < maxClients
    · rw [dif_pos hclient]
      cases hreq : decode inc.msg with
      | none => exact ⟨_, rfl, by simp, by simp, by simp⟩
      | some req =>
        have hkept : ∀ inc', (Except.ok inc : Except PlatformError Incoming) = .ok inc' →
            ¬ (maxClients ≤ inc'.client ∨ decode inc'.msg = none) := by
          rintro inc' hinc
          cases hinc
          rw [hreq]
          simpa using hclient
        obtain ⟨handled, hdispatch, hresult, hpresented, -⟩ := dispatch_of_applies platform
          ⟨inc.client, hclient⟩ (apply_of_tolerates hv inc.client (decode_wide hreq)
            (h inc req hrecv hclient hreq))
        cases req with
        | connect endpoint =>
          exact ⟨_, rfl, by simp, fun inc' hinc hbad => absurd hbad (hkept inc' hinc),
            by simp⟩
        | _ => exact ⟨handled, hdispatch, hresult,
            fun inc' hinc hbad => absurd hbad (hkept inc' hinc), hpresented⟩
    · rw [dif_neg hclient]
      exact ⟨_, rfl, by simp, by simp, by simp⟩

theorem not_survives_of_not_tolerable (h : ¬ self.Tolerable platform) :
    ¬ self.Survives platform := by
  rintro ⟨handled, hhandled, hresult, -⟩
  apply h
  intro inc req hrecv hclient hreq
  by_contra htol
  have hdispatch : self.handleOne platform = self.dispatch platform ⟨inc.client, hclient⟩ req := by
    cases req with
    | connect endpoint => exact absurd trivial htol
    | _ => simp only [handleOne, hrecv, dif_pos hclient, hreq]
  rw [hdispatch] at hhandled
  rcases dispatch_of_fails platform ⟨inc.client, hclient⟩ (apply_fails inc.client htol) with
    ⟨trap, hfail⟩ | ⟨e, hfail⟩
  · rw [hhandled] at hfail
    cases hfail
  · rw [hhandled, ok.injEq] at hfail
    subst hfail
    obtain ⟨error, herror⟩ := hresult _ rfl
    cases herror

/-! ### Runs -/

/-- A server for a screen whose size is not negative. -/
def Initial (self : Server maxSurfaces maxClients) : Prop :=
  ∃ width height, (0 ≤ width ∧ InI32 width) ∧ (0 ≤ height ∧ InI32 height) ∧
    self = init width height

/-- Calls one after the other, whatever the platform answers and whether they fail or not. -/
def system (PlatformError : Type) (maxSurfaces maxClients : ℕ) :
    System (Server maxSurfaces maxClients) (Platform PlatformError) :=
  System.ofNext Initial fun self platform =>
    ((self.handleOne platform).map (·.server)).toOption

theorem handleOne_valid (hv : self.compositor.Valid)
    {handled : Handled PlatformError maxSurfaces maxClients}
    (h : self.handleOne platform = .ok handled) : handled.server.compositor.Valid := by
  unfold handleOne at h
  cases hrecv : platform.recv with
  | error e =>
    simp only [hrecv, ok.injEq] at h
    exact h ▸ hv
  | ok inc =>
    simp only [hrecv] at h
    by_cases hclient : inc.client < maxClients
    · rw [dif_pos hclient] at h
      cases hreq : decode inc.msg with
      | none =>
        simp only [hreq, ok.injEq] at h
        exact h ▸ hv
      | some req =>
        -- a request is served, or it traps or leaves the server as it was
        by_cases htol : self.compositor.Tolerates req
        · obtain ⟨handled', hdispatch, -, -, hvalid, -⟩ := dispatch_of_applies platform
            ⟨inc.client, hclient⟩ (apply_of_tolerates hv inc.client (decode_wide hreq) htol)
          cases req with
          | connect endpoint =>
            simp only [hreq, ok.injEq] at h
            exact h ▸ hv
          | _ =>
            simp only [hreq, hdispatch, ok.injEq] at h
            exact h ▸ hvalid
        · have hfail := dispatch_of_fails platform ⟨inc.client, hclient⟩
            (apply_fails inc.client htol)
          cases req with
          | connect endpoint => exact absurd trivial htol
          | _ =>
            simp only [hreq] at h
            rcases hfail with ⟨trap, hfail⟩ | ⟨e, hfail⟩
            · rw [h] at hfail
              cases hfail
            · rw [h, ok.injEq] at hfail
              exact hfail ▸ hv
    · rw [dif_neg hclient, ok.injEq] at h
      exact h ▸ hv

theorem reachable_valid (h : (system PlatformError maxSurfaces maxClients).Reachable anyStep self) :
    self.compositor.Valid := by
  refine @System.Reachable.invariant _ _ (system PlatformError maxSurfaces maxClients) anyStep
    (fun s => s.compositor.Valid) ?_ ?_ self h
  · rintro s ⟨width, height, hwidth, hheight, rfl⟩
    exact ⟨by simp [init, Compositor.init, Stack.empty], hwidth, hheight⟩
  · intro s platform s' hv _ hstep
    have hmap := toOption_eq_some.mp hstep
    cases hcall : s.handleOne platform with
    | error trap =>
      rw [hcall] at hmap
      cases hmap
    | ok handled =>
      rw [hcall] at hmap
      cases hmap
      exact handleOne_valid hv hcall

/-- After any sequence of messages, the server survives a call exactly if it can tolerate the
request. -/
theorem survives_iff (PlatformError : Type) (maxSurfaces maxClients : ℕ)
    (self : Server maxSurfaces maxClients) (platform : Platform PlatformError)
    (h : (system PlatformError maxSurfaces maxClients).Reachable anyStep self) :
    self.Survives platform ↔ self.Tolerable platform := by
  refine ⟨fun hs => ?_, handleOne_of_tolerable (reachable_valid h)⟩
  by_contra htol
  exact not_survives_of_not_tolerable htol hs

def delivering (client : ℕ) (msg : Message) : Platform Unit :=
  { recv := .ok { client, msg }, createFrameNotify := .ok 1000, sendEvent := .ok () }

def createMessage : Message := { tag := 2 }

/-- `set_position` of the surface 1 to the right end of the coordinates. -/
def farRight : Message := { tag := 5, words := #v[1, 0x7FFFFFFF, 0, 0] }

/-- `commit` of the surface 1 with a damage that begins one pixel right of its corner. -/
def commitBeside : Message :=
  { tag := 4, words := #v[1, 1, 0x0000000100000001, 0] }

def destroyMissing : Message := { tag := 6, words := #v[7, 0, 0, 0] }

theorem init_reachable {width height : ℤ} (hw : 0 ≤ width ∧ InI32 width)
    (hh : 0 ≤ height ∧ InI32 height) : (system Unit maxSurfaces maxClients).Reachable anyStep
      (init width height : Server maxSurfaces maxClients) :=
  .init ⟨width, height, hw, hh, rfl⟩

theorem survives_create :
    (init 800 600 : Server 8 4).Survives (delivering 0 createMessage) ∧
      (init 800 600 : Server 8 4).Tolerable (delivering 0 createMessage) := by
  have htol : (init 800 600 : Server 8 4).Tolerable (delivering 0 createMessage) := by
    intro inc req hinc hclient hreq
    cases hinc
    cases hreq
    exact ⟨by decide, by decide⟩
  exact ⟨(survives_iff Unit 8 4 _ _ (init_reachable (by decide) (by decide))).mpr htol, htol⟩

/-- A request for a surface that is not there ends the call with an error, and one whose damage
leaves the coordinates traps. -/
theorem clients_break_server :
    ((init 800 600 : Server 8 4).handleOne (delivering 0 destroyMissing)).map (·.result) =
        .ok (.error (.compositor .noSurface)) ∧
      ∃ self : Server 8 4, (system Unit 8 4).Reachable anyStep self ∧
        (self.handleOne (delivering 0 commitBeside)).map (·.result) = .error .overflow := by
  refine ⟨rfl, ?_⟩
  have hrun : (System.runNext (fun (self : Server 8 4) platform =>
      ((self.handleOne platform).map (·.server)).toOption) (init 800 600)
      [delivering 0 createMessage, delivering 0 farRight]).map
      (fun self => (self.handleOne (delivering 0 commitBeside)).map (·.result)) =
        some (.error .overflow) := by
    decide +kernel
  obtain ⟨self, hself, htrap⟩ := map_eq_some_iff.mp hrun
  exact ⟨self, System.runNext_reachable _ (init_reachable (by decide) (by decide)) hself, htrap⟩

end Server

end Innigkeit.Wm

import Innigkeit.Wm.Survival

/-!
What a request of one client does to the surfaces of the others. No operation
compares the client with the owner of the surface that the request names, so a
request leaves the other clients alone exactly if that surface is not there, is
the client's own, or already is what the request makes of it.
-/

namespace Innigkeit.Wm

open Zig List Request

namespace Stack

variable {Item : Type} {cap : ℕ} [StackItem Item] {self : Stack Item cap} {id : SurfaceId}
  {item : Item}

theorem split_of_find (h : self.find id = some item) :
    ∃ below above, self.items = below ++ item :: above ∧
      (∀ f, (self.modify id f).items = below ++ f item :: above) ∧
      (self.remove id).map (·.2.items) = some (below ++ above) := by
  obtain ⟨i, hi, hitem⟩ := Option.bind_eq_some_iff.mp h
  obtain ⟨hlt, hget⟩ := List.getElem?_eq_some_iff.mp hitem
  refine ⟨self.items.take i, self.items.drop (i + 1), ?_, fun f => ?_, ?_⟩
  · rw [← hget, getElem_cons_drop, take_append_drop]
  · rw [modify, hi]
    simp only [modify_eq_take_cons_drop hlt, hget]
  · simp only [remove, hi, hitem, Option.map_some, eraseIdx_eq_take_drop_succ]

theorem modify_of_missing (h : self.find id = none) (f : Item → Item) :
    self.modify id f = self := by
  unfold modify
  split
  next i hi =>
    obtain ⟨hlt, -⟩ := findIdx?_eq_some_iff_getElem.mp hi
    rw [find, hi, Option.bind_some, getElem?_eq_getElem hlt] at h
    exact absurd h (Option.some_ne_none _)
  next => rfl

end Stack

/-- What a request may change only of the client's own surfaces. -/
def ServerSurface.view (s : ServerSurface) : SurfaceId × ℕ × Rect × Handle × Bool :=
  (s.id, s.client, s.rect, s.buffer, s.mapped)

def foreignTo (client : ℕ) (items : List ServerSurface) :=
  (items.filter (·.client ≠ client)).map (·.view)

namespace Request

def surface? : Request → Option SurfaceId
  | .attachBuffer surface _ _ _ _ | .commit surface _ | .setPosition surface _ _
  | .destroySurface surface => some surface
  | _ => none

def Idle (s : ServerSurface) : Request → Prop
  | .connect _ | .createSurface => True
  | .attachBuffer _ buffer width height _ =>
    (satI32 width = s.rect.w ∧ satI32 height = s.rect.h) ∧ buffer = s.buffer
  | .commit _ _ => s.mapped
  | .setPosition _ x y => x = s.rect.x ∧ y = s.rect.y
  | .destroySurface _ => False

end Request

namespace Compositor

variable {maxSurfaces : ℕ}

/-- The stack once the writes of a request are done. They come before the arithmetic on the damage,
so a request that traps has made them too. -/
def written (self : Compositor maxSurfaces) (client : ℕ) : Request → Stack ServerSurface maxSurfaces
  | .connect _ => self.stack
  | .createSurface =>
    (self.stack.add {
      id := .ofNat 32 self.nextId, rect := {}, mapped := false, buffer := invalidHandle,
      bufWidth := 0, bufHeight := 0, format := 0, client }).getD self.stack
  | .attachBuffer surface buffer width height format =>
    self.stack.modify surface fun s => { s with
      buffer, bufWidth := width, bufHeight := height, format
      rect := { s.rect with w := satI32 width, h := satI32 height } }
  | .commit surface _ => self.stack.modify surface fun s => { s with mapped := true }
  | .setPosition surface x y => self.stack.modify surface fun s => StackItem.withOrigin s x y
  | .destroySurface surface => ((self.stack.remove surface).map (·.2)).getD self.stack

def left (self : Compositor maxSurfaces) (client : ℕ) (req : Request) : List ServerSurface :=
  match self.apply client req with
  | .ok (.ok (_, compositor)) => compositor.stack.items
  | .ok (.error _) => self.stack.items
  | .error _ => (self.written client req).items

/-- The surface that the request names is not there, is the client's own, or stays as it is. -/
def Spares (self : Compositor maxSurfaces) (client : ℕ) (req : Request) : Prop :=
  ∀ id s, req.surface? = some id → self.stack.find id = some s → s.client = client ∨ req.Idle s

variable {self : Compositor maxSurfaces} {client : ℕ} {req : Request}

open Stack

theorem left_eq (self : Compositor maxSurfaces) (client : ℕ) (req : Request) :
    self.left client req = (self.written client req).items := by
  cases req with
  | connect _ => rfl
  | createSurface =>
    simp only [left, apply, createSurface, written]
    cases self.stack.add _ with
    | none => rfl
    | some stack => cases add 32 self.nextId 1 <;> rfl
  | attachBuffer surface =>
    simp only [left, apply, attach, written]
    cases hfind : self.stack.find surface with
    | none => rw [modify_of_missing hfind]; rfl
    | some s => rfl
  | commit surface damage =>
    cases hfind : self.stack.find surface with
    | none => simp only [left, apply, commit, written, hfind, modify_of_missing hfind]; rfl
    | some s =>
      simp only [left, apply, commit, written, hfind]
      cases checkedI32 (s.rect.x + damage.x) with
      | error _ => rfl
      | ok x =>
        cases checkedI32 (s.rect.y + damage.y) with
        | error _ => rfl
        | ok y =>
          simp only [ok_bind]
          cases Rect.intersect _ s.rect with
          | error _ => rfl
          | ok clipped =>
            simp only [ok_bind]
            cases clipped.clampedToSize self.scanout.w self.scanout.h <;> rfl
  | setPosition surface x y =>
    cases hfind : self.stack.find surface with
    | none =>
      simp only [left, apply, setPosition, moveTo, written, hfind, modify_of_missing hfind]
      rfl
    | some s =>
      simp only [left, apply, setPosition, moveTo, written, hfind]
      cases Rect.boundingUnion _ _ with
      | error _ => rfl
      | ok damage =>
        simp only [ok_bind, pure_eq_ok]
        cases Rect.clampedToSize damage _ _ <;> rfl
  | destroySurface surface =>
    cases hremove : self.stack.remove surface with
    | none => simp only [left, apply, destroy, written, hremove]; rfl
    | some removed =>
      simp only [left, apply, destroy, written, hremove]
      cases Rect.clampedToSize _ _ _ <;> rfl

variable {id : SurfaceId} {s : ServerSurface}

/-- Of a surface that a request changes, the others see a change exactly if it is not the client's
and looks different now. -/
theorem foreignTo_modify_iff {f : ServerSurface → ServerSurface}
    (hfind : self.stack.find id = some s) (h : (f s).client = s.client) :
    foreignTo client (self.stack.modify id f).items = foreignTo client self.stack.items ↔
      s.client = client ∨ (f s).view = s.view := by
  obtain ⟨below, above, hitems, hmodify, -⟩ := split_of_find hfind
  simp only [hmodify, hitems, foreignTo, filter_append, map_append, filter_cons, h,
    append_cancel_left_eq]
  by_cases hc : s.client = client <;> simp [hc]

theorem foreignTo_remove_iff {below above : List ServerSurface} :
    foreignTo client (below ++ above) = foreignTo client (below ++ s :: above) ↔
      s.client = client := by
  simp only [foreignTo, filter_append, map_append, filter_cons, append_cancel_left_eq]
  by_cases hc : s.client = client
  · simp [hc]
  · simp only [hc, ne_eq, not_false_eq_true, decide_true, if_true, map_cons, iff_false]
    exact fun h => ne_cons_self h

theorem written_iff (hsurface : req.surface? = some id) (hfind : self.stack.find id = some s) :
    foreignTo client (self.written client req).items = foreignTo client self.stack.items ↔
      s.client = client ∨ req.Idle s := by
  cases req with
  | connect | createSurface => cases hsurface
  | attachBuffer surface buffer width height format =>
    cases hsurface
    refine (foreignTo_modify_iff hfind rfl).trans (or_congr_right ?_)
    obtain ⟨_, ⟨_, _, _, _⟩, _⟩ := s
    simp [ServerSurface.view, Idle]
  | commit surface damage =>
    cases hsurface
    refine (foreignTo_modify_iff hfind rfl).trans (or_congr_right ?_)
    simp [ServerSurface.view, Idle]
  | setPosition surface x y =>
    cases hsurface
    refine (foreignTo_modify_iff hfind rfl).trans (or_congr_right ?_)
    obtain ⟨_, ⟨_, _, _, _⟩, _⟩ := s
    simp [ServerSurface.view, Idle, StackItem.withOrigin]
  | destroySurface surface =>
    cases hsurface
    obtain ⟨below, above, hitems, -, hremove⟩ := split_of_find hfind
    obtain ⟨removed, hremoved, hrest⟩ := Option.map_eq_some_iff.mp hremove
    simp only [written, hremoved, Option.map_some, Option.getD_some, hrest, hitems,
      foreignTo_remove_iff, Idle, or_false]

/-- A request that names no surface of the stack does nothing that the others could see. -/
theorem written_of_unnamed (h : ∀ id, req.surface? = some id → self.stack.find id = none) :
    foreignTo client (self.written client req).items = foreignTo client self.stack.items := by
  cases req with
  | connect _ => rfl
  | createSurface =>
    simp only [written, Stack.add]
    split
    · rfl
    · simp [foreignTo]
  | attachBuffer | commit | setPosition => rw [written, modify_of_missing (h _ rfl)]
  | destroySurface => rw [written, remove_of_missing (h _ rfl)]; rfl

/-- A request leaves every surface of the other clients as it was exactly if it spares them: the
compositor does not check whose surface a request names. -/
theorem isolates_iff (self : Compositor maxSurfaces) (client : ℕ) (req : Request) :
    foreignTo client (self.left client req) = foreignTo client self.stack.items ↔
      self.Spares client req := by
  rw [left_eq]
  by_cases hnamed : ∃ id s, req.surface? = some id ∧ self.stack.find id = some s
  · obtain ⟨id, s, hsurface, hfind⟩ := hnamed
    rw [written_iff hsurface hfind]
    constructor
    · intro h id' s' hsurface' hfind'
      cases hsurface.symm.trans hsurface'
      cases hfind.symm.trans hfind'
      exact h
    · intro h
      exact h id s hsurface hfind
  · refine iff_of_true (written_of_unnamed fun id hsurface => ?_) ?_
    · exact Option.eq_none_iff_forall_ne_some.mpr fun s hfind => hnamed ⟨id, s, hsurface, hfind⟩
    · intro id s hsurface hfind
      exact absurd ⟨id, s, hsurface, hfind⟩ hnamed

/-- Client 1 destroys the surface of client 0. -/
theorem foreign_surface_destroyed :
    let self : Compositor 4 := {
      stack := ⟨[⟨1, { w := 8, h := 8 }, true, 5, 8, 8, 0, 0⟩], by decide⟩
      scanout := { w := 64, h := 64 }, nextId := 2 }
    foreignTo 1 (self.left 1 (.destroySurface 1)) ≠ foreignTo 1 self.stack.items := by
  decide

end Compositor

end Innigkeit.Wm

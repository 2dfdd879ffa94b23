import Innigkeit.Library.Transition
import Innigkeit.Wm.Protocol

/-!
The compositor and the display server around it. The platform is given by its
replies: one request, one frame notification and one send for each call of
`handleOne`. A call hands over what it presented and sent, and the server it
leaves behind. A client can end a call with an error by naming a surface that is
not there or by filling the table, and it can make a call trap by coordinates
that lie too far apart.
-/

namespace Innigkeit.Wm

open Zig Transition

/-! ### The surface stack -/

/-- What the stack needs of the items it orders. -/
class StackItem (Item : Type) where
  id : Item → SurfaceId
  rect : Item → Rect
  withOrigin : Item → ℤ → ℤ → Item

structure Stack (Item : Type) (cap : ℕ) where
  items : List Item
  len_le : items.length ≤ cap

namespace Stack

variable {Item : Type} {cap : ℕ} [StackItem Item]
variable {items : List Item}

omit [StackItem Item] in
theorem add_len_le (hle : items.length ≤ cap) (hne : items.length ≠ cap)
    (item : Item) : (items ++ [item]).length ≤ cap := by
  rw [List.length_append, List.length_singleton]
  omega

omit [StackItem Item] in
theorem modify_len_le (hle : items.length ≤ cap) (i : ℕ) (f : Item → Item) :
    (items.modify i f).length ≤ cap := by
  rw [List.length_modify]
  exact hle

omit [StackItem Item] in
theorem eraseIdx_len_le (hle : items.length ≤ cap) (i : ℕ) : (items.eraseIdx i).length ≤ cap :=
  (List.length_eraseIdx_le ..).trans hle

def empty : Stack Item cap := ⟨[], Nat.zero_le cap⟩

/-- `none` is the error `Full`. -/
def add (self : Stack Item cap) (item : Item) : Option (Stack Item cap) :=
  if h : self.items.length = cap then none
  else some ⟨self.items ++ [item], add_len_le self.len_le h item⟩

def indexOf (self : Stack Item cap) (id : SurfaceId) : Option ℕ :=
  self.items.findIdx? fun item => StackItem.id item == id

def find (self : Stack Item cap) (id : SurfaceId) : Option Item :=
  (self.indexOf id).bind (self.items[·]?)

/-- A write through the pointer that `find` returned. -/
def modify (self : Stack Item cap) (id : SurfaceId) (f : Item → Item) : Stack Item cap :=
  match self.indexOf id with
  | some i => ⟨self.items.modify i f, modify_len_le self.len_le i f⟩
  | none => self

def remove (self : Stack Item cap) (id : SurfaceId) : Option (Rect × Stack Item cap) :=
  match self.indexOf id with
  | some i =>
    match self.items[i]? with
    | some gone =>
      some (StackItem.rect gone, ⟨self.items.eraseIdx i, eraseIdx_len_le self.len_le i⟩)
    | none => none
  | none => none

def moveTo (self : Stack Item cap) (id : SurfaceId) (x y : ℤ) :
    Checked (Option (Rect × Stack Item cap)) :=
  match self.find id with
  | none => .ok none
  | some item => do
    let moved := StackItem.withOrigin item x y
    let damage ← (StackItem.rect item).boundingUnion (StackItem.rect moved)
    return some (damage, self.modify id fun item => StackItem.withOrigin item x y)

end Stack

/-! ### The compositor -/

structure ServerSurface where
  id : SurfaceId
  rect : Rect
  mapped : Bool
  buffer : Handle
  bufWidth : BitVec 32
  bufHeight : BitVec 32
  format : BitVec 32
  client : ℕ

instance : StackItem ServerSurface where
  id s := s.id
  rect s := s.rect
  withOrigin s x y := { s with rect := { s.rect with x, y } }

inductive Outcome where
  | created (id : SurfaceId)
  | damage (rect : Rect)
  | none
  deriving DecidableEq

inductive Error where
  | full
  | noSurface
  deriving DecidableEq

def satI32 (v : BitVec 32) : ℤ := min v.toNat (2 ^ 31 - 1)

structure Compositor (maxSurfaces : ℕ) where
  stack : Stack ServerSurface maxSurfaces
  scanout : Rect
  nextId : ℕ

namespace Compositor

variable {maxSurfaces : ℕ}

def init (width height : ℤ) : Compositor maxSurfaces :=
  { stack := .empty, scanout := { w := width, h := height }, nextId := 1 }

def createSurface (self : Compositor maxSurfaces) (client : ℕ) (x y : ℤ) :
    Checked (Except Error (SurfaceId × Compositor maxSurfaces)) := do
  let id : SurfaceId := .ofNat 32 self.nextId
  match self.stack.add {
      id, rect := { x, y }, mapped := false, buffer := invalidHandle, bufWidth := 0,
      bufHeight := 0, format := 0, client } with
  | none => return .error .full
  | some stack =>
    let nextId ← add 32 self.nextId 1
    return .ok (id, { self with stack, nextId })

def attach (self : Compositor maxSurfaces) (id : SurfaceId) (buffer : Handle)
    (width height format : BitVec 32) : Except Error (Compositor maxSurfaces) :=
  match self.stack.find id with
  | none => .error .noSurface
  | some _ =>
    .ok { self with
      stack := self.stack.modify id fun s => { s with
        buffer, bufWidth := width, bufHeight := height, format
        rect := { s.rect with w := satI32 width, h := satI32 height } } }

def commit (self : Compositor maxSurfaces) (id : SurfaceId) (damage : Rect) :
    Checked (Except Error (Rect × Compositor maxSurfaces)) :=
  match self.stack.find id with
  | none => .ok (.error .noSurface)
  | some s => do
    let x ← checkedI32 (s.rect.x + damage.x)
    let y ← checkedI32 (s.rect.y + damage.y)
    let screen : Rect := { x, y, w := damage.w, h := damage.h }
    let clipped ← screen.intersect s.rect
    let rect ← clipped.clampedToSize self.scanout.w self.scanout.h
    return .ok (rect, { self with
      stack := self.stack.modify id fun s => { s with mapped := true } })

def setPosition (self : Compositor maxSurfaces) (id : SurfaceId) (x y : ℤ) :
    Checked (Except Error (Rect × Compositor maxSurfaces)) := do
  match ← self.stack.moveTo id x y with
  | none => return .error .noSurface
  | some (damage, stack) =>
    let rect ← damage.clampedToSize self.scanout.w self.scanout.h
    return .ok (rect, { self with stack })

def destroy (self : Compositor maxSurfaces) (id : SurfaceId) :
    Checked (Except Error (Rect × Compositor maxSurfaces)) :=
  match self.stack.remove id with
  | none => .ok (.error .noSurface)
  | some (damage, stack) => do
    let rect ← damage.clampedToSize self.scanout.w self.scanout.h
    return .ok (rect, { self with stack })

def damageOutcome (x : Except Error (Rect × Compositor maxSurfaces)) :
    Except Error (Outcome × Compositor maxSurfaces) :=
  x.map fun (rect, compositor) => (.damage rect, compositor)

def apply (self : Compositor maxSurfaces) (client : ℕ) :
    Request → Checked (Except Error (Outcome × Compositor maxSurfaces))
  | .connect _ => .ok (.ok (.none, self))
  | .createSurface => do
    let created ← self.createSurface client 0 0
    return created.map fun (id, compositor) => (.created id, compositor)
  | .attachBuffer surface buffer width height format =>
    .ok ((self.attach surface buffer width height format).map fun compositor =>
      (.none, compositor))
  | .commit surface damage => damageOutcome <$> self.commit surface damage
  | .setPosition surface x y => damageOutcome <$> self.setPosition surface x y
  | .destroySurface surface => damageOutcome <$> self.destroy surface

end Compositor

/-! ### The server -/

structure Incoming where
  client : ℕ
  msg : Message

structure Platform (PlatformError : Type) where
  recv : Except PlatformError Incoming
  createFrameNotify : Except PlatformError Handle
  sendEvent : Except PlatformError Unit

inductive ServerError (PlatformError : Type) where
  | platform (error : PlatformError)
  | compositor (error : Error)
  deriving DecidableEq

structure Server (maxSurfaces maxClients : ℕ) where
  compositor : Compositor maxSurfaces
  clients : Vector Handle maxClients

structure Handled (PlatformError : Type) (maxSurfaces maxClients : ℕ) where
  result : Except (ServerError PlatformError) Unit := .ok ()
  server : Server maxSurfaces maxClients
  presented : List Rect := []
  sent : List (Handle × Message) := []

namespace Server

variable {PlatformError : Type} {maxSurfaces maxClients : ℕ}

def init (width height : ℤ) : Server maxSurfaces maxClients :=
  { compositor := .init width height, clients := .replicate maxClients invalidHandle }

def announce (self : Server maxSurfaces maxClients) (platform : Platform PlatformError)
    (client : Fin maxClients) (id : SurfaceId) : Handled PlatformError maxSurfaces maxClients :=
  let channel := self.clients.get client
  if channel = invalidHandle then { server := self }
  else
    match platform.createFrameNotify with
    | .error e => { server := self, result := .error (.platform e) }
    | .ok frame =>
      { server := self, sent := [(channel, surfaceCreated id frame)]
        result := platform.sendEvent.mapError .platform }

def dispatch (self : Server maxSurfaces maxClients) (platform : Platform PlatformError)
    (client : Fin maxClients) (req : Request) :
    Checked (Handled PlatformError maxSurfaces maxClients) := do
  match ← self.compositor.apply client req with
  | .error e => return { server := self, result := .error (.compositor e) }
  | .ok (.created id, compositor) => return announce { self with compositor } platform client id
  | .ok (.damage rect, compositor) =>
    return { server := { self with compositor },
             presented := if rect.isEmpty then [] else [rect] }
  | .ok (.none, compositor) => return { server := { self with compositor } }

def handleOne (self : Server maxSurfaces maxClients) (platform : Platform PlatformError) :
    Checked (Handled PlatformError maxSurfaces maxClients) :=
  match platform.recv with
  | .error e => .ok { server := self, result := .error (.platform e) }
  | .ok inc =>
    if h : inc.client < maxClients then
      match Request.decode inc.msg with
      | none => .ok { server := self }
      | some (.connect eventEndpoint) =>
        .ok { server := { self with clients := self.clients.set inc.client eventEndpoint } }
      | some req => self.dispatch platform ⟨inc.client, h⟩ req
    else .ok { server := self }

end Server

end Innigkeit.Wm

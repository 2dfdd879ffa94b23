import Innigkeit.Wm.Geometry
import Mathlib.Data.BitVec

/-!
The requests of the display-server protocol and how they are read from an IPC
message of a tag, four words and four capability handles. Two coordinates share
a word. Only an unknown opcode is refused.
-/

namespace Innigkeit.Wm

structure Message where
  tag : BitVec 64 := 0
  words : Vector (BitVec 64) 4 := .replicate 4 0
  caps : Vector (BitVec 32) 4 := .replicate 4 0
  deriving DecidableEq

abbrev Handle := BitVec 32

abbrev SurfaceId := BitVec 32

def invalidHandle : Handle := ~~~0

def loI32 (w : BitVec 64) : ℤ := (w.truncate 32).toInt

def hiI32 (w : BitVec 64) : ℤ := ((w >>> 32).truncate 32).toInt

def wordSid (w : BitVec 64) : SurfaceId := w.truncate 32

inductive Request where
  | connect (eventEndpoint : Handle)
  | createSurface
  | attachBuffer (surface : SurfaceId) (buffer : Handle) (width height format : BitVec 32)
  | commit (surface : SurfaceId) (damage : Rect)
  | setPosition (surface : SurfaceId) (x y : ℤ)
  | destroySurface (surface : SurfaceId)
  deriving DecidableEq

/-- `none` is the error `UnknownOpcode`. -/
def Request.decode (msg : Message) : Option Request :=
  match msg.tag.toNat with
  | 1 => some (.connect msg.caps[0])
  | 2 => some .createSurface
  | 3 => some (.attachBuffer (wordSid msg.words[0]) msg.caps[0] (msg.words[1].truncate 32)
      (msg.words[2].truncate 32) (msg.words[3].truncate 32))
  | 4 => some (.commit (wordSid msg.words[0])
      { x := loI32 msg.words[1], y := hiI32 msg.words[1],
        w := loI32 msg.words[2], h := hiI32 msg.words[2] })
  | 5 => some (.setPosition (wordSid msg.words[0]) (loI32 msg.words[1]) (hiI32 msg.words[1]))
  | 6 => some (.destroySurface (wordSid msg.words[0]))
  | _ => none

def surfaceCreated (surface : SurfaceId) (frame : Handle) : Message where
  tag := 0x100
  words := #v[surface.setWidth 64, 0, 0, 0]
  caps := #v[frame, 0, 0, 0]

theorem toInt_inI32 (v : BitVec 32) : InI32 v.toInt := ⟨v.le_toInt, v.toInt_lt⟩

/-- The coordinates of a request are values of `i32`. -/
def Request.Wide : Request → Prop
  | .commit _ damage => damage.Wide
  | .setPosition _ x y => InI32 x ∧ InI32 y
  | _ => True

theorem decode_wide {msg : Message} {request : Request} (h : Request.decode msg = some request) :
    request.Wide := by
  unfold Request.decode at h
  split at h <;> cases h
  all_goals simp only [Request.Wide]
  · exact ⟨toInt_inI32 _, toInt_inI32 _, toInt_inI32 _, toInt_inI32 _⟩
  · exact ⟨toInt_inI32 _, toInt_inI32 _⟩

end Innigkeit.Wm

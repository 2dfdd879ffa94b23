import Mathlib.Tactic.Common

/-!
Messages between tasks: a tag, four words and four capability handles. The
handles are the only part that the kernel rewrites on the way.
-/

namespace Innigkeit.Capabilities

/-- The `caps` of a message; 0 stands for no capability. -/
abbrev Caps := { handles : List (BitVec 32) // handles.length = 4 }

theorem length_zeroWords : ([0, 0, 0, 0] : List (BitVec 64)).length = 4 := rfl

theorem length_zeroCaps : ([0, 0, 0, 0] : List (BitVec 32)).length = 4 := rfl

structure Message where
  tag : BitVec 64 := 0
  words : { words : List (BitVec 64) // words.length = 4 } :=
    ⟨[0, 0, 0, 0], length_zeroWords⟩
  caps : Caps := ⟨[0, 0, 0, 0], length_zeroCaps⟩
  deriving DecidableEq

end Innigkeit.Capabilities

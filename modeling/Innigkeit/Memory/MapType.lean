import Mathlib.Tactic.Common

/-!
The type of a mapping: who may use it, with which permissions, and how it is
cached.
-/

namespace Innigkeit.Memory

/-- Which half of the address space a mapping or an address space belongs to. -/
inductive Context where
  | kernel
  | user
  deriving DecidableEq, Repr

structure Protection where
  read : Bool := false
  write : Bool := false
  execute : Bool := false
  deriving DecidableEq, Repr

namespace Protection

def none : Protection := {}
def all : Protection := { read := true, write := true, execute := true }

def exceeds (self other : Protection) : Bool :=
  (self.read && !other.read) || (self.write && !other.write) || (self.execute && !other.execute)

end Protection

inductive Cache where
  | writeBack
  | writeCombining
  | uncached
  deriving DecidableEq, Repr

structure MapType where
  type : Context
  protection : Protection
  cache : Cache := .writeBack
  deriving DecidableEq, Repr

end Innigkeit.Memory

import Mathlib.Algebra.Order.Ring.Nat
import Mathlib.Data.BitVec

/-!
Sector encryption in the XTS mode, over any block cipher. The tweak of a sector
is its number under the tweak key, and it is multiplied by the primitive element
of the field from one block of the sector to the next.
-/

namespace Innigkeit.Crypto

open Function

abbrev Byte := BitVec 8

abbrev Block := Fin 16 → Byte

abbrev Sector := Fin 32 → Block

/-- A block cipher under a key: a permutation of the blocks. -/
structure BlockCipher where
  encrypt : Block → Block
  decrypt : Block → Block
  decrypt_encrypt : ∀ block, decrypt (encrypt block) = block

structure Xts where
  data : BlockCipher
  tweak : BlockCipher

/-- `std.mem.writeInt` of a `u128`, little-endian. -/
def writeInt (n : ℕ) : Block := fun k => .ofNat 8 (n / 256 ^ k.val)

def xorInPlace (a b : Block) : Block := fun k => a k ^^^ b k

/-- The loop of `mulAlpha` goes through the bytes with a carry. -/
def mulAlphaStep (state : Block × Byte) (k : Fin 16) : Block × Byte :=
  (update state.1 k (state.1 k <<< 1 ||| state.2), state.1 k >>> 7)

def mulAlpha (t : Block) : Block :=
  let (t, carry) := (List.finRange 16).foldl mulAlphaStep (t, 0)
  if carry ≠ 0 then update t 0 (t 0 ^^^ 0x87) else t

namespace Xts

def firstTweak (self : Xts) (sectorNumber : ℕ) : Block :=
  self.tweak.encrypt (writeInt sectorNumber)

/-- Block `i` of a sector, with the tweak after `i` rounds. -/
def cryptBlock (f : Block → Block) (tweak block : Block) : Block :=
  xorInPlace (f (xorInPlace block tweak)) tweak

def crypt (self : Xts) (f : Block → Block) (buf : Sector) (sectorNumber : ℕ) : Sector := fun i =>
  cryptBlock f (mulAlpha^[i.val] (self.firstTweak sectorNumber)) (buf i)

def encryptSector (self : Xts) (sector : Sector) (sectorNumber : ℕ) : Sector :=
  self.crypt self.data.encrypt sector sectorNumber

def decryptSector (self : Xts) (sector : Sector) (sectorNumber : ℕ) : Sector :=
  self.crypt self.data.decrypt sector sectorNumber

end Xts

theorem xorInPlace_cancel (a b : Block) : xorInPlace (xorInPlace a b) b = a := by
  funext k
  rw [xorInPlace, xorInPlace, BitVec.xor_assoc, BitVec.xor_self, BitVec.xor_zero]

theorem Xts.decrypt_encrypt (self : Xts) (sector : Sector) (sectorNumber : ℕ) :
    self.decryptSector (self.encryptSector sector sectorNumber) sectorNumber = sector := by
  funext i
  simp only [decryptSector, encryptSector, crypt, cryptBlock]
  rw [xorInPlace_cancel, self.data.decrypt_encrypt, xorInPlace_cancel]

end Innigkeit.Crypto

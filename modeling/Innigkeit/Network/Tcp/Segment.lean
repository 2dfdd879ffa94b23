import Mathlib.Algebra.Order.Ring.Nat

/-!
The part of `network/tcp/Segment.zig` that the socket layer uses: parsing of a
raw segment and the checksum over the IPv4 pseudo-header. The window, checksum,
urgent and option fields of a parsed segment are read by nobody and left out.
-/

namespace Innigkeit.Network.Tcp

abbrev Byte := BitVec 8

abbrev Port := BitVec 16

/-- An IPv4 address, its first byte in the highest bits. -/
abbrev Ip := BitVec 32

def HEADER_MIN : Nat := 20

structure Flags where
  fin : Bool := false
  syn : Bool := false
  rst : Bool := false
  ack : Bool := false
  deriving DecidableEq, Repr

def Flags.ofByte (b : Byte) : Flags where
  fin := b.getLsbD 0
  syn := b.getLsbD 1
  rst := b.getLsbD 2
  ack := b.getLsbD 4

structure Segment where
  srcPort : Port
  dstPort : Port
  seq : BitVec 32
  ack : BitVec 32
  flags : Flags
  payload : List Byte
  deriving DecidableEq, Repr

def readInt16 (data : List Byte) (i : Nat) : BitVec 16 :=
  data.getD i 0 ++ data.getD (i + 1) 0

def readInt32 (data : List Byte) (i : Nat) : BitVec 32 :=
  readInt16 data i ++ readInt16 data (i + 2)

def parse (data : List Byte) : Option Segment :=
  if data.length < HEADER_MIN then none
  else
    let dataOffset := (data.getD 12 0 >>> 4).toNat * 4
    if dataOffset < HEADER_MIN ∨ data.length < dataOffset then none
    else
      some {
        srcPort := readInt16 data 0
        dstPort := readInt16 data 2
        seq := readInt32 data 4
        ack := readInt32 data 8
        flags := .ofByte (data.getD 13 0)
        payload := data.drop dataOffset }

/-- The sum over the segment's 16-bit words; an odd last byte is the high half of one. -/
def sumWords : List Byte → Nat
  | [] => 0
  | [b] => b.toNat * 256
  | b :: b' :: rest => (b.toNat * 256 + b'.toNat) + sumWords rest

/-- Fold the carries back in. The accumulator is a `u32`, for which two rounds are enough. -/
def foldCarries : Nat → Nat → Nat
  | 0, acc => acc
  | fuel + 1, acc =>
    if acc / 2 ^ 16 ≠ 0 then foldCarries fuel (acc % 2 ^ 16 + acc / 2 ^ 16) else acc

def pseudoChecksum (tcpBuf : List Byte) (srcIp dstIp : Ip) : BitVec 16 :=
  let acc := (srcIp.toNat / 2 ^ 16 + srcIp.toNat % 2 ^ 16) +
    (dstIp.toNat / 2 ^ 16 + dstIp.toNat % 2 ^ 16) + 6 + tcpBuf.length + sumWords tcpBuf
  ~~~(BitVec.ofNat 16 (foldCarries 32 acc))

def verifyChecksum (tcpBuf : List Byte) (srcIp dstIp : Ip) : Bool :=
  pseudoChecksum tcpBuf srcIp dstIp = 0xFFFF ∨ pseudoChecksum tcpBuf srcIp dstIp = 0

end Innigkeit.Network.Tcp

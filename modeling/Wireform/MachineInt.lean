/-
  Fixed-width machine arithmetic.

  A 64-bit signed integer is an `Int` in `[-2^63, 2^63)`; every arithmetic
  operation is the mathematical one followed by `wrap`, the reduction to that
  range.  `ofWord` reads a 64-bit word as a signed integer.
-/
import Mathlib.Tactic.Common
import Mathlib.Tactic.Linarith

namespace Wireform

/-- Reduction to the range of a 64-bit two's-complement integer. -/
def wrap (x : Int) : Int := (2 ^ 63 + x) % 2 ^ 64 - 2 ^ 63

/-- 64-bit addition. -/
def addInt (x y : Int) : Int := wrap (x + y)

/-- 64-bit subtraction. -/
def subInt (x y : Int) : Int := wrap (x - y)

/-- A 64-bit word read as a signed 64-bit integer. -/
def ofWord (w : UInt64) : Int := wrap w.toNat

/-- The range of a 64-bit signed integer. -/
def InRange (x : Int) : Prop := -2 ^ 63 ≤ x ∧ x < 2 ^ 63

theorem wrap_inRange (x : Int) : InRange (wrap x) := by
  unfold InRange wrap; omega

theorem wrap_eq {x : Int} (h : InRange x) : wrap x = x := by
  unfold InRange at h; unfold wrap; omega

theorem addInt_eq {x y : Int} (h : InRange (x + y)) : addInt x y = x + y := wrap_eq h

theorem subInt_eq {x y : Int} (h : InRange (x - y)) : subInt x y = x - y := wrap_eq h

theorem addInt_inRange (x y : Int) : InRange (addInt x y) := wrap_inRange _

/-- Small non-negative sums do not wrap. -/
theorem addInt_small {x y : Int} (hx : 0 ≤ x) (hx' : x ≤ 2 ^ 62) (hy : 0 ≤ y)
    (hy' : y < 2 ^ 62) : addInt x y = x + y := by
  apply addInt_eq; unfold InRange; omega

theorem ofWord_lt {w : UInt64} (h : w.toNat < 2 ^ 63) : ofWord w = w.toNat := by
  unfold ofWord wrap; omega

theorem ofWord_ge {w : UInt64} (h : 2 ^ 63 ≤ w.toNat) : ofWord w = w.toNat - 2 ^ 64 := by
  have := w.toNat_lt; unfold ofWord wrap; omega

theorem ofWord_neg_iff (w : UInt64) : ofWord w < 0 ↔ 2 ^ 63 ≤ w.toNat := by
  have := w.toNat_lt; unfold ofWord wrap; omega

theorem ofWord_nonneg_iff (w : UInt64) : 0 ≤ ofWord w ↔ w.toNat < 2 ^ 63 := by
  have := w.toNat_lt; unfold ofWord wrap; omega

end Wireform

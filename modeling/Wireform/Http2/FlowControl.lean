/-
  Flow-control windows (`Network.HTTP2.Connection.FlowControl`).

  A window is a 32-bit signed integer; changes are added in 64 bits and narrowed
  back, and refused above `2 ^ 31 - 1`.

  * `consumeWindow_some`, `shiftWindow_ok`: what is accepted is the mathematical
    value;
  * `shiftWindow_error_iff`: what is refused is above the largest window.
-/
import Mathlib.Tactic.Common
import Mathlib.Algebra.Ring.Int.Defs

namespace Wireform.Http2

/-- The largest window. -/
def maxWindow : Int := 2147483647

/-- Take `amount` out of a window that covers it. -/
def consumeWindow (w amount : Int32) : Option Int32 := if w ≥ amount then some (w - amount) else none

/-- Add a change to a window; a sum above the largest window is refused, and
    returned. -/
def shiftWindow (w : Int32) (diff : Int64) : Except Int32 Int32 :=
  let w64 := w.toInt64 + diff
  if w64 > 2147483647 then .error w64.toInt32 else .ok w64.toInt32

def releaseWindow (w amount : Int32) : Except Int32 Int32 := shiftWindow w amount.toInt64

def updateInitialWindowSize (w oldSize newSize : Int32) : Except Int32 Int32 :=
  shiftWindow w (newSize.toInt64 - oldSize.toInt64)

/-! ## Mathematical values -/

theorem consumeWindow_some {w amount w' : Int32} (h : consumeWindow w amount = some w')
    (h0 : 0 ≤ amount.toInt) : amount.toInt ≤ w.toInt ∧ w'.toInt = w.toInt - amount.toInt := by
  unfold consumeWindow at h
  split at h
  · rename_i hge
    cases h
    have hle := Int32.le_iff_toInt_le.1 hge
    have hmax := w.toInt_lt
    refine ⟨hle, ?_⟩
    rw [Int32.toInt_sub, Int.bmod_eq_of_le (by omega) (by omega)]
  · cases h

theorem gt_maxWindow_iff (x : Int64) : x > 2147483647 ↔ maxWindow < x.toInt := by
  have hmax : (2147483647 : Int64).toInt = maxWindow := by decide
  rw [gt_iff_lt, Int64.lt_iff_toInt_lt, hmax]

/-- The 64-bit sum of a window and a change. -/
theorem toInt_shift (w : Int32) {d : Int64} (h0 : -2 ^ 33 ≤ d.toInt) (h1 : d.toInt ≤ 2 ^ 33) :
    (w.toInt64 + d).toInt = w.toInt + d.toInt := by
  have hmin := w.le_toInt
  have hmax := w.toInt_lt
  rw [Int64.toInt_add, Int32.toInt_toInt64, Int.bmod_eq_of_le (by omega) (by omega)]

section
variable {w w' : Int32} {d : Int64} (h0 : -2 ^ 33 ≤ d.toInt) (h1 : d.toInt ≤ 2 ^ 33)
include h0 h1

theorem shiftWindow_ok (h : shiftWindow w d = .ok w') (hlow : -2 ^ 31 ≤ w.toInt + d.toInt) :
    w'.toInt = w.toInt + d.toInt ∧ w.toInt + d.toInt ≤ maxWindow := by
  have hsum := toInt_shift w h0 h1
  unfold shiftWindow at h
  simp only at h
  split at h
  · cases h
  · rename_i hle
    cases h
    rw [gt_maxWindow_iff, hsum, Int.not_lt] at hle
    have hmax : w.toInt + d.toInt ≤ 2147483647 := hle
    refine ⟨?_, hle⟩
    rw [Int64.toInt_toInt32, hsum, Int.bmod_eq_of_le (by omega) (by omega)]

theorem shiftWindow_error_iff :
    (∃ e, shiftWindow w d = .error e) ↔ maxWindow < w.toInt + d.toInt := by
  have hsum := toInt_shift w h0 h1
  unfold shiftWindow
  simp only
  rw [← hsum, ← gt_maxWindow_iff]
  split
  · rename_i hgt
    exact iff_of_true ⟨_, rfl⟩ hgt
  · rename_i hle
    exact iff_of_false (fun ⟨_, he⟩ => by cases he) hle

end

/-- The change of an initial size, in 64 bits. -/
theorem toInt_diff (oldSize newSize : Int32) :
    (newSize.toInt64 - oldSize.toInt64).toInt = newSize.toInt - oldSize.toInt := by
  have h1 := newSize.le_toInt
  have h2 := newSize.toInt_lt
  have h3 := oldSize.le_toInt
  have h4 := oldSize.toInt_lt
  rw [Int64.toInt_sub, Int32.toInt_toInt64, Int32.toInt_toInt64,
    Int.bmod_eq_of_le (by omega) (by omega)]

end Wireform.Http2

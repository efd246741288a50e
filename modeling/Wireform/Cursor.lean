/-
  Cursors into a list, with offsets in 64-bit arithmetic.

  `Cursor xs off rest` says that `off` is an offset into `xs`, a list whose length
  is a 64-bit integer, and that `rest` is what stands there.
-/
import Wireform.MachineInt
import Mathlib.Data.List.Basic

namespace Wireform

variable {α : Type}

/-- `rest` stands at the offset `off` of `xs`. -/
structure Cursor (xs : List α) (off : Int) (rest : List α) : Prop where
  nonneg : 0 ≤ off
  le : off ≤ xs.length
  drop : xs.drop off.toNat = rest
  small : (xs.length : Int) < 2 ^ 63

namespace Cursor

variable {xs rest : List α} {off : Int}

theorem start (h : (xs.length : Int) < 2 ^ 63) : Cursor xs 0 xs :=
  ⟨le_rfl, by omega, rfl, h⟩

theorem length_eq (h : Cursor xs off rest) : (rest.length : Int) = xs.length - off := by
  have h0 := h.nonneg
  have h1 := h.le
  rw [← h.drop, List.length_drop]
  omega

/-- Moving by a small amount does not wrap. -/
theorem add (h : Cursor xs off rest) {n : Int} (h0 : 0 ≤ n) (hn : n ≤ rest.length) :
    addInt off n = off + n := by
  have h1 := h.length_eq
  have h2 := h.nonneg
  have h3 := h.small
  exact addInt_eq ⟨by omega, by omega⟩

/-- The cursor behind a piece of the rest. -/
theorem skip {pre post : List α} (h : Cursor xs off (pre ++ post)) :
    Cursor xs (off + pre.length) post := by
  have h1 := h.length_eq
  have h2 := h.nonneg
  rw [List.length_append] at h1
  refine ⟨by omega, by omega, ?_, h.small⟩
  rw [show (off + pre.length).toNat = off.toNat + pre.length by omega, ← List.drop_drop, h.drop,
    List.drop_left]

theorem next {x : α} (h : Cursor xs off (x :: rest)) : Cursor xs (off + 1) rest :=
  @skip α xs off [x] rest h

theorem lt {x : α} (h : Cursor xs off (x :: rest)) : off < xs.length := by
  have := h.length_eq
  rw [List.length_cons] at this
  omega

theorem get {x : α} (h : Cursor xs off (x :: rest)) : xs[off.toNat]? = some x := by
  have := congrArg List.head? h.drop
  rwa [List.head?_drop] at this

end Cursor

end Wireform

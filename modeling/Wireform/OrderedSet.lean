/-
  Finite sets as lists in strictly ascending order.

  The membership lemmas hold for every list; the order makes two sets with the
  same elements equal (`Ascends.ext`).
-/
import Mathlib.Order.Lattice
import Mathlib.Data.List.Basic
import Mathlib.Data.List.Nodup

namespace Wireform

variable {α : Type} [LinearOrder α]

abbrev OrderedSet (α : Type) := List α

namespace OrderedSet

def insert (x : α) : OrderedSet α → OrderedSet α
  | [] => [x]
  | y :: s => if x = y then y :: s else if x < y then x :: y :: s else y :: insert x s

def union (s t : OrderedSet α) : OrderedSet α := t.foldl (fun acc x => insert x acc) s

def unions (ss : List (OrderedSet α)) : OrderedSet α := ss.foldl union []

def difference (s t : OrderedSet α) : OrderedSet α := s.filter fun x => !t.contains x

def fromList (xs : List α) : OrderedSet α := union [] xs

/-! ## Membership -/

@[simp] theorem mem_insert {x y : α} {s : OrderedSet α} : y ∈ insert x s ↔ y = x ∨ y ∈ s := by
  induction s with
  | nil => simp [insert]
  | cons z s ih =>
    unfold insert
    split_ifs with h1 h2
    · subst h1
      simp
    · simp
    · simp only [List.mem_cons, ih]
      tauto

@[simp] theorem mem_union {y : α} {s t : OrderedSet α} : y ∈ union s t ↔ y ∈ s ∨ y ∈ t := by
  unfold union
  induction t generalizing s with
  | nil => simp
  | cons x t ih =>
    rw [List.foldl_cons, ih, mem_insert, List.mem_cons]
    tauto

@[simp] theorem mem_unions {y : α} {ss : List (OrderedSet α)} : y ∈ unions ss ↔ ∃ s ∈ ss, y ∈ s := by
  have h (acc : OrderedSet α) : y ∈ ss.foldl union acc ↔ y ∈ acc ∨ ∃ s ∈ ss, y ∈ s := by
    induction ss generalizing acc with
    | nil => simp
    | cons s ss ih =>
      rw [List.foldl_cons, ih, mem_union, List.exists_mem_cons_iff]
      tauto
  rw [unions, h []]
  simp

@[simp] theorem mem_difference {y : α} {s t : OrderedSet α} : y ∈ difference s t ↔ y ∈ s ∧ y ∉ t := by
  simp [difference]

@[simp] theorem mem_fromList {y : α} {xs : List α} : y ∈ fromList xs ↔ y ∈ xs := by simp [fromList]

/-! ## Order -/

def Ascends (s : OrderedSet α) : Prop := s.Pairwise (· < ·)

theorem Ascends.insert {s : OrderedSet α} (h : Ascends s) (x : α) : Ascends (insert x s) := by
  induction s with
  | nil => exact List.pairwise_singleton _ _
  | cons y s ih =>
    obtain ⟨hlt, hs⟩ := List.pairwise_cons.1 h
    unfold OrderedSet.insert
    split_ifs with h1 h2
    · exact h
    · refine List.pairwise_cons.2 ⟨fun z hz => ?_, h⟩
      rcases List.mem_cons.1 hz with rfl | hz
      · exact h2
      · exact h2.trans (hlt z hz)
    · refine List.pairwise_cons.2 ⟨fun z hz => ?_, ih hs⟩
      rcases mem_insert.1 hz with rfl | hz
      · exact lt_of_le_of_ne (not_lt.1 h2) (Ne.symm h1)
      · exact hlt z hz

theorem Ascends.union {s : OrderedSet α} (h : Ascends s) (t : OrderedSet α) : Ascends (union s t) := by
  unfold OrderedSet.union
  induction t generalizing s with
  | nil => exact h
  | cons x t ih => exact ih (h.insert x)

theorem ascends_nil : Ascends ([] : OrderedSet α) := List.Pairwise.nil

theorem ascends_fromList (xs : List α) : Ascends (fromList xs) := ascends_nil.union xs

/-- **Sets with the same elements are equal.** -/
theorem Ascends.ext {s t : OrderedSet α} (hs : Ascends s) (ht : Ascends t) (h : ∀ x, x ∈ s ↔ x ∈ t) : s = t := by
  induction s generalizing t with
  | nil =>
    cases t with
    | nil => rfl
    | cons y t => exact absurd ((h y).2 List.mem_cons_self) List.not_mem_nil
  | cons x s ih =>
    cases t with
    | nil => exact absurd ((h x).1 List.mem_cons_self) List.not_mem_nil
    | cons y t =>
      obtain ⟨hlt, hs⟩ := List.pairwise_cons.1 hs
      obtain ⟨hlt', ht'⟩ := List.pairwise_cons.1 ht
      have hxy : x = y := by
        rcases List.mem_cons.1 ((h x).1 List.mem_cons_self) with hx | hx
        · exact hx
        · rcases List.mem_cons.1 ((h y).2 List.mem_cons_self) with hy | hy
          · exact hy.symm
          · exact absurd ((hlt' x hx).trans (hlt y hy)) (lt_irrefl _)
      subst hxy
      refine congrArg (x :: ·) (ih hs ht' fun z => ?_)
      have hz := h z
      rw [List.mem_cons, List.mem_cons] at hz
      constructor
      · intro hmem
        exact (hz.1 (Or.inr hmem)).resolve_left (ne_of_gt (hlt z hmem))
      · intro hmem
        exact (hz.2 (Or.inr hmem)).resolve_left (ne_of_gt (hlt' z hmem))

/-- A set is the set of its elements. -/
theorem Ascends.fromList {s : OrderedSet α} (h : Ascends s) : fromList s = s :=
  (ascends_fromList s).ext h fun _ => mem_fromList

end OrderedSet

end Wireform

/-
  Reading a sorted list in pages.

  Rows are compared column by column.  A page shows what follows, precedes or surrounds a
  row; a client asks for page after page until there are no more.

  * `columns`: the comparison, with `columns_swap` and `columns_trans`;
  * `takeWhile_before`, `takeWhile_through`: the two sides of a row in a sorted list;
  * `follow`: the client, and `follow_exact`: it sees everything that is ahead of it.
-/
import Mathlib.Data.List.Basic

namespace Wireform.Keyset

variable {β : Type}

/-! ## Columns -/

/-- Compare column by column, up to the first difference. -/
def columns : List (β → β → Ordering) → List β → List β → Ordering
  | c :: cs, a :: as, b :: bs => (c a b).then (columns cs as bs)
  | _, _, _ => .eq

attribute [grind =] columns

variable {cs : List (β → β → Ordering)}

theorem columns_swap (h : ∀ c ∈ cs, Std.OrientedCmp c) (as bs : List β) :
    columns cs as bs = (columns cs bs as).swap := by
  induction cs generalizing as bs with
  | nil => rfl
  | cons c cs ih =>
    cases as with
    | nil => cases bs <;> rfl
    | cons a as =>
      cases bs with
      | nil => rfl
      | cons b bs =>
        have hc := h c List.mem_cons_self
        simp only [columns, Ordering.swap_then]
        rw [hc.eq_swap (a := a) (b := b), ih (fun c' hc' => h c' (List.mem_cons_of_mem c hc'))]

theorem columns_trans (h : ∀ c ∈ cs, Std.TransCmp c) {as bs ds : List β}
    (has : as.length = cs.length) (hbs : bs.length = cs.length) (hds : ds.length = cs.length)
    (hab : (columns cs as bs).isLE) (hbd : (columns cs bs ds).isLE) : (columns cs as ds).isLE := by
  induction cs generalizing as bs ds with
  | nil => cases as <;> rfl
  | cons c cs ih =>
    obtain ⟨a, as, rfl⟩ := List.exists_cons_of_length_eq_add_one has
    obtain ⟨b, bs, rfl⟩ := List.exists_cons_of_length_eq_add_one hbs
    obtain ⟨d, ds, rfl⟩ := List.exists_cons_of_length_eq_add_one hds
    have hc := h c List.mem_cons_self
    simp only [columns, Ordering.isLE_then_iff_or] at hab hbd ⊢
    rcases hab with hab | ⟨hab, hab'⟩
    · rcases hbd with hbd | ⟨hbd, -⟩
      · exact .inl (Std.TransCmp.lt_trans hab hbd)
      · exact .inl (Std.TransCmp.lt_of_lt_of_eq hab hbd)
    · rcases hbd with hbd | ⟨hbd, hbd'⟩
      · exact .inl (Std.TransCmp.lt_of_eq_of_lt hab hbd)
      · refine .inr ⟨Std.TransCmp.eq_trans hab hbd, ?_⟩
        exact ih (fun c' hc' => h c' (List.mem_cons_of_mem c hc')) (Nat.succ.inj has) (Nat.succ.inj hbs)
          (Nat.succ.inj hds) hab' hbd'

/-- Rows that differ in no column are equal, where equal columns are equal values. -/
theorem eq_of_columns {as bs : List β} (has : as.length = cs.length)
    (hbs : bs.length = cs.length) (h : ∀ c ∈ cs, ∀ a ∈ as, ∀ b ∈ bs, c a b = .eq → a = b)
    (heq : columns cs as bs = .eq) : as = bs := by
  induction cs generalizing as bs with
  | nil => rw [List.length_eq_zero_iff.1 has, List.length_eq_zero_iff.1 hbs]
  | cons c cs ih =>
    obtain ⟨a, as, rfl⟩ := List.exists_cons_of_length_eq_add_one has
    obtain ⟨b, bs, rfl⟩ := List.exists_cons_of_length_eq_add_one hbs
    simp only [columns, Ordering.then_eq_eq] at heq
    rw [h c List.mem_cons_self a List.mem_cons_self b List.mem_cons_self heq.1,
      ih (Nat.succ.inj has) (Nat.succ.inj hbs)
        (fun c' hc' a' ha' b' hb' => h c' (List.mem_cons_of_mem c hc') a' (List.mem_cons_of_mem a ha') b'
          (List.mem_cons_of_mem b hb')) heq.2]

/-! ## The two sides of a row -/

section

variable {α : Type} {xs ys : List α} {r : α} {p : α → Ordering}

theorem takeWhile_before (hxs : ∀ a ∈ xs, p a = .lt) (hr : p r = .eq) :
    (xs ++ r :: ys).takeWhile (fun a => p a == .lt) = xs := by
  rw [List.takeWhile_append_of_pos fun a ha => by rw [hxs a ha]; rfl, List.takeWhile_cons_of_neg, List.append_nil]
  rw [hr]
  decide

theorem takeWhile_through (hxs : ∀ a ∈ xs, p a = .lt) (hr : p r = .eq) (hys : ∀ b ∈ ys, p b = .gt) :
    (xs ++ r :: ys).takeWhile (fun a => p a != .gt) = xs ++ [r] := by
  rw [List.takeWhile_append_of_pos fun a ha => by rw [hxs a ha]; rfl, List.takeWhile_cons_of_pos (by rw [hr]; rfl)]
  cases ys with
  | nil => rfl
  | cons b ys =>
    rw [List.takeWhile_cons_of_neg]
    rw [hys b List.mem_cons_self]
    decide

/-- What a strictly sorted list says of one of its rows. -/
theorem sides {cmp : α → α → Ordering} [Std.OrientedCmp cmp]
    (h : (xs ++ r :: ys).Pairwise fun a b => cmp a b = .lt) :
    (∀ a ∈ xs, cmp a r = .lt) ∧ cmp r r = .eq ∧ ∀ b ∈ ys, cmp b r = .gt := by
  obtain ⟨-, hrest, hcross⟩ := List.pairwise_append.1 h
  refine ⟨fun a ha => hcross a ha r List.mem_cons_self, Std.ReflCmp.compare_self, fun b hb => ?_⟩
  exact Std.OrientedCmp.gt_of_lt ((List.pairwise_cons.1 hrest).1 b hb)

end

/-! ## A client -/

section

variable {π τ γ ι : Type}

/-- A client that asks for page after page, as long as the last one offers a cursor. -/
def follow (cursor : π → Option τ) (decode : τ → Option γ) (load : Nat → γ → π) : List Nat → π → Option (List π)
  | [], page => some [page]
  | n :: ns, page =>
    match cursor page with
    | none => some [page]
    | some t => (decode t).bind fun c => (follow cursor decode load ns (load n c)).map (page :: ·)

/-- **Where each page shows some of what is ahead of the one before, the pages together show it in order, and all
    of it if they are enough.** -/
theorem follow_exact (cursor : π → Option τ) (decode : τ → Option γ) (load : Nat → γ → π) (content : π → List ι)
    (valid : Nat → Prop) (ahead : π → List ι → Prop)
    (hend : ∀ page rest, ahead page rest → (cursor page = none ↔ rest = []))
    (hstep : ∀ page rest t n, ahead page rest → cursor page = some t → valid n → ∃ c, decode t = some c ∧
      ∃ rest', rest = content (load n c) ++ rest' ∧ content (load n c) ≠ [] ∧ ahead (load n c) rest')
    {ns : List Nat} (hns : ∀ n ∈ ns, valid n) {page : π} {rest : List ι} (h : ahead page rest) :
    ∃ pages last left, follow cursor decode load ns page = some (page :: pages) ∧
      (page :: pages).getLast? = some last ∧ rest = pages.flatMap content ++ left ∧
      (cursor last = none ↔ left = []) ∧ (rest.length ≤ ns.length → left = []) := by
  induction ns generalizing page rest with
  | nil =>
    refine ⟨[], page, rest, rfl, rfl, rfl, hend page rest h, fun hlen => ?_⟩
    exact List.length_eq_zero_iff.1 (Nat.le_zero.1 hlen)
  | cons n ns ih =>
    cases ht : cursor page with
    | none =>
      have hnil := (hend page rest h).1 ht
      refine ⟨[], page, rest, ?_, rfl, rfl, hend page rest h, fun _ => hnil⟩
      simp only [follow, ht]
    | some t =>
      obtain ⟨c, hc, rest', hrest, hne, hahead⟩ := hstep page rest t n h ht (hns n List.mem_cons_self)
      obtain ⟨pages, last, left, hfollow, hlast, hshown, hdone, henough⟩ :=
        ih (fun n' hn' => hns n' (List.mem_cons_of_mem n hn')) hahead
      refine ⟨load n c :: pages, last, left, ?_, ?_, ?_, hdone, fun hlen => henough ?_⟩
      · simp only [follow, ht, hc, Option.bind_some, hfollow, Option.map_some]
      · rw [List.getLast?_cons_cons, hlast]
      · rw [hrest, hshown, List.flatMap_cons, List.append_assoc]
      · have hpos := List.length_pos_iff.2 hne
        rw [hrest, List.length_append, List.length_cons] at hlen
        omega

end

end Wireform.Keyset

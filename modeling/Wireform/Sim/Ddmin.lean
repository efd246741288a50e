/-
  Delta debugging (`ddminList` of `Sim.Localize`).

  * `splitInto`, `concatExcept`, `ddminList`: the code's functions; the loop has
    a fuel, and `ddminList_spec` shows that it never runs out of it;
  * `OneMinimal p r`: no single element of `r` can be removed without losing `p`;
  * `ddminList_spec`: the result is a sublist, it keeps the predicate, and with
    two elements or more it is 1-minimal;
  * `ddminList_minimal_iff`: for which predicates every result is 1-minimal.
-/
import Mathlib.Data.List.InsertIdx
import Mathlib.Order.Nat

namespace Wireform.Sim

variable {α : Type}

/-! ## The algorithm -/

/-- The loop of `splitInto`; the fuel is the length of the list. -/
def splitInto.chunk (sz : Nat) : Nat → List α → List (List α)
  | 0, _ => []
  | _ + 1, [] => []
  | fuel + 1, y :: ys => (y :: ys).take sz :: splitInto.chunk sz fuel ((y :: ys).drop sz)

attribute [grind =] splitInto.chunk

/-- Chunks of one size, about `n` of them. -/
def splitInto (n : Nat) (xs : List α) : List (List α) :=
  let sz := max 1 ((xs.length + n - 1) / n)
  (splitInto.chunk sz xs.length xs).filter fun s => !s.isEmpty

attribute [grind =] splitInto

/-- All the parts but one. -/
def concatExcept (i : Nat) (parts : List (List α)) : List α :=
  ((parts.zipIdx.filter fun e => e.2 ≠ i).map Prod.fst).flatten

/-- The loop of `ddminList`: a part, else a complement, else finer parts. -/
def ddminList.go (p : List α → Bool) : Nat → List α → Nat → Option (List α)
  | 0, _, _ => none
  | fuel + 1, c, n =>
    if c.length ≤ 1 then some c
    else
      let parts := splitInto n c
      match (parts.filter fun s => !s.isEmpty && p s).head? with
      | some s => ddminList.go p fuel s 2
      | none =>
        let comps := (List.range parts.length).map fun i => concatExcept i parts
        match (comps.filter p).head? with
        | some cmp => ddminList.go p fuel cmp (max (n - 1) 2)
        | none => if n < c.length then ddminList.go p fuel c (min (2 * n) c.length) else some c

/-- Reduces `xs`, on which `p` holds, to a sublist that still satisfies `p`. -/
def ddminList (p : List α → Bool) (xs : List α) : Option (List α) :=
  ddminList.go p ((xs.length + 1) * (xs.length + 1)) xs 2

/-! ## Parts and complements -/

theorem flatten_chunk {sz : Nat} (hsz : 0 < sz) : ∀ {fuel : Nat} {xs : List α}, xs.length ≤ fuel →
    (splitInto.chunk sz fuel xs).flatten = xs := by
  intro fuel
  induction fuel with
  | zero =>
    intro xs h
    rw [List.length_eq_zero_iff.1 (Nat.le_zero.1 h)]
    rfl
  | succ fuel ih =>
    intro xs h
    cases xs with
    | nil => rfl
    | cons y ys =>
      have hle : ((y :: ys).drop sz).length ≤ fuel := by
        rw [List.length_drop]
        rw [List.length_cons] at h ⊢
        omega
      rw [splitInto.chunk, List.flatten_cons, ih hle, List.take_append_drop]

theorem length_chunk {sz fuel : Nat} {xs s : List α} (h : s ∈ splitInto.chunk sz fuel xs) : s.length ≤ sz := by
  induction fuel generalizing xs with
  | zero => cases h
  | succ fuel ih =>
    cases xs with
    | nil => cases h
    | cons y ys =>
      rcases List.mem_cons.1 h with rfl | h
      · exact List.length_take_le sz _
      · exact ih h

theorem chunk_one : ∀ {fuel : Nat} {xs : List α}, xs.length ≤ fuel →
    splitInto.chunk 1 fuel xs = xs.map fun x => [x] := by
  intro fuel
  induction fuel with
  | zero =>
    intro xs h
    rw [List.length_eq_zero_iff.1 (Nat.le_zero.1 h)]
    rfl
  | succ fuel ih =>
    intro xs h
    cases xs with
    | nil => rfl
    | cons y ys =>
      have hrest := @ih ys (Nat.le_of_succ_le_succ h)
      rw [splitInto.chunk, List.take_succ_cons, List.take_zero, List.drop_succ_cons, List.drop_zero, hrest,
        List.map_cons]

/-- The parts make up the list. -/
theorem flatten_splitInto (n : Nat) (xs : List α) : (splitInto n xs).flatten = xs := by
  rw [splitInto, List.flatten_filter_not_isEmpty]
  exact flatten_chunk (by omega) le_rfl

theorem ne_nil_of_mem_splitInto {n : Nat} {xs s : List α} (h : s ∈ splitInto n xs) : s ≠ [] := by
  have := (List.mem_filter.1 h).2
  simpa using this

/-- With two parts or more, each is shorter than the list. -/
theorem length_splitInto {n : Nat} {xs s : List α} (hn : 2 ≤ n) (hlen : 2 ≤ xs.length) (h : s ∈ splitInto n xs) :
    s.length < xs.length := by
  have hle := length_chunk (List.mem_filter.1 h).1
  have hdiv : (xs.length + n - 1) / n < xs.length := by
    rw [Nat.div_lt_iff_lt_mul (by omega)]
    obtain ⟨k, hk⟩ : ∃ k, xs.length = k + 1 := ⟨xs.length - 1, by omega⟩
    have hmul := Nat.mul_le_mul_left k hn
    rw [hk, Nat.succ_mul]
    omega
  omega

/-- At the finest granularity the parts are single elements. -/
theorem splitInto_singletons {n : Nat} {xs : List α} (hn : xs.length ≤ n) (hlen : xs ≠ []) :
    splitInto n xs = xs.map fun x => [x] := by
  have hpos := List.length_pos_iff.2 hlen
  have hdiv : (xs.length + n - 1) / n < 2 := by
    rw [Nat.div_lt_iff_lt_mul (by omega)]
    omega
  have hsz : max 1 ((xs.length + n - 1) / n) = 1 := by omega
  rw [splitInto, hsz, chunk_one le_rfl]
  exact List.filter_eq_self.2 fun s hs => by
    obtain ⟨x, _, rfl⟩ := List.mem_map.1 hs
    rfl

theorem filter_zipIdx {β : Type} (xs : List β) (k i : Nat) :
    ((xs.zipIdx k).filter fun e => e.2 ≠ k + i).map Prod.fst = xs.eraseIdx i := by
  induction xs generalizing k i with
  | nil => rfl
  | cons x xs ih =>
    rw [List.zipIdx_cons]
    cases i with
    | zero =>
      have hall : (xs.zipIdx (k + 1)).filter (fun e => e.2 ≠ k + 0) = xs.zipIdx (k + 1) := by
        refine List.filter_eq_self.2 fun e he => ?_
        have := (List.mem_zipIdx he).1
        simp
        omega
      rw [List.filter_cons_of_neg (by simp), hall, List.eraseIdx_cons_zero, List.zipIdx_map_fst]
    | succ i =>
      have hrest := ih (k + 1) i
      rw [List.filter_cons_of_pos (by simp), List.map_cons, List.eraseIdx_cons_succ]
      rw [show k + (i + 1) = k + 1 + i from by omega, hrest]

theorem concatExcept_eq (i : Nat) (parts : List (List α)) : concatExcept i parts = (parts.eraseIdx i).flatten := by
  have h := filter_zipIdx parts 0 i
  rw [Nat.zero_add] at h
  rw [concatExcept, h]

theorem flatten_eraseIdx_singletons (xs : List α) (i : Nat) :
    ((xs.map fun x => [x]).eraseIdx i).flatten = xs.eraseIdx i := by
  rw [List.eraseIdx_map, ← List.flatMap_def, List.flatMap_singleton']

/-- A complement is a shorter sublist. -/
theorem flatten_eraseIdx {parts : List (List α)} (hne : ∀ s ∈ parts, s ≠ []) {i : Nat} (hi : i < parts.length) :
    (parts.eraseIdx i).flatten.Sublist parts.flatten ∧ (parts.eraseIdx i).flatten.length < parts.flatten.length := by
  induction parts generalizing i with
  | nil => cases hi
  | cons s parts ih =>
    cases i with
    | zero =>
      have hs := List.length_pos_iff.2 (hne s List.mem_cons_self)
      rw [List.eraseIdx_cons_zero, List.flatten_cons, List.length_append]
      exact ⟨List.sublist_append_right _ _, by omega⟩
    | succ i =>
      obtain ⟨hsub, hlt⟩ := ih (fun t ht => hne t (List.mem_cons_of_mem _ ht)) (Nat.lt_of_succ_lt_succ hi)
      rw [List.eraseIdx_cons_succ, List.flatten_cons, List.flatten_cons, List.length_append, List.length_append]
      exact ⟨hsub.append_left s, by omega⟩

/-! ## The result -/

/-- No single element can be removed without losing `p`. -/
def OneMinimal (p : List α → Bool) (r : List α) : Prop := ∀ i < r.length, p (r.eraseIdx i) = false

/-- What the loop gives: a sublist that keeps `p` and, from two elements on, is
    1-minimal. -/
structure Reduced (p : List α → Bool) (c r : List α) : Prop where
  sublist : r.Sublist c
  holds : p c = true → p r = true
  minimal : 2 ≤ r.length → OneMinimal p r

theorem Reduced.of_sub {p : List α → Bool} {c s r : List α} (h : Reduced p s r) (hsub : s.Sublist c) (hs : p s = true) :
    Reduced p c r := ⟨h.sublist.trans hsub, fun _ => h.holds hs, h.minimal⟩

theorem mem_of_head_filter {β : Type} {q : β → Bool} {xs : List β} {x : β} (h : (xs.filter q).head? = some x) :
    x ∈ xs ∧ q x = true := List.mem_filter.1 (List.mem_of_mem_head? h)

theorem of_head_filter_none {β : Type} {q : β → Bool} {xs : List β} (h : (xs.filter q).head? = none) :
    ∀ x ∈ xs, q x = false := fun x hx => by
  have := List.filter_eq_nil_iff.1 (List.head?_eq_none_iff.1 h) x hx
  simpa using this

/-- The loop ends: each round gets a shorter list or a finer granularity. -/
theorem go_spec (p : List α → Bool) : ∀ (fuel : Nat) (c : List α) (n : Nat), 2 ≤ n →
    c.length * (c.length + 1) + (c.length - n) < fuel → ∃ r, ddminList.go p fuel c n = some r ∧ Reduced p c r := by
  intro fuel
  induction fuel with
  | zero =>
    intro c n _ h
    cases h
  | succ fuel ih =>
    intro c n hn hfuel
    -- a shorter list may start again at any granularity
    have hshorter : ∀ {s : List α}, s.length < c.length → ∀ m, s.length * (s.length + 1) + (s.length - m) < fuel := by
      intro s hs m
      have hmul := Nat.mul_le_mul (show s.length ≤ c.length - 1 by omega) (show s.length + 1 ≤ c.length by omega)
      have hsq : (c.length - 1) * c.length + c.length = c.length * c.length := by
        obtain ⟨k, hk⟩ : ∃ k, c.length = k + 1 := ⟨c.length - 1, by omega⟩
        rw [hk, Nat.add_sub_cancel, Nat.succ_mul]
      rw [Nat.mul_add, Nat.mul_one] at hfuel
      omega
    rw [ddminList.go]
    by_cases hone : c.length ≤ 1
    · rw [if_pos hone]
      exact ⟨c, rfl, List.Sublist.refl c, id, fun h2 => by omega⟩
    rw [if_neg hone]
    dsimp only
    have hflat := flatten_splitInto n c
    cases hpart : ((splitInto n c).filter fun s => !s.isEmpty && p s).head? with
    | some s =>
      obtain ⟨hmem, hs⟩ := mem_of_head_filter hpart
      obtain ⟨r, hr, hred⟩ := ih s 2 le_rfl (hshorter (length_splitInto hn (by omega) hmem) 2)
      refine ⟨r, hr, hred.of_sub ?_ (Bool.and_eq_true_iff.1 hs).2⟩
      exact hflat ▸ List.sublist_flatten_of_mem hmem
    | none =>
      dsimp only
      cases hcomp : (((List.range (splitInto n c).length).map fun i => concatExcept i (splitInto n c)).filter p).head? with
      | some cmp =>
        obtain ⟨hmem, hcmp⟩ := mem_of_head_filter hcomp
        obtain ⟨i, hi, rfl⟩ := List.mem_map.1 hmem
        obtain ⟨hsub, hlt⟩ := flatten_eraseIdx (fun s => ne_nil_of_mem_splitInto) (List.mem_range.1 hi)
        rw [← concatExcept_eq, hflat] at hsub hlt
        obtain ⟨r, hr, hred⟩ := ih _ (max (n - 1) 2) (le_max_right _ _) (hshorter hlt _)
        exact ⟨r, hr, hred.of_sub hsub hcmp⟩
      | none =>
        dsimp only
        by_cases hfine : n < c.length
        · rw [if_pos hfine]
          exact ih c (min (2 * n) c.length) (by omega) (by omega)
        · rw [if_neg hfine]
          refine ⟨c, rfl, List.Sublist.refl c, id, fun _ i hi => ?_⟩
          -- the parts are the single elements, so the complements are the removals
          have hsingle := splitInto_singletons (not_lt.1 hfine) (by rintro rfl; cases hi)
          have hnone := of_head_filter_none hcomp (concatExcept i (splitInto n c))
            (List.mem_map.2 ⟨i, List.mem_range.2 (by rw [hsingle, List.length_map]; exact hi), rfl⟩)
          rwa [concatExcept_eq, hsingle, flatten_eraseIdx_singletons] at hnone

/-- **Delta debugging ends**, for every predicate. -/
theorem ddminList_spec (p : List α → Bool) (xs : List α) : ∃ r, ddminList p xs = some r ∧ Reduced p xs r := by
  refine go_spec p _ xs 2 le_rfl ?_
  rw [Nat.add_mul, Nat.mul_add, Nat.mul_add]
  omega

/-- **Every result is 1-minimal** exactly if the predicate does not hold of the
    empty list and of a singleton at once: a list of one element is never tried
    without it. -/
theorem ddminList_minimal_iff (p : List α → Bool) :
    (∀ xs, p xs = true → ∃ r, ddminList p xs = some r ∧ r.Sublist xs ∧ p r = true ∧ OneMinimal p r) ↔
      (p [] = true → ∀ x, p [x] = false) := by
  constructor
  · intro h hnil x
    by_contra hx
    obtain ⟨r, hr, _, _, hmin⟩ := h [x] (by simpa using hx)
    have hself : ddminList p [x] = some [x] := rfl
    rw [hself] at hr
    cases hr
    have := hmin 0 Nat.one_pos
    rw [List.eraseIdx_cons_zero, hnil] at this
    cases this
  · intro h xs hxs
    obtain ⟨r, hr, hred⟩ := ddminList_spec p xs
    refine ⟨r, hr, hred.sublist, hred.holds hxs, ?_⟩
    by_cases h2 : 2 ≤ r.length
    · exact hred.minimal h2
    · intro i hi
      obtain ⟨x, rfl⟩ := List.length_eq_one_iff.1 (show r.length = 1 by omega)
      obtain rfl : i = 0 := by simpa using hi
      rw [List.eraseIdx_cons_zero]
      by_contra hnil
      rw [Bool.not_eq_false] at hnil
      have := h hnil x
      rw [hred.holds hxs] at this
      cases this

end Wireform.Sim

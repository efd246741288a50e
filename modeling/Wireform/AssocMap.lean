/-
  Finite maps as association lists in ascending key order.

  `lookup` finds the first entry of a key, `insert` replaces it or adds it in
  its place.  The lookup lemmas hold for every list, so no invariant has to be
  carried along with a map.
-/
import Mathlib.Order.Basic
import Mathlib.Data.List.Basic
import Mathlib.Algebra.BigOperators.Group.Finset.Piecewise
import Mathlib.Algebra.GroupWithZero.Nat

namespace Wireform

variable {κ β : Type} [LinearOrder κ]

abbrev AssocMap (κ β : Type) := List (κ × β)

namespace AssocMap

def lookup (k : κ) : AssocMap κ β → Option β
  | [] => none
  | (k', v) :: m => if k = k' then some v else lookup k m

attribute [grind =] lookup

def insert (k : κ) (v : β) : AssocMap κ β → AssocMap κ β
  | [] => [(k, v)]
  | (k', v') :: m =>
    if k = k' then (k, v) :: m
    else if k < k' then (k, v) :: (k', v') :: m
    else (k', v') :: insert k v m

attribute [grind =] insert

/-- Change the value of a key that is there. -/
def adjust (f : β → β) (k : κ) (m : AssocMap κ β) : AssocMap κ β :=
  match lookup k m with
  | some v => insert k (f v) m
  | none => m

/-- Insert, or combine the value with the one that is there. -/
def insertWith (f : β → β → β) (k : κ) (v : β) (m : AssocMap κ β) : AssocMap κ β :=
  match lookup k m with
  | some old => insert k (f v old) m
  | none => insert k v m

/-- The map of a list of entries; of two entries with one key the later
    counts. -/
def fromList (xs : List (κ × β)) : AssocMap κ β :=
  xs.foldl (fun m e => insert e.1 e.2 m) []

@[simp] theorem lookup_nil (k : κ) : lookup k ([] : AssocMap κ β) = none := rfl

@[simp] theorem lookup_insert (k k' : κ) (v : β) (m : AssocMap κ β) :
    lookup k' (insert k v m) = if k' = k then some v else lookup k' m := by
  induction m with
  | nil => simp [insert, lookup]
  | cons e m ih =>
    obtain ⟨k₁, v₁⟩ := e
    unfold insert
    split_ifs with h1 h2 h3 h4 h5 <;> simp_all [lookup]

@[simp] theorem lookup_adjust (f : β → β) (k k' : κ) (m : AssocMap κ β) :
    lookup k' (adjust f k m) = if k' = k then (lookup k m).map f else lookup k' m := by
  unfold adjust
  split
  · rename_i v hv
    rw [lookup_insert, hv]
    rfl
  · rename_i hn
    split
    · rename_i h
      rw [h, hn]
      rfl
    · rfl

theorem lookup_insertWith (f : β → β → β) (k k' : κ) (v : β) (m : AssocMap κ β) :
    lookup k' (insertWith f k v m) =
      if k' = k then some ((lookup k m).elim v (f v)) else lookup k' m := by
  unfold insertWith
  split
  · rename_i old hold
    rw [lookup_insert, hold]
    rfl
  · rename_i hnone
    rw [lookup_insert, hnone]
    rfl

theorem lookup_foldl_insert (k : κ) : ∀ (xs : List (κ × β)) (m : AssocMap κ β) (v : β),
    lookup k (xs.foldl (fun m e => insert e.1 e.2 m) m) = some v →
      (k, v) ∈ xs ∨ lookup k m = some v
  | [], _, _, h => Or.inr h
  | (k', v') :: xs, m, v, h => by
    rcases lookup_foldl_insert k xs _ v h with h | h
    · exact Or.inl (by simp [h])
    · rw [lookup_insert] at h
      split at h
      · rename_i hk; cases h; exact Or.inl (by simp [hk])
      · exact Or.inr h

theorem lookup_foldl_insert_of_not_mem (k : κ) : ∀ (xs : List (κ × β)) (m : AssocMap κ β),
    (∀ e ∈ xs, e.1 ≠ k) → lookup k (xs.foldl (fun m e => insert e.1 e.2 m) m) = lookup k m
  | [], _, _ => rfl
  | (k', v') :: xs, m, h => by
    rw [List.foldl_cons, lookup_foldl_insert_of_not_mem k xs _ fun e he => h e (by simp [he]),
      lookup_insert, if_neg]
    exact fun hk => h (k', v') (by simp) hk.symm

variable {m : AssocMap κ β} {k : κ} {xs : List (κ × β)} {v : β}

/-- An entry found in `fromList xs` is one of `xs`. -/
theorem mem_of_lookup_fromList
    (h : lookup k (fromList xs) = some v) : (k, v) ∈ xs := by
  rcases lookup_foldl_insert k xs [] v h with h | h
  · exact h
  · cases h

/-- With distinct keys, every entry is found. -/
theorem lookup_fromList_of_mem
    (hd : (xs.map Prod.fst).Nodup) (h : (k, v) ∈ xs) : lookup k (fromList xs) = some v := by
  obtain ⟨l₁, l₂, rfl⟩ := List.append_of_mem h
  unfold fromList
  rw [List.foldl_append, List.foldl_cons, lookup_foldl_insert_of_not_mem, lookup_insert,
    if_pos rfl]
  intro e he hk
  simp only [List.map_append, List.map_cons, List.nodup_append, List.nodup_cons] at hd
  exact hd.2.1.1 (hk ▸ List.mem_map_of_mem he)

/-! ## Entries -/

/-- The keys are in strictly ascending order. -/
def Ascending (m : AssocMap κ β) : Prop := m.Pairwise fun e e' => e.1 < e'.1

theorem mem_insert {e : κ × β} (h : e ∈ insert k v m) :
    e = (k, v) ∨ e ∈ m := by
  induction m with
  | nil => simpa [insert] using h
  | cons e' m ih =>
    unfold insert at h
    split_ifs at h
    · rcases List.mem_cons.1 h with h | h
      · exact Or.inl h
      · exact Or.inr (List.mem_cons_of_mem _ h)
    · rcases List.mem_cons.1 h with h | h
      · exact Or.inl h
      · exact Or.inr h
    · rcases List.mem_cons.1 h with rfl | h
      · exact Or.inr List.mem_cons_self
      · exact (ih h).imp_right (List.mem_cons_of_mem _)

theorem mem_of_lookup (h : lookup k m = some v) : (k, v) ∈ m := by
  induction m with
  | nil => cases h
  | cons e m ih =>
    rw [lookup] at h
    split_ifs at h with hk
    · cases h
      rw [hk]
      exact List.mem_cons_self
    · exact List.mem_cons_of_mem _ (ih h)

/-- A new key leaves the other entries. -/
theorem mem_insert_of_lookup_none (hnone : lookup k m = none) (e : κ × β) :
    e ∈ insert k v m ↔ e = (k, v) ∨ e ∈ m := by
  refine ⟨mem_insert, ?_⟩
  induction m with
  | nil => exact fun h => List.mem_singleton.2 (h.resolve_right List.not_mem_nil)
  | cons e' m ih =>
    rw [lookup] at hnone
    split_ifs at hnone with hk
    unfold insert
    rw [if_neg hk]
    split_ifs with hlt
    · exact List.mem_cons.2
    · rintro (rfl | h)
      · exact List.mem_cons_of_mem _ (ih hnone (Or.inl rfl))
      · rcases List.mem_cons.1 h with rfl | h
        · exact List.mem_cons_self
        · exact List.mem_cons_of_mem _ (ih hnone (Or.inr h))

theorem Ascending.insert {m : AssocMap κ β} (h : Ascending m) (k : κ) (v : β) :
    Ascending (insert k v m) := by
  induction m with
  | nil => simp [AssocMap.insert, Ascending]
  | cons e m ih =>
    obtain ⟨hlt, hm⟩ := List.pairwise_cons.1 h
    unfold AssocMap.insert
    split_ifs with h1 h2
    · exact List.pairwise_cons.2 ⟨fun e' he' => h1 ▸ hlt e' he', hm⟩
    · refine List.pairwise_cons.2 ⟨fun e' he' => ?_, h⟩
      rcases List.mem_cons.1 he' with rfl | he'
      · exact h2
      · exact h2.trans (hlt e' he')
    · refine List.pairwise_cons.2 ⟨fun e' he' => ?_, ih hm⟩
      rcases mem_insert he' with rfl | he'
      · exact lt_of_le_of_ne (not_lt.1 h2) (Ne.symm h1)
      · exact hlt e' he'

theorem Ascending.adjust {m : AssocMap κ β} (h : Ascending m) (f : β → β) (k : κ) :
    Ascending (adjust f k m) := by
  unfold AssocMap.adjust
  split
  · exact h.insert k _
  · exact h

theorem ascending_fromList (xs : List (κ × β)) : Ascending (fromList xs) := by
  suffices ∀ m : AssocMap κ β, Ascending m →
      Ascending (xs.foldl (fun m e => AssocMap.insert e.1 e.2 m) m) from this [] List.Pairwise.nil
  induction xs with
  | nil => exact fun m h => h
  | cons e xs ih => exact fun m h => ih _ (h.insert e.1 e.2)

/-- The entries of a map are what `lookup` finds. -/
theorem Ascending.mem_iff (h : Ascending m) (k : κ) (v : β) :
    (k, v) ∈ m ↔ lookup k m = some v := by
  induction m with
  | nil => simp
  | cons e m ih =>
    obtain ⟨k', v'⟩ := e
    obtain ⟨hlt, hm⟩ := List.pairwise_cons.1 h
    rw [List.mem_cons, ih hm, lookup]
    by_cases hk : k = k'
    · subst hk
      rw [if_pos rfl]
      constructor
      · rintro (he | he)
        · cases he; rfl
        · exact absurd (hlt _ ((ih hm).2 he)) (lt_irrefl _)
      · rintro he
        cases he
        exact Or.inl rfl
    · rw [if_neg hk]
      refine ⟨fun he => he.resolve_left ?_, Or.inr⟩
      rintro he
      cases he
      exact hk rfl

/-- The keys of a map are what `lookup` finds. -/
theorem Ascending.key_iff (h : Ascending m) (k : κ) :
    k ∈ m.map Prod.fst ↔ ∃ v, lookup k m = some v := by
  simp only [List.mem_map, Prod.exists, exists_and_right, exists_eq_right, h.mem_iff]

theorem Ascending.nodup_keys (h : Ascending m) : (m.map Prod.fst).Nodup :=
  List.pairwise_map.2 (h.imp fun {_ _} hlt => hlt.ne)

/-- Maps that find the same are equal. -/
theorem Ascending.ext {m m' : AssocMap κ β} (h : Ascending m) (h' : Ascending m') (heq : ∀ k, lookup k m = lookup k m') :
    m = m' := by
  have hperm : m.Perm m' := by
    refine (List.perm_ext_iff_of_nodup h.nodup_keys.of_map h'.nodup_keys.of_map).2 fun e => ?_
    obtain ⟨k, v⟩ := e
    rw [h.mem_iff, h'.mem_iff, heq]
  exact hperm.eq_of_pairwise (fun _ _ _ _ hlt hgt => absurd (lt_trans hlt hgt) (lt_irrefl _)) h h'

theorem Ascending.insertWith {m : AssocMap κ β} (h : Ascending m) (f : β → β → β) (k : κ) (v : β) :
    Ascending (insertWith f k v m) := by
  unfold AssocMap.insertWith
  split
  · exact h.insert k _
  · exact h.insert k v

/-- What is at a key, and the rest. -/
theorem Ascending.perm_of_lookup (h : Ascending m) (hk : lookup k m = some v) :
    m.Perm ((k, v) :: m.filter fun e => e.1 ≠ k) := by
  induction m with
  | nil => cases hk
  | cons e m ih =>
    obtain ⟨hlt, hm⟩ := List.pairwise_cons.1 h
    rw [lookup] at hk
    split_ifs at hk with he
    · cases hk
      have hrest : m.filter (fun e => e.1 ≠ k) = m := by
        refine List.filter_eq_self.2 fun e' he' => ?_
        have := hlt e' he'
        simp only [ne_eq, decide_not, Bool.not_eq_true', decide_eq_false_iff_not]
        rintro rfl
        exact absurd this (he ▸ lt_irrefl _)
      rw [List.filter_cons_of_neg (by simp [he]), hrest, he]
    · rw [List.filter_cons_of_pos (by simpa using Ne.symm he)]
      exact ((ih hm hk).cons e).trans (List.Perm.swap _ _ _)

/-- An insertion replaces what is at the key. -/
theorem Ascending.perm_insert (h : Ascending m) (k : κ) (v : β) :
    (AssocMap.insert k v m).Perm ((k, v) :: m.filter fun e => e.1 ≠ k) := by
  have hperm := (h.insert k v).perm_of_lookup (k := k) (v := v) (by rw [lookup_insert, if_pos rfl])
  refine hperm.trans (List.Perm.cons _ (List.Perm.of_eq ?_))
  clear hperm h
  induction m with
  | nil => simp [AssocMap.insert]
  | cons e m ih =>
    unfold AssocMap.insert
    split_ifs with h1 h2
    · rw [List.filter_cons_of_neg (by simp), List.filter_cons_of_neg (by simp [h1])]
    · rw [List.filter_cons_of_neg (by simp)]
    · rw [List.filter_cons_of_pos (by simpa using Ne.symm h1), List.filter_cons_of_pos (by simpa using Ne.symm h1),
        ih]

theorem Ascending.length_insert (h : Ascending m) (k : κ) (v : β) :
    (AssocMap.insert k v m).length = if (lookup k m).isNone then m.length + 1 else m.length := by
  rw [(h.perm_insert k v).length_eq, List.length_cons]
  cases hk : lookup k m with
  | none =>
    have hrest : m.filter (fun e => e.1 ≠ k) = m := by
      refine List.filter_eq_self.2 fun e he => ?_
      simp only [ne_eq, decide_not, Bool.not_eq_true', decide_eq_false_iff_not]
      rintro rfl
      rw [(h.mem_iff _ _).1 he] at hk
      cases hk
    rw [hrest]
    rfl
  | some v' =>
    rw [(h.perm_of_lookup hk).length_eq]
    rfl

/-! ## Totals -/

/-- The sum of a weight over the entries. -/
def total (f : κ → β → Nat) (m : AssocMap κ β) : Nat := (m.map fun e => f e.1 e.2).sum

/-- The weight of a key. -/
def weight (f : κ → β → Nat) (m : AssocMap κ β) (k : κ) : Nat := (lookup k m).elim 0 (f k)

theorem lookup_eq_none (h : k ∉ m.map Prod.fst) : lookup k m = none := by
  induction m with
  | nil => rfl
  | cons e m ih =>
    rw [List.map_cons, List.mem_cons, not_or] at h
    rw [lookup, if_neg h.1]
    exact ih h.2

/-- Every key of the list is in its map. -/
theorem exists_lookup_fromList (h : k ∈ xs.map Prod.fst) :
    ∃ v, lookup k (fromList xs) = some v := by
  induction xs using List.reverseRecOn with
  | nil => cases h
  | append_singleton xs e ih =>
    have hsnoc : fromList (xs ++ [e]) = insert e.1 e.2 (fromList xs) := by
      unfold fromList
      rw [List.foldl_append]
      rfl
    rw [hsnoc, lookup_insert]
    split_ifs with hk
    · exact ⟨e.2, rfl⟩
    · rw [List.map_append] at h
      rcases List.mem_append.1 h with h | h
      · exact ih h
      · exact absurd (List.mem_singleton.1 h) hk

theorem lookup_filter_ne (k k' : κ) (m : AssocMap κ β) :
    lookup k' (m.filter fun e => e.1 ≠ k) = if k' = k then none else lookup k' m := by
  induction m with
  | nil => simp
  | cons e m ih =>
    by_cases he : e.1 = k
    · rw [List.filter_cons, if_neg (by simp [he]), ih]
      by_cases hk : k' = k
      · rw [if_pos hk, if_pos hk]
      · rw [if_neg hk, if_neg hk, lookup, if_neg (by rw [he]; exact hk)]
    · rw [List.filter_cons, if_pos (by simp [he]), lookup, lookup, ih]
      by_cases hk : k' = e.1
      · rw [if_pos hk, if_pos hk, if_neg (by rw [hk]; exact he)]
      · rw [if_neg hk, if_neg hk]

theorem lookup_map {γ : Type} (f : β → γ) (k : κ) (m : AssocMap κ β) :
    lookup k (m.map fun e => (e.1, f e.2)) = (lookup k m).map f := by
  induction m with
  | nil => rfl
  | cons e m ih =>
    rw [List.map_cons, lookup, lookup, ih]
    split_ifs
    · rfl
    · rfl

/-- A total is the sum of the weights of the keys. -/
theorem Ascending.total_eq {f : κ → β → Nat} (h : Ascending m) {S : Finset κ}
    (hS : ∀ k ∈ m.map Prod.fst, k ∈ S) : total f m = ∑ k ∈ S, weight f m k := by
  induction m with
  | nil => exact (Finset.sum_eq_zero fun _ _ => rfl).symm
  | cons e m ih =>
    obtain ⟨k, v⟩ := e
    obtain ⟨hlt, hm⟩ := List.pairwise_cons.1 h
    have hk : k ∉ m.map Prod.fst := by
      intro hin
      obtain ⟨e, he, rfl⟩ := List.mem_map.1 hin
      exact lt_irrefl _ (hlt e he)
    have hweight : ∀ x, weight f ((k, v) :: m) x = weight f m x + if x = k then f k v else 0 := by
      intro x
      unfold weight
      rw [lookup]
      split
      · rename_i hx
        rw [hx, lookup_eq_none hk]
        exact (Nat.zero_add _).symm
      · rfl
    have hcons : total f ((k, v) :: m) = f k v + total f m := List.sum_cons
    rw [hcons, ih hm fun x hx => hS x (List.mem_cons_of_mem _ hx), Finset.sum_congr rfl fun x _ => hweight x,
      Finset.sum_add_distrib, Finset.sum_ite_eq' S k, if_pos (hS k List.mem_cons_self)]
    exact Nat.add_comm _ _

/-- Two maps that differ at one key differ in total by its weights. -/
theorem total_change {f f' : κ → β → Nat} {m m' : AssocMap κ β} (hm : Ascending m) (hm' : Ascending m')
    (k : κ) (h : ∀ x, x ≠ k → weight f' m' x = weight f m x) :
    total f' m' + weight f m k = total f m + weight f' m' k := by
  have hall : ∀ x ∈ m.map Prod.fst ++ m'.map Prod.fst,
      x ∈ Insert.insert k ((m.map Prod.fst).toFinset ∪ (m'.map Prod.fst).toFinset) := by
    intro x hx
    rw [Finset.mem_insert, Finset.mem_union, List.mem_toFinset, List.mem_toFinset]
    exact Or.inr (List.mem_append.1 hx)
  have h1 := Finset.add_sum_erase _ (fun x => weight f m x) (Finset.mem_insert_self k
    ((m.map Prod.fst).toFinset ∪ (m'.map Prod.fst).toFinset))
  have h2 := Finset.add_sum_erase _ (fun x => weight f' m' x) (Finset.mem_insert_self k
    ((m.map Prod.fst).toFinset ∪ (m'.map Prod.fst).toFinset))
  rw [Finset.sum_congr rfl fun x hx => h x (Finset.ne_of_mem_erase hx)] at h2
  rw [hm.total_eq fun x hx => hall x (List.mem_append_left _ hx),
    hm'.total_eq fun x hx => hall x (List.mem_append_right _ hx), ← h1, ← h2]
  simp only [Nat.add_comm, Nat.add_left_comm]

end AssocMap

end Wireform

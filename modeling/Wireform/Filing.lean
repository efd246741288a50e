/-
  Items filed in a map of lists.

  An item has an address: the key in whose list it belongs.  `Filed addr S m` says that
  the lists of `m` hold those items of `S` that have an address, each of them once and
  under its address.

  * `Filed.push`, `Filed.erase`: one item comes in, the items of one key go out;
  * `Filed.mem_filter`, `Filed.perm_of_mem`: what is under the keys that one asks for;
  * `mapLists`: the same map with other items, which all operations commute with.
-/
import Mathlib.Data.Set.Insert
import Wireform.AssocMap

namespace Wireform.AssocMap

variable {κ ι ι' : Type} [LinearOrder κ] {m : AssocMap κ (List ι)} {k : κ} {x : ι}

/-- Add to the list of a key. -/
def push (k : κ) (x : ι) (m : AssocMap κ (List ι)) : AssocMap κ (List ι) :=
  insert k ((lookup k m).elim [x] (· ++ [x])) m

def erase {β : Type} (k : κ) (m : AssocMap κ β) : AssocMap κ β := m.filter fun e => e.1 ≠ k

theorem lookup_erase {β : Type} (k k' : κ) (m : AssocMap κ β) :
    lookup k' (erase k m) = if k' = k then none else lookup k' m := lookup_filter_ne k k' m

/-- Everything in the lists, by key. -/
def items (m : AssocMap κ (List ι)) : List ι := m.flatMap Prod.snd

omit [LinearOrder κ] in
theorem mem_items : x ∈ items m ↔ ∃ e ∈ m, x ∈ e.2 := List.mem_flatMap

theorem Ascending.filter {β : Type} {m : AssocMap κ β} (h : Ascending m) (p : κ × β → Bool) :
    Ascending (m.filter p) := List.Pairwise.filter p h

theorem Ascending.push (h : Ascending m) (k : κ) (x : ι) : Ascending (push k x m) := h.insert k _

theorem Ascending.items_push (h : Ascending m) (k : κ) (x : ι) : (items (AssocMap.push k x m)).Perm (x :: items m) := by
  have hpush : (items (AssocMap.push k x m)).Perm _ := (h.perm_insert k _).flatMap_right Prod.snd
  refine hpush.trans ?_
  rw [List.flatMap_cons]
  cases hk : lookup k m with
  | none =>
    have hrest : m.filter (fun e => e.1 ≠ k) = m := by
      refine List.filter_eq_self.2 fun e he => ?_
      simp only [ne_eq, decide_not, Bool.not_eq_true', decide_eq_false_iff_not]
      rintro rfl
      rw [(h.mem_iff _ _).1 he] at hk
      cases hk
    rw [hrest]
    exact List.Perm.refl _
  | some xs =>
    have hold : (items m).Perm _ := (h.perm_of_lookup hk).flatMap_right Prod.snd
    refine List.Perm.trans ?_ (hold.symm.cons x)
    simp only [Option.elim_some, List.flatMap_cons, List.append_assoc, List.singleton_append]
    exact List.perm_middle

/-! ## Filed items -/

/-- **The map holds the items of `S`, each of them once and under its address.** -/
structure Filed (addr : ι → Option κ) (S : Set ι) (m : AssocMap κ (List ι)) : Prop where
  ascending : Ascending m
  nodup : (items m).Nodup
  inhabited : ∀ e ∈ m, e.2 ≠ []
  mem : ∀ k x, (∃ xs, (k, xs) ∈ m ∧ x ∈ xs) ↔ x ∈ S ∧ addr x = some k

variable {addr : ι → Option κ} {S T : Set ι}

theorem Filed.empty : Filed addr ∅ [] where
  ascending := List.Pairwise.nil
  nodup := List.nodup_nil
  inhabited _ he := absurd he List.not_mem_nil
  mem := by simp

theorem Filed.congr (h : Filed addr S m) (hS : ∀ x k, addr x = some k → (x ∈ S ↔ x ∈ T)) : Filed addr T m where
  ascending := h.ascending
  nodup := h.nodup
  inhabited := h.inhabited
  mem k x := by
    rw [h.mem]
    exact and_congr_left fun hk => hS x k hk

theorem Filed.addr_eq (h : Filed addr S m) {e : κ × List ι} (he : e ∈ m) (hx : x ∈ e.2) : addr x = some e.1 :=
  ((h.mem e.1 x).1 ⟨e.2, he, hx⟩).2

/-- Every key of the map is the address of some item. -/
theorem Filed.exists_addr (h : Filed addr S m) {e : κ × List ι} (he : e ∈ m) : ∃ x ∈ S, addr x = some e.1 := by
  obtain ⟨x, hx⟩ := List.exists_mem_of_ne_nil _ (h.inhabited e he)
  exact ⟨x, (h.mem e.1 x).1 ⟨e.2, he, hx⟩⟩

theorem Filed.mem_items (h : Filed addr S m) : x ∈ items m ↔ x ∈ S ∧ ∃ k, addr x = some k := by
  rw [AssocMap.mem_items]
  constructor
  · rintro ⟨e, he, hx⟩
    obtain ⟨hS, hk⟩ := (h.mem e.1 x).1 ⟨e.2, he, hx⟩
    exact ⟨hS, e.1, hk⟩
  · rintro ⟨hS, k, hk⟩
    obtain ⟨xs, he, hx⟩ := (h.mem k x).2 ⟨hS, hk⟩
    exact ⟨(k, xs), he, hx⟩

theorem Filed.push (h : Filed addr S m) (hx : x ∉ S) (hk : addr x = some k) :
    Filed addr {y | y = x ∨ y ∈ S} (push k x m) where
  ascending := h.ascending.push k x
  nodup := by
    rw [(h.ascending.items_push k x).nodup_iff, List.nodup_cons]
    exact ⟨fun hm => hx (h.mem_items.1 hm).1, h.nodup⟩
  inhabited e he := by
    rcases mem_insert he with rfl | he
    · cases lookup k m <;> simp
    · exact h.inhabited e he
  mem k' y := by
    have hmem := h.mem k' y
    simp only [(h.ascending.push k x).mem_iff, h.ascending.mem_iff] at hmem ⊢
    simp only [AssocMap.push, lookup_insert]
    by_cases hkk : k' = k
    · subst hkk
      rw [if_pos rfl]
      cases hl : lookup k' m with
      | none =>
        simp only [hl, reduceCtorEq, false_and, exists_false, false_iff] at hmem
        constructor
        · rintro ⟨xs, hxs, hy⟩
          cases hxs
          cases List.mem_singleton.1 hy
          exact ⟨Or.inl rfl, hk⟩
        · rintro ⟨rfl | hy, hk'⟩
          · exact ⟨_, rfl, List.mem_singleton_self _⟩
          · exact absurd ⟨hy, hk'⟩ hmem
      | some xs =>
        simp only [hl, Option.some.injEq, exists_eq_left'] at hmem
        simp only [Option.elim_some, Option.some.injEq, exists_eq_left', List.mem_append, List.mem_singleton,
          hmem, Set.mem_ofPred_eq]
        constructor
        · rintro (⟨hy, hk'⟩ | rfl)
          · exact ⟨Or.inr hy, hk'⟩
          · exact ⟨Or.inl rfl, hk⟩
        · rintro ⟨rfl | hy, hk'⟩
          · exact Or.inr rfl
          · exact Or.inl ⟨hy, hk'⟩
    · rw [if_neg hkk, hmem, Set.mem_ofPred_eq]
      refine and_congr_left fun hk' => ⟨Or.inr, fun hy => hy.resolve_left ?_⟩
      rintro rfl
      rw [hk] at hk'
      cases hk'
      exact hkk rfl

/-- The items under the keys that satisfy `p`. -/
theorem Filed.filter (h : Filed addr S m) (p : κ → Bool) :
    Filed addr {x ∈ S | ∃ k, addr x = some k ∧ p k = true} (m.filter fun e => p e.1) where
  ascending := h.ascending.filter _
  nodup := List.Nodup.sublist (List.filter_sublist.flatMap Prod.snd) h.nodup
  inhabited e he := h.inhabited e (List.mem_filter.1 he).1
  mem k x := by
    simp only [List.mem_filter, Set.mem_ofPred_eq]
    constructor
    · rintro ⟨xs, ⟨he, hp⟩, hx⟩
      obtain ⟨hS, hk⟩ := (h.mem k x).1 ⟨xs, he, hx⟩
      exact ⟨⟨hS, k, hk, hp⟩, hk⟩
    · rintro ⟨⟨hS, k', hk', hp⟩, hk⟩
      rw [hk] at hk'
      cases hk'
      obtain ⟨xs, he, hx⟩ := (h.mem k x).2 ⟨hS, hk⟩
      exact ⟨xs, ⟨he, hp⟩, hx⟩

theorem Filed.erase (h : Filed addr S m) (k : κ) : Filed addr {x ∈ S | addr x ≠ some k} (erase k m) := by
  refine (h.filter fun k' => decide (k' ≠ k)).congr fun x k' hk' => ?_
  simp [hk']

theorem Filed.foldl_erase (h : Filed addr S m) (ks : List κ) :
    Filed addr {x ∈ S | ∀ k ∈ ks, addr x ≠ some k} (ks.foldl (fun m k => AssocMap.erase k m) m) := by
  induction ks generalizing S m with
  | nil => exact h.congr fun x k _ => by simp
  | cons k ks ih =>
    refine (ih (h.erase k)).congr fun x k' _ => ?_
    simp [and_assoc]

/-- Every list with its key is every item with its address. -/
theorem Filed.filterMap_items {γ : Type} (h : Filed addr S m) {f : κ → ι → Option γ} {g : ι → γ}
    (hfg : ∀ k x, x ∈ S → addr x = some k → f k x = some (g x)) :
    (m.flatMap fun e => e.2.filterMap (f e.1)) = (items m).map g := by
  unfold items
  rw [List.map_flatMap]
  refine List.flatMap_congr fun e he => ?_
  rw [← List.filterMap_eq_map]
  refine List.filterMap_congr fun x hx => ?_
  obtain ⟨hS, hk⟩ := (h.mem e.1 x).1 ⟨e.2, he, hx⟩
  exact hfg e.1 x hS hk

theorem Filed.map_items {γ : Type} (h : Filed addr S m) {f : κ → ι → γ} {g : ι → γ}
    (hfg : ∀ k x, x ∈ S → addr x = some k → f k x = g x) :
    (m.flatMap fun e => e.2.map (f e.1)) = (items m).map g := by
  rw [← h.filterMap_items fun k x hS hk => congrArg some (hfg k x hS hk)]
  refine List.flatMap_congr fun e _ => ?_
  rw [← List.filterMap_eq_map]
  rfl

/-- The items come in the order of their addresses. -/
theorem Filed.pairwise_items (h : Filed addr S m) :
    (items m).Pairwise fun x y => ∀ k k', addr x = some k → addr y = some k' → k ≤ k' := by
  unfold items
  rw [List.pairwise_flatMap]
  constructor
  · intro e he
    refine List.pairwise_of_forall_mem_list fun x hx y hy k k' hk hk' => ?_
    rw [h.addr_eq he hx] at hk
    rw [h.addr_eq he hy] at hk'
    cases hk
    cases hk'
    exact le_refl _
  · refine h.ascending.imp_of_mem fun {e e'} he he' hlt x hx y hy k k' hk hk' => ?_
    rw [h.addr_eq he hx] at hk
    rw [h.addr_eq he' hy] at hk'
    cases hk
    cases hk'
    exact hlt.le

/-! ## Other items -/

/-- The same map with other items. -/
def mapLists (f : ι → ι') (m : AssocMap κ (List ι)) : AssocMap κ (List ι') := m.map fun e => (e.1, e.2.map f)

variable (f : ι → ι')

@[simp] theorem lookup_mapLists (k : κ) (m : AssocMap κ (List ι)) :
    lookup k (mapLists f m) = (lookup k m).map (List.map f) := lookup_map _ k m

omit [LinearOrder κ] in
@[simp] theorem keys_mapLists (m : AssocMap κ (List ι)) : (mapLists f m).map Prod.fst = m.map Prod.fst := by
  simp [mapLists, Function.comp_def]

theorem insert_mapLists (k : κ) (xs : List ι) (m : AssocMap κ (List ι)) :
    insert k (xs.map f) (mapLists f m) = mapLists f (insert k xs m) := by
  induction m with
  | nil => rfl
  | cons e m ih =>
    simp only [mapLists, List.map_cons] at ih ⊢
    unfold insert
    split_ifs with h1 h2
    · rfl
    · rfl
    · rw [List.map_cons, ih]

@[simp] theorem push_mapLists (k : κ) (x : ι) (m : AssocMap κ (List ι)) :
    push k (f x) (mapLists f m) = mapLists f (push k x m) := by
  unfold push
  rw [← insert_mapLists, lookup_mapLists]
  cases lookup k m with
  | none => rfl
  | some xs => simp

omit [LinearOrder κ] in
@[simp] theorem filter_mapLists (p : κ → Bool) (m : AssocMap κ (List ι)) :
    (mapLists f m).filter (fun e => p e.1) = mapLists f (m.filter fun e => p e.1) := by
  unfold mapLists
  rw [List.filter_map]
  rfl

@[simp] theorem erase_mapLists (k : κ) (m : AssocMap κ (List ι)) :
    erase k (mapLists f m) = mapLists f (erase k m) := filter_mapLists f (fun k' => decide (k' ≠ k)) m

@[simp] theorem foldl_erase_mapLists (ks : List κ) (m : AssocMap κ (List ι)) :
    ks.foldl (fun m k => erase k m) (mapLists f m) = mapLists f (ks.foldl (fun m k => erase k m) m) := by
  induction ks generalizing m with
  | nil => rfl
  | cons k ks ih => rw [List.foldl_cons, List.foldl_cons, erase_mapLists, ih]

end Wireform.AssocMap

/-
  Grouping lists by a key.

  * `groups`: the values of each key, in order, as a map;
  * `rounds`: the elements in rounds, the k-th of which has the k-th element of
    each key;
  * `filter_groups`, `filter_rounds`: what is grouped keeps, for each key, its
    elements in their order, so nothing is lost or doubled;
  * `nodup_of_mem_rounds`: a round has a key at most once.
-/
import Mathlib.Data.List.SplitBy
import Mathlib.Data.List.Sort
import Wireform.AssocMap

namespace Wireform

variable {κ α β : Type}

/-! ## Groups -/

section
variable [LinearOrder κ]

/-- `fromListWith (flip (++))`: the values of each key, in order. -/
def groups (xs : List (κ × β)) : AssocMap κ (List β) :=
  xs.foldl (fun m e => AssocMap.insert e.1 ((AssocMap.lookup e.1 m).getD [] ++ [e.2]) m) []

/-- The values of a key in a list of pairs. -/
def valuesOf (k : κ) (xs : List (κ × β)) : List β := (xs.filter fun e => e.1 = k).map Prod.snd

theorem lookup_foldl_groups (k : κ) : ∀ (xs : List (κ × β)) (m : AssocMap κ (List β)),
    (AssocMap.lookup k (xs.foldl (fun m e => AssocMap.insert e.1 ((AssocMap.lookup e.1 m).getD [] ++ [e.2]) m)
      m)).getD [] = (AssocMap.lookup k m).getD [] ++ valuesOf k xs
  | [], m => (List.append_nil _).symm
  | (k', v) :: xs, m => by
    rw [List.foldl_cons, lookup_foldl_groups k xs, AssocMap.lookup_insert]
    unfold valuesOf
    by_cases h : k = k'
    · subst h
      simp
    · simp [h, Ne.symm h]

theorem lookup_groups (k : κ) (xs : List (κ × β)) :
    (AssocMap.lookup k (groups xs)).getD [] = valuesOf k xs :=
  lookup_foldl_groups k xs []

theorem ascending_groups (xs : List (κ × β)) : AssocMap.Ascending (groups xs) := by
  suffices ∀ m : AssocMap κ (List β), AssocMap.Ascending m → AssocMap.Ascending
      (xs.foldl (fun m e => AssocMap.insert e.1 ((AssocMap.lookup e.1 m).getD [] ++ [e.2]) m) m) from
    this [] List.Pairwise.nil
  induction xs with
  | nil => exact fun m h => h
  | cons e xs ih => exact fun m h => ih _ (h.insert e.1 _)

variable {xs : List (κ × β)}

/-- The values of an entry are those of its key. -/
theorem eq_valuesOf_of_mem {e : κ × List β} (h : e ∈ groups xs) : e.2 = valuesOf e.1 xs := by
  have hl := ((ascending_groups xs).mem_iff e.1 e.2).1 h
  rw [← lookup_groups, hl]
  rfl

theorem perm_insert_snoc {m : AssocMap κ (List β)} (hm : AssocMap.Ascending m) (k : κ) (v : β) :
    ((AssocMap.insert k ((AssocMap.lookup k m).getD [] ++ [v]) m).flatMap Prod.snd).Perm
      (m.flatMap Prod.snd ++ [v]) := by
  induction m with
  | nil => exact List.Perm.refl _
  | cons e m ih =>
    obtain ⟨k', bs⟩ := e
    obtain ⟨hlt, hm'⟩ := List.pairwise_cons.1 hm
    unfold AssocMap.insert
    split_ifs with h1 h2
    · rw [AssocMap.lookup, if_pos h1, List.flatMap_cons, List.flatMap_cons]
      show ((bs ++ [v]) ++ m.flatMap Prod.snd).Perm (bs ++ m.flatMap Prod.snd ++ [v])
      rw [List.append_assoc, List.append_assoc]
      exact List.perm_append_comm.append_left bs
    · have hnone : AssocMap.lookup k ((k', bs) :: m) = none := by
        refine AssocMap.lookup_eq_none fun hin => ?_
        rcases List.mem_cons.1 hin with he | hin
        · exact h1 he
        · obtain ⟨e, he, hek⟩ := List.mem_map.1 hin
          have hlt' := hlt e he
          rw [hek] at hlt'
          exact lt_asymm h2 hlt'
      rw [hnone, List.flatMap_cons]
      exact List.perm_append_comm
    · rw [AssocMap.lookup, if_neg h1, List.flatMap_cons, List.flatMap_cons, List.append_assoc]
      exact (ih hm').append_left bs

/-- Grouping loses and doubles nothing. -/
theorem perm_groups (xs : List (κ × β)) : ((groups xs).flatMap Prod.snd).Perm (xs.map Prod.snd) := by
  suffices ∀ m : AssocMap κ (List β), AssocMap.Ascending m →
      ((xs.foldl (fun m e => AssocMap.insert e.1 ((AssocMap.lookup e.1 m).getD [] ++ [e.2]) m) m).flatMap
        Prod.snd).Perm (m.flatMap Prod.snd ++ xs.map Prod.snd) from this [] List.Pairwise.nil
  induction xs with
  | nil => exact fun m _ => by rw [List.foldl_nil, List.map_nil, List.append_nil]
  | cons e xs ih =>
    intro m hm
    rw [List.foldl_cons, List.map_cons]
    have hsnoc := (perm_insert_snoc hm e.1 e.2).append_right (xs.map Prod.snd)
    rw [List.append_assoc, List.singleton_append] at hsnoc
    exact (ih _ (hm.insert e.1 _)).trans hsnoc

/-- The keys of the groups are those of the list. -/
theorem key_of_mem_groups {e : κ × List β} (h : e ∈ groups xs) : e.1 ∈ xs.map Prod.fst := by
  suffices ∀ m : AssocMap κ (List β), e ∈ xs.foldl
      (fun m e => AssocMap.insert e.1 ((AssocMap.lookup e.1 m).getD [] ++ [e.2]) m) m →
        e ∈ m ∨ e.1 ∈ xs.map Prod.fst by
    rcases this [] h with hnil | hin
    · cases hnil
    · exact hin
  clear h
  induction xs with
  | nil => exact fun m hm => Or.inl hm
  | cons x xs ih =>
    intro m hm
    rcases ih _ hm with hm | hin
    · rcases AssocMap.mem_insert hm with rfl | hm
      · exact Or.inr List.mem_cons_self
      · exact Or.inl hm
    · exact Or.inr (List.mem_cons_of_mem _ hin)

/-- What has one key makes one group. -/
theorem length_groups_le_one {k : κ} (h : ∀ e ∈ xs, e.1 = k) : (groups xs).length ≤ 1 := by
  have hkey : ∀ e ∈ groups xs, e.1 = k := by
    intro e he
    obtain ⟨x, hx, hxe⟩ := List.mem_map.1 (key_of_mem_groups he)
    rw [← hxe, h x hx]
  have hasc := ascending_groups xs
  match hg : groups xs with
  | [] => exact Nat.zero_le 1
  | [_] => exact le_refl 1
  | e :: e' :: rest =>
    rw [hg] at hasc hkey
    have hlt := (List.pairwise_cons.1 hasc).1 e' List.mem_cons_self
    rw [hkey e List.mem_cons_self, hkey e' (List.mem_cons_of_mem _ List.mem_cons_self)] at hlt
    exact absurd hlt (lt_irrefl k)

/-- In a map in order, what can only be under one key is found there. -/
theorem filter_flatMap_snd {m : AssocMap κ (List β)} (hm : AssocMap.Ascending m) (P : β → Bool) (k : κ)
    (hP : ∀ e ∈ m, ∀ b ∈ e.2, P b = true → e.1 = k) :
    (m.flatMap Prod.snd).filter P = ((AssocMap.lookup k m).getD []).filter P := by
  induction m with
  | nil => rfl
  | cons e m ih =>
    obtain ⟨k', bs⟩ := e
    obtain ⟨hlt, hm'⟩ := List.pairwise_cons.1 hm
    have hrest := ih hm' fun e he => hP e (List.mem_cons_of_mem _ he)
    rw [List.flatMap_cons, List.filter_append, hrest, AssocMap.lookup]
    by_cases hk : k = k'
    · have hnone : AssocMap.lookup k m = none := by
        refine AssocMap.lookup_eq_none fun hin => ?_
        obtain ⟨e, he, hek⟩ := List.mem_map.1 hin
        have hlt' := hlt e he
        rw [hek, hk] at hlt'
        exact lt_irrefl _ hlt'
      rw [if_pos hk, hnone]
      exact List.append_nil _
    · have hnil : bs.filter P = [] := by
        rw [List.filter_eq_nil_iff]
        intro b hb hPb
        exact hk (hP (k', bs) List.mem_cons_self b hb hPb).symm
      rw [if_neg hk, hnil, List.nil_append]

/-- Grouped by `f`, the elements of one `f`-value keep their order. -/
theorem filter_groups (f : β → κ) (xs : List β) (P : β → Bool) (k : κ) (hP : ∀ b, P b = true → f b = k) :
    ((groups (xs.map fun b => (f b, b))).flatMap Prod.snd).filter P = xs.filter P := by
  have hvalues : ∀ k', valuesOf k' (xs.map fun b => (f b, b)) = xs.filter fun b => f b = k' := by
    intro k'
    unfold valuesOf
    rw [List.filter_map, List.map_map]
    exact List.map_id _
  rw [filter_flatMap_snd (ascending_groups _) P k, lookup_groups, hvalues, List.filter_filter]
  · refine List.filter_congr fun b _ => ?_
    cases hb : P b with
    | false => rfl
    | true => simpa using hP b hb
  · intro e he b hb hPb
    rw [eq_valuesOf_of_mem he, hvalues] at hb
    have hfe := (List.mem_filter.1 hb).2
    rw [← hP b hPb]
    exact (of_decide_eq_true hfe).symm

end

/-! ## Rounds -/

/-- The heads of the lists that have one, then those of their tails, and so on.  The
    first argument bounds the lengths of the lists. -/
def transposeNonEmpty : Nat → List (List α) → List (List α)
  | 0, _ => []
  | n + 1, xss =>
    match xss.filterMap fun xs => match xs with
      | [] => none
      | h :: t => some (h, t) with
    | [] => []
    | hts => hts.map Prod.fst :: transposeNonEmpty n (hts.map Prod.snd)

/-- The heads and the tails of the lists that have one. -/
def uncons (xss : List (List α)) : List (α × List α) :=
  xss.filterMap fun xs => match xs with
    | [] => none
    | h :: t => some (h, t)

attribute [grind =] uncons

theorem transposeNonEmpty_succ (n : Nat) (xss : List (List α)) :
    transposeNonEmpty (n + 1) xss =
      if uncons xss = [] then [] else
        (uncons xss).map Prod.fst :: transposeNonEmpty n ((uncons xss).map Prod.snd) := by
  rw [transposeNonEmpty]
  unfold uncons
  split
  · rename_i h
    rw [if_pos h]
  · rename_i h
    rw [if_neg h]

@[simp] theorem uncons_cons_cons (h : α) (t : List α) (xss : List (List α)) :
    uncons ((h :: t) :: xss) = (h, t) :: uncons xss := rfl

variable {xss : List (List α)}

theorem mem_uncons {h : α} {t : List α} (hm : (h, t) ∈ uncons xss) : h :: t ∈ xss := by
  induction xss with
  | nil => cases hm
  | cons xs xss ih =>
    cases xs with
    | nil => exact List.mem_cons_of_mem _ (ih hm)
    | cons a l =>
      rcases List.mem_cons.1 hm with he | he
      · cases he
        exact List.mem_cons_self
      · exact List.mem_cons_of_mem _ (ih he)

/-- The lists have no key in common. -/
def Apart (key : α → κ) (xss : List (List α)) : Prop :=
  xss.Pairwise fun xs ys => ∀ a ∈ xs, ∀ b ∈ ys, key a ≠ key b

theorem Apart.tails {key : α → κ} (h : Apart key xss) :
    Apart key ((uncons xss).map Prod.snd) := by
  induction xss with
  | nil => exact List.Pairwise.nil
  | cons xs xss ih =>
    obtain ⟨hx, hrest⟩ := List.pairwise_cons.1 h
    cases xs with
    | nil => exact ih hrest
    | cons a l =>
      refine List.pairwise_cons.2 ⟨?_, ih hrest⟩
      intro ys hys b hb c hc
      obtain ⟨⟨d, t⟩, hmem, rfl⟩ := List.mem_map.1 hys
      exact hx _ (mem_uncons hmem) b (List.mem_cons_of_mem _ hb) c (List.mem_cons_of_mem _ hc)

/-- The heads have distinct keys. -/
theorem Apart.heads {key : α → κ} (h : Apart key xss) :
    ((uncons xss).map fun e => key e.1).Nodup := by
  induction xss with
  | nil => exact List.nodup_nil
  | cons xs xss ih =>
    obtain ⟨hx, hrest⟩ := List.pairwise_cons.1 h
    cases xs with
    | nil => exact ih hrest
    | cons a l =>
      refine List.nodup_cons.2 ⟨?_, ih hrest⟩
      intro hin
      obtain ⟨⟨d, t⟩, hmem, heq⟩ := List.mem_map.1 hin
      exact hx _ (mem_uncons hmem) a List.mem_cons_self d List.mem_cons_self heq.symm

theorem nodup_of_mem_transpose {key : α → κ} : ∀ (n : Nat) {xss : List (List α)} {r : List α},
    Apart key xss → r ∈ transposeNonEmpty n xss → (r.map key).Nodup
  | 0, _, _, _, hr => by cases hr
  | n + 1, xss, r, h, hr => by
    rw [transposeNonEmpty_succ] at hr
    split at hr
    · cases hr
    · rcases List.mem_cons.1 hr with he | he
      · have hheads := h.heads
        rw [he, List.map_map]
        exact hheads
      · exact nodup_of_mem_transpose n h.tails he

/-- Taking the heads first keeps the order of what can only be in one list. -/
theorem filter_heads_tails {key : α → κ} (h : Apart key xss) (P : α → Bool)
    (hP : ∀ a b, P a = true → P b = true → key a = key b) :
    ((uncons xss).map Prod.fst).filter P ++ ((uncons xss).map Prod.snd).flatten.filter P =
      xss.flatten.filter P := by
  induction xss with
  | nil => rfl
  | cons xs xss ih =>
    obtain ⟨hx, hrest⟩ := List.pairwise_cons.1 h
    cases xs with
    | nil => exact ih hrest
    | cons a l =>
      have hih := ih hrest
      rw [uncons_cons_cons, List.map_cons, List.map_cons, List.flatten_cons, List.flatten_cons,
        List.filter_append, List.filter_append, ← hih]
      by_cases hone : ∃ b ∈ a :: l, P b = true
      · -- then no other list has any
        obtain ⟨b, hb, hPb⟩ := hone
        have hnone : ∀ c ∈ ((uncons xss).map Prod.fst), P c = false := by
          intro c hc
          obtain ⟨⟨d, t⟩, hmem, rfl⟩ := List.mem_map.1 hc
          by_contra hPc
          exact hx _ (mem_uncons hmem) b hb d List.mem_cons_self (hP b d hPb (by simpa using hPc))
        have hnil : ((uncons xss).map Prod.fst).filter P = [] := by
          rw [List.filter_eq_nil_iff]
          intro c hc hPc
          rw [hnone c hc] at hPc
          cases hPc
        rw [hnil, List.filter_cons, hnil, List.filter_cons]
        split
        · rfl
        · rfl
      · have ha : P a = false := by
          by_contra hPa
          exact hone ⟨a, List.mem_cons_self, by simpa using hPa⟩
        have hl : l.filter P = [] := by
          rw [List.filter_eq_nil_iff]
          exact fun b hb hPb => hone ⟨b, List.mem_cons_of_mem _ hb, hPb⟩
        rw [List.filter_cons, List.filter_cons, ha, hl]
        rfl

theorem filter_transpose {key : α → κ} (P : α → Bool) (hP : ∀ a b, P a = true → P b = true → key a = key b) :
    ∀ (n : Nat) {xss : List (List α)}, Apart key xss → (∀ xs ∈ xss, xs.length ≤ n) →
      (transposeNonEmpty n xss).flatten.filter P = xss.flatten.filter P
  | 0, xss, _, hlen => by
    have hnil : xss.flatten = [] := by
      rw [List.flatten_eq_nil_iff]
      exact fun xs hxs => List.length_eq_zero_iff.1 (Nat.le_zero.1 (hlen xs hxs))
    rw [hnil]
    rfl
  | n + 1, xss, h, hlen => by
    have hht := filter_heads_tails h P hP
    rw [transposeNonEmpty_succ]
    split
    · rename_i hnil
      rw [hnil] at hht
      exact hht
    · rw [List.flatten_cons, List.filter_append, filter_transpose P hP n h.tails, hht]
      intro xs hxs
      obtain ⟨⟨d, t⟩, hmem, rfl⟩ := List.mem_map.1 hxs
      have hle := hlen _ (mem_uncons hmem)
      rw [List.length_cons] at hle
      exact Nat.le_of_succ_le_succ hle

/-! ## Sorting first -/

/-- Sorting is stable: the elements of a class that the order does not tell apart keep
    their order. -/
theorem filter_insertionSort (r : α → α → Prop) [DecidableRel r] [Std.Total r] [IsTrans α r] (P : α → Bool)
    (hP : ∀ a b, P a = true → P b = true → r a b) (xs : List α) :
    (xs.insertionSort r).filter P = xs.filter P := by
  have hpair : (xs.filter P).Pairwise r := by
    refine List.pairwise_of_forall_mem_list fun a ha b hb => ?_
    exact hP a b (List.mem_filter.1 ha).2 (List.mem_filter.1 hb).2
  have hsub := (List.sublist_insertionSort hpair List.filter_sublist).filter P
  rw [List.filter_filter, List.filter_congr fun a _ => Bool.and_self (P a)] at hsub
  have hlen := ((List.perm_insertionSort r xs).filter P).length_eq
  exact (hsub.eq_of_length hlen.symm).symm

section
variable [LinearOrder κ] (key : α → κ)

/-- The order of the keys. -/
def KeyLe (a b : α) : Prop := key a ≤ key b

instance : DecidableRel (KeyLe key) := fun a b => inferInstanceAs (Decidable (key a ≤ key b))

instance : Std.Total (KeyLe key) := ⟨fun a b => le_total (key a) (key b)⟩

instance : IsTrans α (KeyLe key) := ⟨fun _ _ _ h h' => le_trans h h'⟩

/-- `transposeNonEmpty (groupBy ((==) `on` key) (sortBy (comparing key) xs))`: the
    elements in rounds. -/
def rounds (xs : List α) : List (List α) :=
  transposeNonEmpty xs.length ((xs.insertionSort (KeyLe key)).splitBy fun a b => key a = key b)

variable {key}

/-- Lists of equal keys, none above the next ones and none equal to the next one. -/
theorem apart_of_isChain : ∀ {gs : List (List α)},
    (∀ g ∈ gs, ∀ a ∈ g, ∀ b ∈ g, key a = key b) →
    (gs.Pairwise fun l m => ∀ a ∈ l, ∀ b ∈ m, key a ≤ key b) →
    (gs.IsChain fun l m => ∃ (hl : l ≠ []) (hm : m ≠ []), key (l.getLast hl) ≠ key (m.head hm)) → Apart key gs
  | [], _, _, _ => List.Pairwise.nil
  | [g], _, _, _ => List.pairwise_singleton _ g
  | g :: g' :: gs, heq, hle, hne => by
    obtain ⟨hg, hrest⟩ := List.pairwise_cons.1 hle
    obtain ⟨⟨hl, hm, hlast⟩, hchain⟩ := List.isChain_cons_cons.1 hne
    have hfirst : ∀ a ∈ g, key a < key (g'.head hm) := by
      intro a ha
      rw [heq g List.mem_cons_self a ha (g.getLast hl) (List.getLast_mem hl)]
      exact lt_of_le_of_ne (hg g' List.mem_cons_self _ (List.getLast_mem hl) _ (List.head_mem hm)) hlast
    refine List.pairwise_cons.2 ⟨?_, apart_of_isChain (fun x hx => heq x (List.mem_cons_of_mem _ hx)) hrest hchain⟩
    intro m hmem a ha b hb
    refine ne_of_lt (lt_of_lt_of_le (hfirst a ha) ?_)
    rcases List.mem_cons.1 hmem with rfl | hin
    · exact le_of_eq (heq m (List.mem_cons_of_mem _ List.mem_cons_self) _ (List.head_mem hm) b hb)
    · exact (List.pairwise_cons.1 hrest).1 m hin _ (List.head_mem hm) b hb

/-- The runs of equal keys of a list in the order of the keys have distinct keys. -/
theorem apart_splitBy {xs : List α} (h : xs.Pairwise (KeyLe key)) :
    Apart key (xs.splitBy fun a b => key a = key b) := by
  have hflat := h
  rw [← List.flatten_splitBy (fun a b => decide (key a = key b)) xs, List.pairwise_flatten] at hflat
  refine apart_of_isChain ?_ hflat.2 ?_
  · intro g hg a ha b hb
    have hchain := List.isChain_of_mem_splitBy hg
    have hpair : g.Pairwise fun a b => key a = key b := by
      have htrans : IsTrans α fun a b => key a = key b := ⟨fun _ _ _ h h' => h.trans h'⟩
      exact (hchain.imp fun a b hab => of_decide_eq_true hab).pairwise
    have hsymm : Std.Symm fun a b : α => key a = key b := ⟨fun _ _ h => h.symm⟩
    exact List.Pairwise.forall_of_forall (R := fun a b : α => key a = key b) (fun _ _ => rfl) hpair ha hb
  · refine (List.isChain_getLast_head_splitBy _ xs).imp fun l m hlm => ?_
    obtain ⟨hl, hm, hne⟩ := hlm
    exact ⟨hl, hm, of_decide_eq_false hne⟩

theorem length_le_of_mem_splitBy {r : α → α → Bool} {xs g : List α} (h : g ∈ xs.splitBy r) :
    g.length ≤ xs.length := by
  have hsub := List.sublist_flatten_of_mem h
  rw [List.flatten_splitBy] at hsub
  exact hsub.length_le

theorem pairwise_keyLe (xs : List α) : (xs.insertionSort (KeyLe key)).Pairwise (KeyLe key) :=
  List.pairwise_insertionSort _ xs

/-- **The rounds keep, for each key, its elements in their order.** -/
theorem filter_rounds (xs : List α) (P : α → Bool) (hP : ∀ a b, P a = true → P b = true → key a = key b) :
    (rounds key xs).flatten.filter P = xs.filter P := by
  unfold rounds
  rw [filter_transpose P hP _ (apart_splitBy (pairwise_keyLe xs)), List.flatten_splitBy,
    filter_insertionSort (KeyLe key) P fun a b ha hb => le_of_eq (hP a b ha hb)]
  intro g hg
  have hle := length_le_of_mem_splitBy hg
  rwa [List.length_insertionSort] at hle

theorem nodup_of_mem_rounds {xs r : List α} (h : r ∈ rounds key xs) : (r.map key).Nodup :=
  nodup_of_mem_transpose _ (apart_splitBy (pairwise_keyLe xs)) h

theorem mem_of_mem_rounds {xs r : List α} {a : α} (h : r ∈ rounds key xs) (ha : a ∈ r) : a ∈ xs := by
  have hfilter := filter_rounds xs (fun b => decide (key b = key a)) fun b c hb hc =>
    (of_decide_eq_true hb).trans (of_decide_eq_true hc).symm
  have hin : a ∈ (rounds key xs).flatten.filter fun b => decide (key b = key a) :=
    List.mem_filter.2 ⟨List.mem_flatten.2 ⟨r, h, ha⟩, decide_eq_true rfl⟩
  rw [hfilter] at hin
  exact (List.mem_filter.1 hin).1

end

/-- Lists with the same elements of each key are permutations. -/
theorem perm_of_filter_eq [DecidableEq κ] [DecidableEq α] (key : α → κ) {xs ys : List α}
    (h : ∀ k, (xs.filter fun a => key a = k) = ys.filter fun a => key a = k) : xs.Perm ys := by
  rw [List.perm_iff_count]
  intro a
  have hcount : ∀ zs : List α, zs.count a = (zs.filter fun b => key b = key a).count a := by
    intro zs
    rw [List.count_filter (by simp)]
  rw [hcount xs, hcount ys, h]

/-- A relation between elements of one key is looked at key by key. -/
theorem pairwise_of_filter [DecidableEq κ] (key : α → κ) {R : α → α → Prop} (hR : ∀ a b, key a ≠ key b → R a b) :
    ∀ {xs : List α}, (∀ k, (xs.filter fun a => key a = k).Pairwise R) → xs.Pairwise R
  | [], _ => List.Pairwise.nil
  | a :: xs, h => by
    have hxs : xs.Pairwise R := pairwise_of_filter key hR fun k =>
      (h k).sublist ((List.sublist_cons_self a xs).filter _)
    refine List.pairwise_cons.2 ⟨fun b hb => ?_, hxs⟩
    by_cases hab : key a = key b
    · have hk := h (key a)
      rw [List.filter_cons, if_pos (by simp)] at hk
      exact (List.pairwise_cons.1 hk).1 b (List.mem_filter.2 ⟨hb, by simp [hab]⟩)
    · exact hR a b hab

end Wireform

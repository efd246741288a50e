/-
  Equality, lookup and indexing of CEL values.

  * `compareValues_swap`, `valueEq_of_compare`: comparing is antisymmetric and agrees with equality;
  * `keyOf`, `Clean`: the exact keys of a map; the values free of NaN whose maps `celMap` accepted;
  * `Clean.refl`, `Clean.symm`, `Clean.perm`: equality of such values;
  * `lookup_perm`, `once_of_key`, `once_of_small`: lookups that do not see the order of the entries;
  * `indexValue_ok`: an index is a position, exactly.
-/
import Wireform.Cel.Value
import Wireform.Fallible
import Mathlib.Data.List.Perm.Subperm
import Mathlib.Data.List.Nodup

namespace Wireform.Cel

/-! ## Comparing -/

theorem swap_compare {α : Type} [LinearOrder α] (x y : α) :
    (compareOf x y).swap = compareOf y x := by
  unfold compareOf compareOfLessAndEq
  rcases lt_trichotomy x y with h | rfl | h
  · rw [if_pos h, if_neg h.asymm, if_neg h.ne']
    rfl
  · simp
  · rw [if_neg h.asymm, if_neg h.ne', if_pos h]
    rfl

theorem compare_eq {α : Type} [LinearOrder α] {x y : α} : compareOf x y = .eq ↔ x = y := by
  unfold compareOf compareOfLessAndEq
  split_ifs with h1 h2
  · simp [h1.ne]
  · simp [h2]
  · simp [h2]

theorem cmpNum_swap (x y : Num3) : cmpNum y x = (cmpNum x y).map Ordering.swap := by
  have htwice : ∀ o : Option Ordering, (o.map Ordering.swap).map Ordering.swap = o := by
    rintro (_ | o)
    · rfl
    · rw [Option.map_some, Option.map_some, Ordering.swap_swap]
  cases x with
  | ni x =>
    cases y with
    | ni y => exact congrArg some (swap_compare _ _).symm
    | nu y => rfl
    | nd y => rfl
  | nu x =>
    cases y with
    | ni y => exact congrArg some Ordering.swap_swap.symm
    | nu y => exact congrArg some (swap_compare _ _).symm
    | nd y => rfl
  | nd x =>
    cases y with
    | ni y => exact (htwice _).symm
    | nu y => exact (htwice _).symm
    | nd y =>
      simp only [cmpNum]
      cases doubleValue x with
      | none => cases doubleValue y <;> rfl
      | some v =>
        cases doubleValue y with
        | none => rfl
        | some w => exact congrArg some (swap_compare v w).symm

variable {a b : Value}

theorem valueEq_of_num {x y : Num3} (ha : toNum a = some x) (hb : toNum b = some y) :
    valueEq a b = (cmpNum x y == some .eq) := by
  cases a <;> cases ha <;> cases b <;> cases hb <;> rfl

theorem compareValues_of_num {x y : Num3} (ha : toNum a = some x) (hb : toNum b = some y) :
    compareValues a b = cmpNum x y := by
  cases a <;> cases ha <;> cases b <;> cases hb <;> rfl

/-- **Comparing is antisymmetric.** -/
theorem compareValues_swap (a b : Value) : compareValues b a = (compareValues a b).map Ordering.swap := by
  fun_cases compareValues a b with
  | case1 x y => exact congrArg some (swap_compare _ _).symm
  | case2 x y => exact congrArg some (swap_compare _ _).symm
  | case3 x y => exact congrArg some (swap_compare _ _).symm
  | case4 x y => exact congrArg some (swap_compare _ _).symm
  | case5 x y => exact congrArg some (swap_compare _ _).symm
  | case6 a b _ _ _ _ _ x y hy hx => rw [compareValues_of_num hy hx, cmpNum_swap]
  | case7 a b h1 h2 h3 h4 h5 h =>
    -- neither a pair of one type nor two numbers, also the other way around
    fun_cases compareValues b a with
    | case1 x y => exact (h1 y x rfl rfl).elim
    | case2 x y => exact (h2 y x rfl rfl).elim
    | case3 x y => exact (h3 y x rfl rfl).elim
    | case4 x y => exact (h4 y x rfl rfl).elim
    | case5 x y => exact (h5 y x rfl rfl).elim
    | case6 b a _ _ _ _ _ x y hy hx => exact (h y x hy hx).elim
    | case7 => rfl

/-- **Equality is comparing with the answer `EQ`**, where comparing answers. -/
theorem valueEq_of_compare {o : Ordering} (h : compareValues a b = some o) :
    valueEq a b = true ↔ o = .eq := by
  fun_cases compareValues a b with
  | case1 x y =>
    rw [← Option.some.inj h, compare_eq]
    exact beq_iff_eq
  | case2 x y =>
    rw [← Option.some.inj h, compare_eq]
    exact beq_iff_eq
  | case3 x y =>
    rw [← Option.some.inj h, compare_eq, (List.map_injective_iff.2 fun _ _ => UInt8.toNat_inj.1).eq_iff]
    exact beq_iff_eq
  | case4 x y =>
    rw [← Option.some.inj h, compare_eq]
    exact beq_iff_eq
  | case5 x y =>
    rw [← Option.some.inj h, compare_eq]
    exact beq_iff_eq
  | case6 a b _ _ _ _ _ x y hy hx =>
    rw [compareValues_of_num hx hy] at h
    rw [valueEq_of_num hx hy, h]
    simp
  | case7 a b h1 h2 h3 h4 h5 hnum =>
    have hnone : compareValues a b = none := by
      fun_cases compareValues a b with
      | case1 x y => exact (h1 x y rfl rfl).elim
      | case2 x y => exact (h2 x y rfl rfl).elim
      | case3 x y => exact (h3 x y rfl rfl).elim
      | case4 x y => exact (h4 x y rfl rfl).elim
      | case5 x y => exact (h5 x y rfl rfl).elim
      | case6 a b _ _ _ _ _ x y hy hx => exact (hnum x y hx hy).elim
      | case7 => rfl
    rw [hnone] at h
    cases h

/-! ## Lists and entries -/

theorem listEq_iff {xs ys : List Value} (h : xs.length = ys.length) :
    listEq xs ys = true ↔ List.Forall₂ (fun x y => valueEq x y = true) xs ys := by
  induction xs generalizing ys with
  | nil =>
    obtain rfl := List.length_eq_zero_iff.1 h.symm
    simp [listEq]
  | cons x xs ih =>
    cases ys with
    | nil => cases h
    | cons y ys => rw [listEq, Bool.and_eq_true, List.forall₂_cons, ih (Nat.succ.inj h)]

theorem valueEq_list {xs ys : List Value} :
    valueEq (.vList xs) (.vList ys) = true ↔ List.Forall₂ (fun x y => valueEq x y = true) xs ys := by
  rw [valueEq, Bool.and_eq_true, beq_iff_eq]
  constructor
  · exact fun h => (listEq_iff h.1).1 h.2
  · exact fun h => ⟨h.length_eq, (listEq_iff h.length_eq).2 h⟩

theorem entriesMatch_iff {xs : List (Value × Value)} {ys : CelMap} : entriesMatch xs ys = true ↔
    ∀ e ∈ xs, ∃ v', celMapLookup e.1 ys = some v' ∧ valueEq e.2 v' = true := by
  induction xs with
  | nil => simp [entriesMatch]
  | cons e xs ih =>
    rw [entriesMatch, Bool.and_eq_true, ih, List.forall_mem_cons]
    refine and_congr_left fun _ => ?_
    rw [← celMapLookup]
    cases celMapLookup e.1 ys <;> simp

theorem valueEq_map {m m' : CelMap} : valueEq (.vMap m) (.vMap m') = true ↔ m.length = m'.length ∧
    ∀ e ∈ m, ∃ v', celMapLookup e.1 m' = some v' ∧ valueEq e.2 v' = true := by
  rw [valueEq, Bool.and_eq_true, beq_iff_eq, entriesMatch_iff]

/-! ## Keys -/

/-- What a key of a map stands for; an int and a uint may be one key. -/
inductive Key where
  | number (n : Int)
  | truth (b : Bool)
  | text (s : String)
  deriving DecidableEq

def keyOf : Value → Option Key
  | .vInt n => some (.number n.toInt)
  | .vUInt n => some (.number n.toNat)
  | .vBool b => some (.truth b)
  | .vString s => some (.text s)
  | _ => none

theorem validateKey_ok {v : Value} : validateKey v = .ok () ↔ ∃ k, keyOf v = some k := by
  cases v <;> simp [validateKey, keyOf]

theorem cmpIntUint_eq {x : Int64} {y : UInt64} : cmpIntUint x y = .eq ↔ x.toInt = y.toNat := by
  unfold cmpIntUint
  split_ifs with h
  · simp
    omega
  · rw [compare_eq]
    omega

def IsDouble : Value → Prop
  | .vDouble _ => True
  | _ => False

/-- **Keys are compared exactly**, by any value but a double. -/
theorem valueEq_key {k : Key} (hb : keyOf b = some k) (ha : ¬IsDouble a) :
    valueEq a b = true ↔ keyOf a = some k := by
  cases b <;> cases hb <;> cases a <;>
    simp [valueEq, keyOf, toNum, cmpNum, compare_eq, cmpIntUint_eq, IsDouble, Int64.toInt_inj, UInt64.toNat_inj,
      Ordering.swap_eq_iff_eq_swap] at ha ⊢
  exact eq_comm

theorem not_isDouble_of_key {a : Value} {k : Key} (ha : keyOf a = some k) : ¬IsDouble a := by
  cases a <;> cases ha <;> exact id

/-! ## Maps -/

/-- No two entries have the same key. -/
def KeysApart (m : CelMap) : Prop := m.Pairwise fun e e' => keyOf e.1 ≠ keyOf e'.1

/-- The keys of a map are of the types that are admitted, and apart. -/
structure Keyed (m : CelMap) : Prop where
  admitted : ∀ e ∈ m, ∃ k, keyOf e.1 = some k
  apart : KeysApart m

theorem Keyed.perm {m m' : CelMap} (h : Keyed m) (hp : m.Perm m') : Keyed m' :=
  ⟨fun e he => h.admitted e (hp.mem_iff.2 he), (hp.pairwise_iff fun hne => hne.symm).1 h.apart⟩

theorem Keyed.nodup {m : CelMap} (h : Keyed m) : (m.map fun e => keyOf e.1).Nodup := List.pairwise_map.2 h.apart

/-- One key, one entry. -/
theorem Keyed.unique {m : CelMap} (h : Keyed m) {e e' : Value × Value} (he : e ∈ m) (he' : e' ∈ m)
    (hk : keyOf e.1 = keyOf e'.1) : e = e' := List.inj_on_of_nodup_map h.nodup he he' hk

variable {showValue : Value → String}

variable {m : CelMap} {double2Int : UInt64 → Int} {k : Value}

theorem celMapGo_ok {acc es : List (Value × Value)} (h : celMapGo showValue acc es = .ok m) :
    m = acc.reverse ++ es ∧ (∀ e ∈ es, ∀ e' ∈ acc, valueEq e.1 e'.1 = false) ∧
      es.Pairwise fun e e' => valueEq e'.1 e.1 = false := by
  induction es generalizing acc with
  | nil =>
    cases h
    exact ⟨(List.append_nil _).symm, fun _ he => absurd he List.not_mem_nil, List.Pairwise.nil⟩
  | cons e es ih =>
    rw [celMapGo] at h
    split_ifs at h with hdup
    obtain ⟨rfl, hacc, hes⟩ := ih h
    rw [List.any_eq_true] at hdup
    push Not at hdup
    refine ⟨by simp, List.forall_mem_cons.2 ⟨fun e' he' => Bool.eq_false_iff.2 (hdup e' he'), ?_⟩, ?_⟩
    · exact fun e' he' e'' he'' => hacc e' he' e'' (List.mem_cons_of_mem _ he'')
    · exact List.pairwise_cons.2 ⟨fun e' he' => hacc e' he' e List.mem_cons_self, hes⟩

/-- **What `celMap` accepts of admitted keys has its keys apart.** -/
theorem celMap_keyed {es : List (Value × Value)} (h : celMap showValue es = .ok m)
    (hkeys : ∀ e ∈ es, validateKey e.1 = .ok ()) : m = es ∧ Keyed m := by
  obtain ⟨hm, -, hpair⟩ := celMapGo_ok h
  rw [List.reverse_nil, List.nil_append] at hm
  subst hm
  have hadm : ∀ e ∈ m, ∃ k, keyOf e.1 = some k := fun e he => validateKey_ok.1 (hkeys e he)
  refine ⟨rfl, hadm, hpair.imp_of_mem fun {e e'} he he' hne heq => ?_⟩
  obtain ⟨k, hk⟩ := hadm e he
  have htrue := (valueEq_key hk (not_isDouble_of_key (heq ▸ hk))).2 (heq ▸ hk)
  rw [hne] at htrue
  cases htrue

/-- The values free of NaN, with maps of admitted keys that `celMap` accepted. -/
inductive Clean (showValue : Value → String) : Value → Prop
  | scalar {v : Value} (hl : ∀ xs, v ≠ .vList xs) (hm : ∀ m, v ≠ .vMap m)
      (hd : ∀ d, v = .vDouble d → ∃ x, doubleValue d = some x) : Clean showValue v
  | list {v : List Value} (h : ∀ x ∈ v, Clean showValue x) : Clean showValue (.vList v)
  | map {es : List (Value × Value)} {m : CelMap} (hkeys : ∀ e ∈ es, validateKey e.1 = .ok ())
      (hmap : celMap showValue es = .ok m) (h : ∀ e ∈ m, Clean showValue e.2) : Clean showValue (.vMap m)

theorem Clean.keyed (h : Clean showValue (.vMap m)) : Keyed m := by
  cases h with
  | scalar _ hm _ => exact absurd rfl (hm m)
  | map hkeys hmap _ => exact (celMap_keyed hmap hkeys).2

theorem Clean.values (h : Clean showValue (.vMap m)) : ∀ e ∈ m, Clean showValue e.2 := by
  cases h with
  | scalar _ hm _ => exact absurd rfl (hm m)
  | map _ _ h => exact h

theorem Clean.elements {v : List Value} (h : Clean showValue (.vList v)) : ∀ x ∈ v, Clean showValue x := by
  cases h with
  | scalar hl _ _ => exact absurd rfl (hl v)
  | list h => exact h

/-! ## Lookups -/

/-- At most one entry has a key equal to `k`. -/
def Once (k : Value) (m : CelMap) : Prop :=
  ∀ e ∈ m, ∀ e' ∈ m, valueEq k e.1 = true → valueEq k e'.1 = true → e = e'

theorem lookup_of_once (h : Once k m) {e : Value × Value} (he : e ∈ m)
    (heq : valueEq k e.1 = true) : celMapLookup k m = some e.2 := by
  unfold celMapLookup
  cases hf : m.find? fun e => valueEq k e.1 with
  | none => exact absurd heq (List.find?_eq_none.1 hf e he)
  | some e' =>
    have heq' := List.find?_some (p := fun e : Value × Value => valueEq k e.1) hf
    rw [Option.map_some, h e' (List.mem_of_find?_eq_some hf) e he heq' heq]

theorem lookup_some {k v : Value} (h : celMapLookup k m = some v) :
    ∃ e ∈ m, valueEq k e.1 = true ∧ e.2 = v := by
  obtain ⟨e, hf, hv⟩ := Option.map_eq_some_iff.1 h
  exact ⟨e, List.mem_of_find?_eq_some hf, List.find?_some (p := fun e : Value × Value => valueEq k e.1) hf, hv⟩

theorem lookup_none (h : ∀ e ∈ m, valueEq k e.1 = false) : celMapLookup k m = none := by
  rw [celMapLookup, List.find?_eq_none.2 fun e he => by rw [h e he]; exact Bool.false_ne_true]
  rfl

/-- **A lookup that at most one entry answers does not see the order of the entries.** -/
theorem lookup_perm {m m' : CelMap} (h : Once k m) (hp : m.Perm m') :
    celMapLookup k m = celMapLookup k m' := by
  have h' : Once k m' := fun e he e' he' => h e (hp.mem_iff.2 he) e' (hp.mem_iff.2 he')
  by_cases hex : ∃ e ∈ m, valueEq k e.1 = true
  · obtain ⟨e, he, heq⟩ := hex
    rw [lookup_of_once h he heq, lookup_of_once h' (hp.mem_iff.1 he) heq]
  · push Not at hex
    have hnone : ∀ e ∈ m, valueEq k e.1 = false := fun e he => Bool.eq_false_iff.2 (hex e he)
    rw [lookup_none hnone, lookup_none fun e he => hnone e (hp.mem_iff.2 he)]

theorem once_of_key (h : Keyed m) (hk : ¬IsDouble k) : Once k m := by
  intro e he e' he' heq heq'
  obtain ⟨a, ha⟩ := h.admitted e he
  obtain ⟨a', ha'⟩ := h.admitted e' he'
  have hka := (valueEq_key ha hk).1 heq
  have hka' := (valueEq_key ha' hk).1 heq'
  exact h.unique he he' (by rw [ha, ← hka, hka', ha'])

/-- An entry is found under its own key. -/
theorem Keyed.lookup (h : Keyed m) {e : Value × Value} (he : e ∈ m)
    (hk : keyOf k = keyOf e.1) : celMapLookup k m = some e.2 := by
  obtain ⟨a, ha⟩ := h.admitted e he
  have hd := not_isDouble_of_key (hk.trans ha)
  exact lookup_of_once (once_of_key h hd) he ((valueEq_key ha hd).2 (hk.trans ha))

/-! ## Equality of values -/

theorem valueEq_num_swap {a b : Value} {x y : Num3} (ha : toNum a = some x) (hb : toNum b = some y) :
    valueEq a b = valueEq b a := by
  rw [valueEq_of_num ha hb, valueEq_of_num hb ha, cmpNum_swap x y]
  rcases cmpNum x y with _ | _ | _ | _ <;> rfl

theorem valueEq_scalar_swap {a b : Value} (hl : ∀ xs, a ≠ .vList xs) (hm : ∀ m, a ≠ .vMap m) :
    valueEq a b = valueEq b a := by
  cases a with
  | vNull => cases b <;> rfl
  | vBool x =>
    cases b with
    | vBool y => exact Bool.beq_comm
    | _ => rfl
  | vString x =>
    cases b with
    | vString y => exact BEq.comm
    | _ => rfl
  | vBytes x =>
    cases b with
    | vBytes y => exact BEq.comm
    | _ => rfl
  | vTimestamp x =>
    cases b with
    | vTimestamp y => exact BEq.comm
    | _ => rfl
  | vDuration x =>
    cases b with
    | vDuration y => exact BEq.comm
    | _ => rfl
  | vType x =>
    cases b with
    | vType y => exact BEq.comm
    | _ => rfl
  | vInt _ | vUInt _ | vDouble _ =>
    cases b with
    | vInt _ | vUInt _ | vDouble _ => exact valueEq_num_swap rfl rfl
    | _ => rfl
  | vList xs => exact absurd rfl (hl xs)
  | vMap m => exact absurd rfl (hm m)

/-- **Equality is reflexive.** -/
theorem Clean.refl {a : Value} (h : Clean showValue a) : valueEq a a = true := by
  induction h with
  | @scalar v hl hm hd =>
    cases v with
    | vNull => rfl
    | vBool _ | vString _ | vBytes _ | vTimestamp _ | vDuration _ | vType _ => simp [valueEq]
    | vInt _ | vUInt _ => simp [valueEq, toNum, cmpNum, compare_eq]
    | vDouble d =>
      obtain ⟨x, hx⟩ := hd d rfl
      simp [valueEq, toNum, cmpNum, hx, compare_eq]
    | vList xs => exact absurd rfl (hl xs)
    | vMap m => exact absurd rfl (hm m)
  | list _ ih => exact valueEq_list.2 (List.forall₂_same.2 ih)
  | map hkeys hmap _ ih =>
    have hk := (celMap_keyed hmap hkeys).2
    exact valueEq_map.2 ⟨rfl, fun e he => ⟨e.2, hk.lookup he rfl, ih e he⟩⟩

theorem forall₂_swap {α β : Type} {R : α → β → Prop} {S : β → α → Prop} {xs : List α} {ys : List β}
    (h : List.Forall₂ R xs ys) (hswap : ∀ x ∈ xs, ∀ y ∈ ys, R x y → S y x) : List.Forall₂ S ys xs := by
  induction h with
  | nil => exact .nil
  | cons hr _ ih =>
    exact .cons (hswap _ List.mem_cons_self _ List.mem_cons_self hr)
      (ih fun x hx y hy => hswap x (List.mem_cons_of_mem _ hx) y (List.mem_cons_of_mem _ hy))

/-- The keys of two maps of one size are the same, if those of the one are found in the other. -/
theorem Keyed.key_of_found {m m' : CelMap} (hm : Keyed m) (hlen : m.length = m'.length)
    (hfound : ∀ e ∈ m, ∃ e' ∈ m', keyOf e.1 = keyOf e'.1) : ∀ e' ∈ m', ∃ e ∈ m, keyOf e.1 = keyOf e'.1 := by
  have hsub : (m.map fun e => keyOf e.1) ⊆ m'.map fun e => keyOf e.1 := by
    intro k hk
    obtain ⟨e, he, rfl⟩ := List.mem_map.1 hk
    obtain ⟨e', he', heq⟩ := hfound e he
    exact List.mem_map.2 ⟨e', he', heq.symm⟩
  have hperm := (List.subperm_of_subset hm.nodup hsub).perm_of_length_le (by simp [hlen])
  intro e' he'
  obtain ⟨e, he, heq⟩ := List.mem_map.1 (hperm.mem_iff.2 (List.mem_map.2 ⟨e', he', rfl⟩))
  exact ⟨e, he, heq⟩

/-- **Equality is symmetric.** -/
theorem Clean.symm {a b : Value} (ha : Clean showValue a) (hb : Clean showValue b) (h : valueEq a b = true) :
    valueEq b a = true := by
  induction ha generalizing b with
  | scalar hl hm _ => rwa [← valueEq_scalar_swap hl hm]
  | list _ ih =>
    cases b with
    | vList w =>
      exact valueEq_list.2 (forall₂_swap (valueEq_list.1 h) fun x hx y hy => ih x hx (hb.elements y hy))
    | _ => cases h
  | @map es m hkeys hmap _ ih =>
    cases b with
    | vMap m' =>
      have hm := (celMap_keyed hmap hkeys).2
      obtain ⟨hlen, hall⟩ := valueEq_map.1 h
      have hfound : ∀ e ∈ m, ∃ e' ∈ m', keyOf e.1 = keyOf e'.1 := by
        intro e he
        obtain ⟨v', hv', -⟩ := hall e he
        obtain ⟨e', he', heq, -⟩ := lookup_some hv'
        obtain ⟨k, hk⟩ := hm.admitted e he
        obtain ⟨k', hk'⟩ := hb.keyed.admitted e' he'
        exact ⟨e', he', ((valueEq_key hk' (not_isDouble_of_key hk)).1 heq).trans hk'.symm⟩
      refine valueEq_map.2 ⟨hlen.symm, fun e' he' => ?_⟩
      obtain ⟨e, he, hk⟩ := hm.key_of_found hlen hfound e' he'
      obtain ⟨v', hv', heq⟩ := hall e he
      rw [hb.keyed.lookup he' hk] at hv'
      cases hv'
      exact ⟨e.2, hm.lookup he hk.symm, ih e he (hb.values e' he') heq⟩
    | _ => cases h

/-- **The order of the entries does not matter for equality.** -/
theorem Clean.perm {m m' : CelMap} (h : Clean showValue (.vMap m)) (hp : m.Perm m') :
    valueEq (.vMap m) (.vMap m') = true :=
  valueEq_map.2 ⟨hp.length_eq, fun e he =>
    ⟨e.2, (h.keyed.perm hp).lookup (hp.mem_iff.1 he) rfl, (h.values e he).refl⟩⟩

/-! ## Keys that are small doubles -/

theorem roundNearest_small {n : Nat} (h : n < 2 ^ 53) : roundNearest n = n := by
  have he : n.log2 - 52 = 0 := by
    rcases Nat.eq_zero_or_pos n with rfl | hpos
    · rfl
    · have := (Nat.log2_lt hpos.ne').2 h
      omega
  simp [roundNearest, he]
  omega

theorem roundNearest_large {n : Nat} (h : 2 ^ 53 ≤ n) : 2 ^ 53 ≤ roundNearest n := by
  have hpos : 0 < n := lt_of_lt_of_le (Nat.two_pow_pos _) h
  have hlog : 53 ≤ n.log2 := (Nat.le_log2 hpos.ne').2 h
  have hself : 2 ^ n.log2 ≤ n := Nat.log2_self_le hpos.ne'
  have hq : 2 ^ 52 ≤ n / 2 ^ (n.log2 - 52) := by
    rw [Nat.le_div_iff_mul_le (Nat.two_pow_pos _), ← pow_add]
    exact (Nat.pow_le_pow_right Nat.two_pos (by omega)).trans hself
  have he : 2 ≤ 2 ^ (n.log2 - 52) := Nat.pow_le_pow_right Nat.two_pos (by omega : 1 ≤ n.log2 - 52)
  have hmul : 2 ^ 53 ≤ n / 2 ^ (n.log2 - 52) * 2 ^ (n.log2 - 52) := Nat.mul_le_mul hq he
  unfold roundNearest
  dsimp only
  split_ifs
  · exact hmul.trans (Nat.mul_le_mul_right _ (Nat.le_succ _))
  · exact hmul

/-- **Below 2^53 the conversion is exact.** -/
theorem toDouble_small {n : Int} {q : ℚ} (hq : |q| < 2 ^ 53) (h : toDouble n = ((q : WithTop ℚ) : Extended)) :
    q = n := by
  have heq : ((n.sign * roundNearest n.natAbs : Int) : ℚ) = q := WithTop.coe_inj.1 (WithBot.coe_inj.1 h)
  have hlt : n.natAbs < 2 ^ 53 := by
    by_contra hge
    have hlarge := roundNearest_large (Nat.not_lt.1 hge)
    have habs : |((n.sign * roundNearest n.natAbs : Int) : ℚ)| = (roundNearest n.natAbs : ℚ) := by
      have hn : n ≠ 0 := by omega
      rw [← Int.cast_abs, abs_mul, Int.abs_sign_of_ne_zero hn, one_mul, Nat.abs_cast, Int.cast_natCast]
    rw [heq] at habs
    rw [habs] at hq
    exact absurd hq (not_lt.2 (by exact_mod_cast hlarge))
  rw [roundNearest_small hlt, Int.sign_mul_natAbs] at heq
  exact heq.symm

/-- A double below 2^53 in magnitude. -/
def SmallDouble (d : UInt64) : Prop := ∃ q : ℚ, doubleValue d = some ((q : WithTop ℚ) : Extended) ∧ |q| < 2 ^ 53

theorem key_of_small {d : UInt64} {q : ℚ} (hd : doubleValue d = some ((q : WithTop ℚ) : Extended)) (hq : |q| < 2 ^ 53)
    {b : Value} {k : Key} (hb : keyOf b = some k) (h : valueEq (.vDouble d) b = true) :
    ∃ n : Int, k = .number n ∧ q = n := by
  cases b with
  | vInt x =>
    cases hb
    have hc : cmpIntDouble x d = some .eq := by
      simpa [valueEq, toNum, cmpNum, Ordering.swap_eq_iff_eq_swap] using h
    simp only [cmpIntDouble, hd] at hc
    split_ifs at hc
    · cases hc
    · cases hc
    · exact ⟨_, rfl, toDouble_small hq (compare_eq.1 (Option.some.inj hc))⟩
  | vUInt x =>
    cases hb
    have hc : cmpUintDouble x d = some .eq := by
      simpa [valueEq, toNum, cmpNum, Ordering.swap_eq_iff_eq_swap] using h
    simp only [cmpUintDouble, hd] at hc
    split_ifs at hc
    · cases hc
    · cases hc
    · exact ⟨_, rfl, toDouble_small hq (compare_eq.1 (Option.some.inj hc))⟩
  | vBool _ | vString _ => simp [valueEq, toNum] at h
  | _ => cases hb

theorem once_of_small {d : UInt64} (h : Keyed m) (hd : SmallDouble d) : Once (.vDouble d) m := by
  obtain ⟨q, hval, hq⟩ := hd
  intro e he e' he' heq heq'
  obtain ⟨a, ha⟩ := h.admitted e he
  obtain ⟨a', ha'⟩ := h.admitted e' he'
  obtain ⟨n, rfl, hn⟩ := key_of_small hval hq ha heq
  obtain ⟨n', rfl, hn'⟩ := key_of_small hval hq ha' heq'
  obtain rfl : n = n' := by exact_mod_cast hn.symm.trans hn'
  exact h.unique he he' (ha.trans ha'.symm)

/-! ## `transformMap` -/

theorem transformEntries_ok {transform : Value → Value → Except CelError (Option Value)} {m out : CelMap}
    (h : transformEntries transform m = .ok out) :
    ∀ e ∈ out, (∃ e' ∈ m, e.1 = e'.1) ∧ ∃ k val, transform k val = .ok (some e.2) := by
  induction m generalizing out with
  | nil =>
    cases h
    exact fun _ he => absurd he List.not_mem_nil
  | cons e m ih =>
    obtain ⟨nv, hnv, h⟩ := bind_ok.1 h
    obtain ⟨rest, hrest, h⟩ := bind_ok.1 h
    have hih : ∀ e' ∈ rest, (∃ e'' ∈ e :: m, e'.1 = e''.1) ∧ ∃ k val, transform k val = .ok (some e'.2) := by
      intro e' he'
      obtain ⟨⟨e'', he'', hk⟩, hv⟩ := ih hrest e' he'
      exact ⟨⟨e'', List.mem_cons_of_mem _ he'', hk⟩, hv⟩
    cases nv with
    | none =>
      cases h
      exact hih
    | some nv =>
      cases h
      exact List.forall_mem_cons.2 ⟨⟨⟨e, List.mem_cons_self, rfl⟩, _, _, hnv⟩, hih⟩

/-- **What `transformMap` builds is clean**, if the new values are. -/
theorem Clean.transform {transform : Value → Value → Except CelError (Option Value)} {v : Value}
    (hm : Keyed m) (hnew : ∀ k val nv, transform k val = .ok (some nv) → Clean showValue nv)
    (h : transformMap showValue transform (.vMap m) = .ok v) : Clean showValue v := by
  obtain ⟨out, hout, h⟩ := bind_ok.1 h
  have hentries := transformEntries_ok hout
  cases hmap : celMap showValue out with
  | error msg =>
    simp only [hmap] at h
    cases h
  | ok cm =>
    simp only [hmap] at h
    cases h
    have hkeys : ∀ e ∈ out, validateKey e.1 = .ok () := by
      intro e he
      obtain ⟨⟨e', he', hk⟩, -⟩ := hentries e he
      exact validateKey_ok.2 (hk ▸ hm.admitted e' he')
    obtain ⟨rfl, -⟩ := celMap_keyed hmap hkeys
    refine .map hkeys hmap fun e he => ?_
    obtain ⟨-, k, val, hv⟩ := hentries e he
    exact hnew k val _ hv

/-! ## Indexing -/

/-- The index, as an exact integer, is this position. -/
def IsPosition : Value → Nat → Prop
  | .vInt k, n => k.toInt = n
  | .vUInt k, n => k.toNat = n
  | .vDouble d, n => doubleValue d = some (((n : ℚ) : WithTop ℚ) : Extended)
  | _, _ => False

theorem truncate_natCast (n : Nat) : truncate (n : ℚ) = n := by simp [truncate]

theorem double_index_iff (ht : Truncates double2Int) {d : UInt64} {q : ℚ}
    (hv : doubleValue d = some ((q : WithTop ℚ) : Extended)) {n : Nat} (hn : (n : Int) < 2 ^ 63 - 1) :
    (if (truncate q : ℚ) = q then some (double2Int d) else none) = some (n : Int) ↔
      some ((q : WithTop ℚ) : Extended) = some (((n : ℚ) : WithTop ℚ) : Extended) := by
  rw [Option.some_inj, WithBot.coe_inj, WithTop.coe_inj]
  constructor
  · intro h
    split_ifs at h with htr
    injection h with h
    by_cases hr : InRange (truncate q)
    · rw [ht.exact d q hv hr] at h
      rw [← htr, h, Int.cast_natCast]
    · rcases ht.outside d q hv hr with hend | hend <;> omega
  · rintro rfl
    have hr : InRange (truncate (n : ℚ)) := by
      rw [truncate_natCast]
      exact ⟨by omega, by omega⟩
    rw [ht.exact d _ hv hr, truncate_natCast, if_pos (Int.cast_natCast n)]

/-- An index that is in the bounds is the exact one. -/
theorem asListIndex_iff (ht : Truncates double2Int) {i : Value} {n : Nat}
    (hn : (n : Int) < 2 ^ 63 - 1) :
    asListIndex double2Int i = some (n : Int) ↔ IsPosition i n := by
  have hr : InRange (n : Int) := ⟨by omega, by omega⟩
  cases i with
  | vInt k => exact Option.some_inj
  | vUInt k =>
    have hk := k.toNat_lt
    simp only [asListIndex, IsPosition, Option.some_inj]
    unfold ofWord wrap
    omega
  | vDouble d =>
    simp only [asListIndex, IsPosition]
    cases hv : doubleValue d with
    | none => simp
    | some v =>
      cases v using WithBot.recBotCoe with
      | bot => exact ⟨nofun, fun h => absurd (Option.some.inj h) WithBot.bot_ne_coe⟩
      | coe v =>
        cases v using WithTop.recTopCoe with
        | top => exact ⟨nofun, fun h => absurd (WithBot.coe_inj.1 (Option.some.inj h)) WithTop.top_ne_coe⟩
        | coe q => exact double_index_iff ht hv hn
  | _ => simp [asListIndex, IsPosition]

/-- **Indexing a list gives the element at the exact position**, and an error otherwise. -/
theorem indexValue_ok (ht : Truncates double2Int) {xs : List Value}
    (hlen : xs.length < 2 ^ 63) {i x : Value} :
    indexValue showValue double2Int (.vList xs) i = .ok x ↔ ∃ n, IsPosition i n ∧ xs[n]? = some x := by
  rw [indexValue]
  constructor
  · intro h
    split at h
    · rename_i k hk
      split_ifs at h with hbound
      split at h
      · rename_i y hy
        cases h
        obtain ⟨n, rfl⟩ := Int.eq_ofNat_of_zero_le (by omega : 0 ≤ k)
        exact ⟨n, (asListIndex_iff ht (by omega)).1 hk, hy⟩
      · cases h
    · cases h
  · rintro ⟨n, hpos, hx⟩
    obtain ⟨hn, -⟩ := List.getElem?_eq_some_iff.1 hx
    rw [(asListIndex_iff ht (by omega)).2 hpos]
    simp only [Int.toNat_natCast, hx]
    rw [if_neg (by omega)]

/-! ## Together -/

/-- **CEL equality, lookup and indexing are coherent**: equality is reflexive, symmetric and agrees with comparing,
    which is antisymmetric; the order of the entries of a map is not seen by equality, nor by a lookup that at most one
    entry answers, as is every lookup but of a double beyond 2^53; and a list is indexed at the exact position. -/
theorem cel_coherent {double2Int : UInt64 → Int} (ht : Truncates double2Int) :
    (∀ a, Clean showValue a → valueEq a a = true) ∧
    (∀ a b, Clean showValue a → Clean showValue b → valueEq a b = valueEq b a) ∧
    (∀ m m', Clean showValue (.vMap m) → m.Perm m' → valueEq (.vMap m) (.vMap m') = true ∧
      (∀ k, Once k m → celMapLookup k m = celMapLookup k m') ∧
      ∀ k, (∀ d, k = .vDouble d → SmallDouble d) → celMapLookup k m = celMapLookup k m') ∧
    (∀ m transform v, Keyed m → (∀ k val nv, transform k val = .ok (some nv) → Clean showValue nv) →
      transformMap showValue transform (.vMap m) = .ok v → Clean showValue v) ∧
    (∀ a b, compareValues b a = (compareValues a b).map Ordering.swap) ∧
    (∀ a b o, compareValues a b = some o → (valueEq a b = true ↔ o = .eq)) ∧
    ∀ xs : List Value, xs.length < 2 ^ 63 → ∀ i x,
      indexValue showValue double2Int (.vList xs) i = .ok x ↔ ∃ n, IsPosition i n ∧ xs[n]? = some x := by
  refine ⟨fun a h => h.refl, fun a b ha hb => Bool.eq_iff_iff.2 ⟨ha.symm hb, hb.symm ha⟩, fun m m' h hp =>
    ⟨h.perm hp, fun k hk => lookup_perm hk hp, fun k hk => lookup_perm ?_ hp⟩,
    fun m transform v hm hnew h => Clean.transform hm hnew h, compareValues_swap,
    fun a b o => valueEq_of_compare, fun xs hlen i x => indexValue_ok ht hlen⟩
  cases k with
  | vDouble d => exact once_of_small h.keyed (hk d rfl)
  | _ => exact once_of_key h.keyed id

/-! ## Two keys that one double equals -/

def twoKeys : CelMap := [(.vInt 9007199254740992, .vInt 1), (.vInt 9007199254740993, .vInt 2)]

/-- 2^53 -/
def largeDouble : UInt64 := 0x4340000000000000

theorem doubleValue_large : doubleValue largeDouble = some (((9007199254740992 : ℚ) : WithTop ℚ) : Extended) := by
  have h := (Ieee.binary64.value_encode (n := false) (s := 1) (x := 53) (by decide) (by decide) (by decide)
    (by decide)).1
  have henc : Ieee.binary64.encode false 1 53 = largeDouble.toNat := by decide
  rw [henc] at h
  rw [doubleValue, h]
  norm_num [Ieee.signed]

theorem toDouble_of {n m : Int} (h : n.sign * roundNearest n.natAbs = m) :
    toDouble n = (((m : ℚ) : WithTop ℚ) : Extended) := by rw [toDouble, h]

theorem equals_large {k : Int64} (hk : k.toInt.sign * roundNearest k.toInt.natAbs = 9007199254740992) :
    valueEq (.vDouble largeDouble) (.vInt k) = true := by
  have hmin : toDouble (-2 ^ 63) = (((-9223372036854775808 : Int) : ℚ) : WithTop ℚ) := toDouble_of (by decide)
  have hmax : toDouble (2 ^ 63 - 1) = (((9223372036854775808 : Int) : ℚ) : WithTop ℚ) := toDouble_of (by decide)
  have hc : cmpIntDouble k largeDouble = some .eq := by
    rw [cmpIntDouble, doubleValue_large]
    dsimp only
    have hlow : ¬(9007199254740992 : ℚ) < ((-9223372036854775808 : Int) : ℚ) := by norm_num
    have hhigh : ¬((9223372036854775808 : Int) : ℚ) < (9007199254740992 : ℚ) := by norm_num
    rw [hmin, hmax, toDouble_of hk, if_neg fun h => hlow (WithTop.coe_lt_coe.1 (WithBot.coe_lt_coe.1 h)),
      if_neg fun h => hhigh (WithTop.coe_lt_coe.1 (WithBot.coe_lt_coe.1 h)), Option.some_inj, compare_eq]
    norm_num
  rw [valueEq_of_num (a := .vDouble largeDouble) (b := .vInt k) rfl rfl, cmpNum, hc]
  rfl

/-- Both keys are rounded to the same double, so the first entry answers. -/
theorem large_double_first : ¬ ∀ m m' k, Clean (fun _ => "") (.vMap m) → m.Perm m' →
    celMapLookup k m = celMapLookup k m' := by
  intro h
  have hclean : Clean (fun _ => "") (.vMap twoKeys) := by
    refine .map (?_ : ∀ e ∈ twoKeys, _) rfl ?_
    · simp [twoKeys, validateKey]
    · have hscalar : ∀ n, Clean (fun _ => "") (.vInt n) := fun n => .scalar nofun nofun nofun
      exact List.forall_mem_cons.2 ⟨hscalar _, List.forall_mem_singleton.2 (hscalar _)⟩
  have heq := h twoKeys twoKeys.reverse (.vDouble largeDouble) hclean (List.reverse_perm _).symm
  have h1 := @equals_large 9007199254740992 (by decide)
  have h2 := @equals_large 9007199254740993 (by decide)
  simp [celMapLookup, twoKeys, h1, h2] at heq

/-- A conversion that saturates. -/
def saturate (d : UInt64) : Int :=
  match doubleValue d with
  | some (some (some q)) =>
    if truncate q < -2 ^ 63 then -2 ^ 63 else if 2 ^ 63 ≤ truncate q then 2 ^ 63 - 1 else truncate q
  | _ => 0

theorem saturate_truncates : Truncates saturate := by
  have hval : ∀ d (q : ℚ), doubleValue d = some ((q : WithTop ℚ) : Extended) → saturate d =
      if truncate q < -2 ^ 63 then -2 ^ 63 else if 2 ^ 63 ≤ truncate q then 2 ^ 63 - 1 else truncate q := by
    intro d q hd
    unfold saturate
    rw [hd]
  refine ⟨fun d q hd hr => ?_, fun d q hd hr => ?_⟩
  · rw [hval d q hd]
    obtain ⟨h1, h2⟩ := hr
    rw [if_neg (by omega), if_neg (by omega)]
  · rw [hval d q hd]
    unfold InRange at hr
    split_ifs <;> omega

/-- The second element of a list. -/
theorem cel_coherent_second :
    indexValue (fun _ => "") saturate (.vList [.vNull, .vBool true]) (.vUInt 1) = .ok (.vBool true) := by
  have h := (@cel_coherent (fun _ => "") saturate saturate_truncates).2.2.2.2.2.2 [.vNull, .vBool true] (by decide)
  exact (h (.vUInt 1) (.vBool true)).2 ⟨1, rfl, rfl⟩

end Wireform.Cel

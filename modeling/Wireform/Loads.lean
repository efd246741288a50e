/-
  Balancing loads.

  Places carry loads.  New items are handed one by one to the first of the places with
  the least load (`Handed`); then items move from places above a ceiling to the first
  place below a floor (`Moved`).

  * `surplus`, `short`: what the loads have above a ceiling, and lack to a floor; an item
    that is handed out or moved changes each by at most one;
  * `even_iff`: the loads differ by at most one exactly if nothing is above the ceiling
    and nothing lacks to the floor of their mean;
  * `even_iff_fair`: when the loads differ by at most one after both phases, in terms of
    the loads before, where floor and ceiling are those of another total.
-/
import Mathlib.Algebra.Order.BigOperators.Group.List
import Mathlib.Data.List.Basic
import Mathlib.Logic.Function.Basic
import Mathlib.Tactic.Ring

namespace Wireform.Loads

variable {ι : Type} {ids l₁ l₂ : List ι} {load load' : ι → Nat} {m d u i j : ι} {c f n k : Nat}

def total (ids : List ι) (load : ι → Nat) : Nat := (ids.map load).sum

/-- What is above a ceiling. -/
def surplus (c : Nat) (ids : List ι) (load : ι → Nat) : Nat := (ids.map fun i => load i - c).sum

/-- What lacks to a floor. -/
def short (f : Nat) (ids : List ι) (load : ι → Nat) : Nat := (ids.map fun i => f - load i).sum

/-- The loads differ by at most one. -/
def Even (ids : List ι) (load : ι → Nat) : Prop := ∀ i ∈ ids, ∀ j ∈ ids, load i ≤ load j + 1

/-! ## Sums -/

theorem total_cons (i : ι) (ids : List ι) (load : ι → Nat) : total (i :: ids) load = load i + total ids load := rfl

theorem sum_eq_zero_iff {g : ι → Nat} : (ids.map g).sum = 0 ↔ ∀ i ∈ ids, g i = 0 := by
  rw [List.sum_eq_zero_iff_forall_eq_nat]
  constructor
  · exact fun h i hi => h _ (List.mem_map_of_mem hi)
  · intro h x hx
    obtain ⟨i, hi, rfl⟩ := List.mem_map.1 hx
    exact h i hi

theorem surplus_eq_zero : surplus c ids load = 0 ↔ ∀ i ∈ ids, load i ≤ c := by
  unfold surplus
  rw [sum_eq_zero_iff]
  exact forall₂_congr fun i _ => Nat.sub_eq_zero_iff_le

theorem short_eq_zero : short f ids load = 0 ↔ ∀ i ∈ ids, f ≤ load i := by
  unfold short
  rw [sum_eq_zero_iff]
  exact forall₂_congr fun i _ => Nat.sub_eq_zero_iff_le

theorem le_total (h : ∀ i ∈ ids, c ≤ load i) : ids.length * c ≤ total ids load := by
  induction ids with
  | nil => simp
  | cons i is ih =>
    have hrest := ih fun j hj => h j (List.mem_cons_of_mem _ hj)
    have hi := h i List.mem_cons_self
    rw [total_cons, List.length_cons, Nat.succ_mul]
    omega

theorem total_le (h : ∀ i ∈ ids, load i ≤ c) : total ids load ≤ ids.length * c := by
  induction ids with
  | nil => simp [total]
  | cons i is ih =>
    have hrest := ih fun j hj => h j (List.mem_cons_of_mem _ hj)
    have hi := h i List.mem_cons_self
    rw [total_cons, List.length_cons, Nat.succ_mul]
    omega

/-! ## Low places -/

/-- At least two below the floor. -/
def Low (f : Nat) (ids : List ι) (load : ι → Nat) : Prop := ∃ i ∈ ids, load i + 2 ≤ f

instance (f : Nat) (ids : List ι) (load : ι → Nat) : Decidable (Low f ids load) :=
  inferInstanceAs (Decidable (∃ i ∈ ids, load i + 2 ≤ f))

/-- What lacks to the floor, up to the last place that is low. -/
def due (f : Nat) (load : ι → Nat) : List ι → Nat
  | [] => 0
  | i :: is => if Low f (i :: is) load then f - load i + due f load is else 0

attribute [grind =] due

theorem due_of_not_low (h : ¬ Low f ids load) : due f load ids = 0 := by
  cases ids with
  | nil => rfl
  | cons i is => exact if_neg h

theorem two_le_due (h : Low f ids load) : 2 ≤ due f load ids := by
  induction ids with
  | nil =>
    obtain ⟨i, hi, -⟩ := h
    cases hi
  | cons i is ih =>
    rw [due, if_pos h]
    by_cases his : Low f is load
    · have := ih his
      omega
    · obtain ⟨j, hj, hlow⟩ := h
      rcases List.mem_cons.1 hj with rfl | hj
      · omega
      · exact absurd ⟨j, hj, hlow⟩ his

theorem short_pred_eq_zero : short (f - 1) ids load = 0 ↔ ¬ Low f ids load := by
  rw [short_eq_zero]
  constructor
  · rintro h ⟨i, hi, hlow⟩
    have := h i hi
    omega
  · intro h i hi
    by_contra hlt
    exact h ⟨i, hi, by omega⟩

theorem due_append (h : Low f l₂ load) : due f load (l₁ ++ l₂) = short f l₁ load + due f load l₂ := by
  induction l₁ with
  | nil => simp [short]
  | cons i is ih =>
    have hlow : Low f (i :: is ++ l₂) load := by
      obtain ⟨j, hj, hj2⟩ := h
      exact ⟨j, List.mem_append_right _ hj, hj2⟩
    have hshort : short f (i :: is) load = f - load i + short f is load := rfl
    have hdue : due f load (i :: is ++ l₂) = f - load i + due f load (is ++ l₂) := if_pos hlow
    rw [hdue, ih, hshort]
    omega

/-- Only what lacks to the floor counts. -/
theorem due_congr (h : ∀ i ∈ ids, f - load i = f - load' i) : due f load ids = due f load' ids := by
  induction ids with
  | nil => rfl
  | cons i is ih =>
    have hiff : Low f (i :: is) load ↔ Low f (i :: is) load' := by
      refine exists_congr fun j => and_congr_right fun hj => ?_
      have := h j hj
      omega
    rw [due, due, if_congr hiff rfl rfl, h i List.mem_cons_self, ih fun j hj => h j (List.mem_cons_of_mem _ hj)]

theorem short_congr (h : ∀ i ∈ ids, f - load i = f - load' i) : short f ids load = short f ids load' := by
  unfold short
  rw [List.map_congr_left h]

/-! ## The least load -/

/-- The first place with the least load. -/
def FirstLeast (ids : List ι) (load : ι → Nat) (m : ι) : Prop :=
  ∃ l₁ l₂, ids = l₁ ++ m :: l₂ ∧ (∀ i ∈ l₁, load m < load i) ∧ ∀ i ∈ l₂, load m ≤ load i

theorem FirstLeast.mem (h : FirstLeast ids load m) : m ∈ ids := by
  obtain ⟨l₁, l₂, rfl, -⟩ := h
  exact List.mem_append_right _ List.mem_cons_self

theorem FirstLeast.le (h : FirstLeast ids load m) : ∀ i ∈ ids, load m ≤ load i := by
  obtain ⟨l₁, l₂, rfl, hl₁, hl₂⟩ := h
  intro i hi
  rcases List.mem_append.1 hi with hi | hi
  · exact Nat.le_of_lt (hl₁ i hi)
  · rcases List.mem_cons.1 hi with rfl | hi
    · exact Nat.le_refl _
    · exact hl₂ i hi

/-- The least load is below everything the loads do not fill. -/
theorem FirstLeast.lt_of_total (h : FirstLeast ids load m) (hlt : total ids load < ids.length * c) : load m < c := by
  by_contra hle
  have := le_total fun i hi => Nat.le_trans (Nat.not_lt.1 hle) (h.le i hi)
  omega

theorem FirstLeast.lt_of_short (h : FirstLeast ids load m) (hshort : short f ids load ≠ 0) : load m < f := by
  by_contra hle
  exact hshort (short_eq_zero.2 fun i hi => Nat.le_trans (Nat.not_lt.1 hle) (h.le i hi))

/-! ## The mean -/

theorem le_mul_ceil (t : Nat) (h : 0 < n) : t ≤ n * ((t + n - 1) / n) := by
  have := Nat.lt_mul_div_succ (t + n - 1) h
  rw [Nat.mul_succ] at this
  omega

theorem ceil_le_succ (t : Nat) (h : 0 < n) : (t + n - 1) / n ≤ t / n + 1 := by
  rw [← Nat.add_div_right t h]
  exact Nat.div_le_div_right (by omega)

theorem floor_le_ceil (t : Nat) (h : 0 < n) : t / n ≤ (t + n - 1) / n := Nat.div_le_div_right (by omega)

theorem ceil_of_dvd {t : Nat} (h : 0 < n) (hd : n ∣ t) : (t + n - 1) / n = t / n := by
  obtain ⟨q, rfl⟩ := hd
  rw [Nat.mul_div_cancel_left q h, Nat.add_sub_assoc h, Nat.mul_add_div h, Nat.div_eq_of_lt (by omega)]
  rfl

theorem ceil_of_not_dvd {t : Nat} (h : 0 < n) (hd : ¬ n ∣ t) : (t + n - 1) / n = t / n + 1 := by
  refine Nat.le_antisymm (ceil_le_succ t h) (Nat.succ_le_of_lt ?_)
  by_contra hle
  have heq := Nat.le_antisymm (Nat.not_lt.1 hle) (floor_le_ceil t h)
  have h1 := le_mul_ceil t h
  rw [heq] at h1
  exact hd ⟨t / n, Nat.le_antisymm h1 (Nat.mul_div_le t n)⟩

/-- Places above and below are different. -/
theorem taker_ne_donor (hfc : f ≤ c) (above : c < load d) (below : load u < f) : u ≠ d := by
  rintro rfl
  omega

section

variable [DecidableEq ι]

theorem total_erase (hi : i ∈ ids) : total ids load = load i + total (ids.erase i) load := by
  unfold total
  rw [((List.perm_cons_erase hi).map load).sum_eq, List.map_cons, List.sum_cons]

theorem length_erase (hi : i ∈ ids) : ids.length = (ids.erase i).length + 1 := by
  rw [(List.perm_cons_erase hi).length_eq, List.length_cons]

/-- Loads that all reach `c`, one of them more, add up to more. -/
theorem lt_total (h : ∀ i ∈ ids, c ≤ load i) (hi : i ∈ ids) (hlt : c < load i) :
    ids.length * c < total ids load := by
  have hle : (ids.erase i).length * c ≤ total (ids.erase i) load :=
    le_total fun j hj => h j (List.mem_of_mem_erase hj)
  rw [total_erase hi, length_erase hi, Nat.succ_mul]
  omega

theorem total_lt (h : ∀ i ∈ ids, load i ≤ c) (hi : i ∈ ids) (hlt : load i < c) :
    total ids load < ids.length * c := by
  have hle : total (ids.erase i) load ≤ (ids.erase i).length * c :=
    total_le fun j hj => h j (List.mem_of_mem_erase hj)
  rw [total_erase hi, length_erase hi, Nat.succ_mul]
  omega

/-- **Even loads** are those with nothing above the ceiling and nothing below the floor
    of the mean. -/
theorem even_iff (hne : ids ≠ []) : Even ids load ↔
    surplus ((total ids load + ids.length - 1) / ids.length) ids load = 0 ∧
      short (total ids load / ids.length) ids load = 0 := by
  have hpos : 0 < ids.length := List.length_pos_iff.2 hne
  have hceil := le_mul_ceil (total ids load) hpos
  have hfloor := Nat.mul_div_le (total ids load) ids.length
  have hsucc := ceil_le_succ (total ids load) hpos
  rw [surplus_eq_zero, short_eq_zero]
  constructor
  · refine fun h => ⟨fun i hi => ?_, fun j hj => ?_⟩
    · by_contra hlt
      have hall := lt_total (c := (total ids load + ids.length - 1) / ids.length)
        (fun j hj => by have := h i hi j hj; omega) hi (Nat.not_le.1 hlt)
      omega
    · by_contra hlt
      have hall := total_lt (c := total ids load / ids.length)
        (fun i hi => by have := h i hi j hj; omega) hj (Nat.not_le.1 hlt)
      omega
  · rintro ⟨hsurplus, hshort⟩ i hi j hj
    have hi := hsurplus i hi
    have hj := hshort j hj
    omega

/-! ## One item more or less -/

def add (m : ι) (load : ι → Nat) : ι → Nat := Function.update load m (load m + 1)

def remove (m : ι) (load : ι → Nat) : ι → Nat := Function.update load m (load m - 1)

theorem add_self (m : ι) (load : ι → Nat) : add m load m = load m + 1 := Function.update_self _ _ _

theorem add_of_ne (h : i ≠ m) : add m load i = load i := Function.update_of_ne h _ _

theorem remove_self (m : ι) (load : ι → Nat) : remove m load m = load m - 1 := Function.update_self _ _ _

theorem remove_of_ne (h : i ≠ m) : remove m load i = load i := Function.update_of_ne h _ _

theorem sum_update (load : ι → Nat) (φ : Nat → Nat) (hd : ids.Nodup) (hm : m ∈ ids) (v : Nat) :
    (ids.map fun i => φ (Function.update load m v i)).sum + φ (load m) = (ids.map fun i => φ (load i)).sum + φ v := by
  induction ids with
  | nil => cases hm
  | cons i is ih =>
    obtain ⟨hi, hd⟩ := List.nodup_cons.1 hd
    simp only [List.map_cons, List.sum_cons]
    by_cases him : i = m
    · subst him
      have hsame : (is.map fun j => φ (Function.update load i v j)) = is.map fun j => φ (load j) := by
        refine List.map_congr_left fun j hj => ?_
        have hji : j ≠ i := by
          rintro rfl
          exact hi hj
        rw [Function.update_of_ne hji]
      rw [hsame, Function.update_self]
      omega
    · have hrest := ih hd ((List.mem_cons.1 hm).resolve_left (Ne.symm him))
      rw [Function.update_of_ne him]
      omega

theorem surplus_add (hd : ids.Nodup) (hm : m ∈ ids) (h : load m < c) : surplus c ids (add m load) = surplus c ids load := by
  have hsum := sum_update load (fun x => x - c) hd hm (load m + 1)
  unfold surplus add
  omega

theorem surplus_remove (hd : ids.Nodup) (hm : m ∈ ids) (h : c < load m) :
    surplus c ids (remove m load) + 1 = surplus c ids load := by
  have hsum := sum_update load (fun x => x - c) hd hm (load m - 1)
  unfold surplus remove
  omega

theorem short_add (hd : ids.Nodup) (hm : m ∈ ids) (h : load m < f) :
    short f ids (add m load) + 1 = short f ids load := by
  have hsum := sum_update load (fun x => f - x) hd hm (load m + 1)
  unfold short add
  omega

theorem short_add_of_le (hd : ids.Nodup) (hm : m ∈ ids) (h : f ≤ load m) :
    short f ids (add m load) = short f ids load := by
  have hsum := sum_update load (fun x => f - x) hd hm (load m + 1)
  unfold short add
  omega

theorem short_remove (hd : ids.Nodup) (hm : m ∈ ids) (h : f < load m) :
    short f ids (remove m load) = short f ids load := by
  have hsum := sum_update load (fun x => f - x) hd hm (load m - 1)
  unfold short remove
  omega

theorem total_add (hd : ids.Nodup) (hm : m ∈ ids) : total ids (add m load) = total ids load + 1 := by
  have hsum := sum_update load (fun x => x) hd hm (load m + 1)
  have htotal : total ids (add m load) + load m = total ids load + (load m + 1) := hsum
  omega

theorem total_remove (hd : ids.Nodup) (hm : m ∈ ids) (h : 0 < load m) :
    total ids (remove m load) + 1 = total ids load := by
  have hsum := sum_update load (fun x => x) hd hm (load m - 1)
  have htotal : total ids (remove m load) + load m = total ids load + (load m - 1) := hsum
  omega

/-! ## Handing out -/

/-- `k` items are handed out. -/
inductive Handed (ids : List ι) : Nat → (ι → Nat) → (ι → Nat) → Prop
  | done (load : ι → Nat) : Handed ids 0 load load
  | give {k : Nat} {load load' : ι → Nat} (m : ι) (least : FirstLeast ids load m)
      (rest : Handed ids k (add m load) load') : Handed ids (k + 1) load load'

theorem Handed.total_eq (hd : ids.Nodup) (h : Handed ids k load load') : total ids load' = total ids load + k := by
  induction h with
  | done load => rfl
  | give m least rest ih =>
    rw [ih, total_add hd least.mem]
    omega

theorem Handed.surplus_eq (hd : ids.Nodup) (h : Handed ids k load load') (hc : total ids load + k ≤ ids.length * c) :
    surplus c ids load' = surplus c ids load := by
  induction h with
  | done load => rfl
  | @give k load load' m least rest ih =>
    have htotal : total ids (add m load) = total ids load + 1 := total_add hd least.mem
    rw [ih (by omega), surplus_add hd least.mem (least.lt_of_total (by omega))]

theorem Handed.short_eq (hd : ids.Nodup) (h : Handed ids k load load') :
    short f ids load' = short f ids load - k := by
  induction h with
  | done load => rfl
  | @give k load load' m least rest ih =>
    rw [ih]
    by_cases hshort : short f ids load = 0
    · rw [short_add_of_le hd least.mem (short_eq_zero.1 hshort m least.mem), hshort]
      omega
    · have := short_add hd least.mem (least.lt_of_short hshort)
      omega

/-- An item for a place before one that is still low. -/
theorem due_add (hd : (l₁ ++ m :: l₂).Nodup) (hm : load m < f) (hlow : Low f (m :: l₂) (add m load)) :
    due f (add m load) (l₁ ++ m :: l₂) + 1 = due f load (l₁ ++ m :: l₂) := by
  obtain ⟨-, hd₂, hdisj⟩ := List.nodup_append.1 hd
  obtain ⟨hm₂, -⟩ := List.nodup_cons.1 hd₂
  have hl₁ : ∀ i ∈ l₁, add m load i = load i := fun i hi => add_of_ne (hdisj i hi m List.mem_cons_self)
  have hl₂ : ∀ i ∈ l₂, add m load i = load i := by
    intro i hi
    refine add_of_ne ?_
    rintro rfl
    exact hm₂ hi
  have hlow' : Low f (m :: l₂) load := by
    obtain ⟨i, hi, hi2⟩ := hlow
    refine ⟨i, hi, ?_⟩
    rcases List.mem_cons.1 hi with rfl | hi
    · rw [add_self] at hi2
      omega
    · rw [hl₂ i hi] at hi2
      exact hi2
  rw [due_append hlow, due_append hlow', due, due, if_pos hlow, if_pos hlow',
    short_congr fun i hi => by rw [hl₁ i hi], due_congr fun i hi => by rw [hl₂ i hi], add_self]
  omega

theorem Handed.not_low (hd : ids.Nodup) (h : Handed ids k load load') (hk : short (f - 1) ids load ≤ k) :
    ¬ Low f ids load' := by
  rw [← short_pred_eq_zero, h.short_eq hd]
  omega

theorem Handed.due_eq (hd : ids.Nodup) (h : Handed ids k load load') (hk : k < short (f - 1) ids load) :
    due f load' ids + k = due f load ids := by
  induction h with
  | done load => rfl
  | @give k load load' m least rest ih =>
    have hm := least.lt_of_short (f := f - 1) (by omega)
    have hshort := short_add hd least.mem hm
    have hlow : Low f ids (add m load) := by
      by_contra hnot
      have := short_pred_eq_zero.2 hnot
      omega
    obtain ⟨l₁, l₂, rfl, hl₁, -⟩ := least
    have hrest := ih (by omega)
    refine Eq.trans ?_ (due_add hd (by omega) ?_)
    · omega
    · obtain ⟨i, hi, hi2⟩ := hlow
      rcases List.mem_append.1 hi with hi | hi
      · refine ⟨m, List.mem_cons_self, ?_⟩
        have hlt := hl₁ i hi
        have hne : i ≠ m := by
          rintro rfl
          exact Nat.lt_irrefl _ hlt
        rw [add_of_ne hne] at hi2
        rw [add_self]
        omega
      · exact ⟨i, hi, hi2⟩

/-! ## Moving -/

/-- Items move from places above `c` to the first place below `f`, as long as there are
    both. -/
inductive Moved (ids : List ι) (c f : Nat) : (ι → Nat) → (ι → Nat) → Prop
  | done (load : ι → Nat) (stop : surplus c ids load = 0 ∨ short f ids load = 0) : Moved ids c f load load
  | move {load load' : ι → Nat} (l₁ l₂ : List ι) (d u : ι) (donor : d ∈ ids) (above : c < load d)
      (split : ids = l₁ ++ u :: l₂) (first : ∀ i ∈ l₁, f ≤ load i) (below : load u < f)
      (rest : Moved ids c f (add u (remove d load)) load') : Moved ids c f load load'

theorem surplus_move (hd : ids.Nodup) (hfc : f ≤ c) (hdonor : d ∈ ids) (hu : u ∈ ids) (above : c < load d)
    (below : load u < f) : surplus c ids (add u (remove d load)) + 1 = surplus c ids load := by
  have hne := taker_ne_donor hfc above below
  rw [surplus_add hd hu, surplus_remove hd hdonor above]
  rw [remove_of_ne hne]
  omega

theorem short_move (hd : ids.Nodup) (hfc : f ≤ c) (hdonor : d ∈ ids) (hu : u ∈ ids) (above : c < load d)
    (below : load u < f) : short f ids (add u (remove d load)) + 1 = short f ids load := by
  have hne := taker_ne_donor hfc above below
  rw [short_add hd hu, short_remove hd hdonor (by omega)]
  rw [remove_of_ne hne]
  exact below

theorem total_move (hd : ids.Nodup) (hdonor : d ∈ ids) (hu : u ∈ ids) (above : c < load d) :
    total ids (add u (remove d load)) = total ids load := by
  rw [total_add hd hu, total_remove hd hdonor (by omega)]

theorem Moved.left (hd : ids.Nodup) (hfc : f ≤ c) (h : Moved ids c f load load') :
    surplus c ids load' = surplus c ids load - short f ids load ∧ short f ids load' = short f ids load - surplus c ids load ∧
      total ids load' = total ids load := by
  induction h with
  | done load stop => omega
  | @move load load' l₁ l₂ d u donor above split first below rest ih =>
    have hu : u ∈ ids := split ▸ List.mem_append_right _ List.mem_cons_self
    have hsurplus := surplus_move hd hfc donor hu above below
    have hshort := short_move hd hfc donor hu above below
    have htotal := total_move hd donor hu above
    omega

theorem Moved.eq_of_surplus (h : Moved ids c f load load') (hsurplus : surplus c ids load = 0) : load' = load := by
  cases h with
  | done load stop => rfl
  | move l₁ l₂ d u donor above split first below rest =>
    have := surplus_eq_zero.1 hsurplus d donor
    omega

/-- The last place that gives an item away ends up at the ceiling. -/
theorem Moved.exists_top (hd : ids.Nodup) (hfc : f ≤ c) (h : Moved ids c f load load')
    (hsurplus : surplus c ids load ≠ 0) (hle : surplus c ids load ≤ short f ids load) : ∃ i ∈ ids, load' i = c := by
  induction h with
  | done load stop => omega
  | @move load load' l₁ l₂ d u donor above split first below rest ih =>
    have hu : u ∈ ids := split ▸ List.mem_append_right _ List.mem_cons_self
    have hsurplus' := surplus_move hd hfc donor hu above below
    have hshort' := short_move hd hfc donor hu above below
    by_cases hzero : surplus c ids (add u (remove d load)) = 0
    · have hne := taker_ne_donor hfc above below
      refine ⟨d, donor, ?_⟩
      have hle := surplus_eq_zero.1 hzero d donor
      rw [rest.eq_of_surplus hzero, add_of_ne (Ne.symm hne), remove_self] at *
      omega
    · exact ih hzero (by omega)

/-- Whether the moves reach the last of the low places. -/
theorem Moved.not_low_iff (hd : ids.Nodup) (hfc : f ≤ c) (h : Moved ids c f load load')
    (hlt : surplus c ids load < short f ids load) : ¬ Low f ids load' ↔ due f load ids ≤ surplus c ids load + 1 := by
  induction h with
  | done load stop =>
    constructor
    · intro h
      rw [due_of_not_low h]
      omega
    · intro hdue hlow
      have := two_le_due hlow
      omega
  | @move load load' l₁ l₂ d u donor above split first below rest ih =>
    have hu : u ∈ ids := split ▸ List.mem_append_right _ List.mem_cons_self
    have hsurplus := surplus_move hd hfc donor hu above below
    have hshort := short_move hd hfc donor hu above below
    have hne := taker_ne_donor hfc above below
    have hremove : ∀ i, f - remove d load i = f - load i := by
      intro i
      by_cases hi : i = d
      · rw [hi, remove_self]
        omega
      · rw [remove_of_ne hi]
    rw [ih (by omega)]
    have hsame : due f (remove d load) ids = due f load ids := due_congr fun i _ => hremove i
    subst split
    by_cases hlow : Low f (u :: l₂) (add u (remove d load))
    · have hdue := due_add hd (by rw [remove_of_ne hne]; exact below) hlow
      omega
    · -- the taker was the last of the low places
      have hafter : ¬ Low f (l₁ ++ u :: l₂) (add u (remove d load)) := by
        rintro ⟨i, hi, hi2⟩
        rcases List.mem_append.1 hi with hi | hi
        · have hfirst := first i hi
          have hiu : i ≠ u := by
            rintro rfl
            omega
          have := hremove i
          rw [add_of_ne hiu] at hi2
          omega
        · exact hlow ⟨i, hi, hi2⟩
      have hbefore : due f (remove d load) (l₁ ++ u :: l₂) ≤ 2 := by
        by_cases hlow' : Low f (u :: l₂) (remove d load)
        · have hl₁ : short f l₁ (remove d load) = 0 := by
            rw [short_congr fun i _ => hremove i]
            exact short_eq_zero.2 first
          have hl₂ : ¬ Low f l₂ (remove d load) := by
            rintro ⟨i, hi, hi2⟩
            refine hlow ⟨i, List.mem_cons_of_mem _ hi, ?_⟩
            have hiu : i ≠ u := by
              rintro rfl
              exact (List.nodup_cons.1 (List.nodup_append.1 hd).2.1).1 hi
            rw [add_of_ne hiu]
            exact hi2
          have hu2 : ¬ load u + 1 + 2 ≤ f := by
            intro hu2
            refine hlow ⟨u, List.mem_cons_self, ?_⟩
            rw [add_self, remove_of_ne hne]
            exact hu2
          rw [due_append hlow', hl₁, due, if_pos hlow', due_of_not_low hl₂, remove_of_ne hne]
          omega
        · have hnot : ¬ Low f (l₁ ++ u :: l₂) (remove d load) := by
            rintro ⟨i, hi, hi2⟩
            rcases List.mem_append.1 hi with hi | hi
            · have := hremove i
              have := first i hi
              omega
            · exact hlow' ⟨i, hi, hi2⟩
          rw [due_of_not_low hnot]
          omega
      rw [due_of_not_low hafter]
      omega

/-! ## Both phases -/

/-- When the loads come out even, in terms of the loads before: `k` items are handed
    out, and floor and ceiling are those of `t` items. -/
def Fair (ids : List ι) (load : ι → Nat) (k t : Nat) : Prop :=
  let n := ids.length
  let c := (t + n - 1) / n
  let f := t / n
  let mean := total ids load + k
  surplus c ids load = short f ids load - k ∨
    surplus c ids load < short f ids load - k ∧
      if surplus c ids load = 0 then surplus ((mean + n - 1) / n) ids load = 0 ∧ short (mean / n) ids load ≤ k
      else n ∣ t ∧ (short (f - 1) ids load ≤ k ∨ due f load ids ≤ surplus c ids load + k + 1)

variable {a b : ι → Nat} {t : Nat}

theorem even_iff_fair (hd : ids.Nodup) (hne : ids ≠ []) (ht : total ids load + k ≤ t) (hhanded : Handed ids k load a)
    (hmoved : Moved ids ((t + ids.length - 1) / ids.length) (t / ids.length) a b) :
    Even ids b ↔ Fair ids load k t := by
  have hpos : 0 < ids.length := List.length_pos_iff.2 hne
  have hceil := le_mul_ceil t hpos
  have hsucc := ceil_le_succ t hpos
  have hfc := floor_le_ceil t hpos
  unfold Fair
  simp only
  generalize hc : (t + ids.length - 1) / ids.length = c at *
  generalize hf : t / ids.length = f at *
  have hsurplus := hhanded.surplus_eq hd (Nat.le_trans ht hceil)
  have hshort := hhanded.short_eq (f := f) hd
  have htotal := hhanded.total_eq hd
  obtain ⟨hbover, hbshort, hbtotal⟩ := hmoved.left hd hfc
  rw [hsurplus, hshort] at hbover hbshort
  rcases Nat.lt_trichotomy (surplus c ids load) (short f ids load - k) with hlt | heq | hgt
  · rw [or_iff_right (Nat.ne_of_lt hlt), and_iff_right hlt]
    split_ifs with hzero
    · have hab := hmoved.eq_of_surplus (hsurplus.trans hzero)
      have hmean := hhanded.surplus_eq hd (le_mul_ceil (total ids load + k) hpos)
      rw [hab, even_iff hne, htotal, hmean, hhanded.short_eq hd, Nat.sub_eq_zero_iff_le]
    · obtain ⟨i, hi, htop⟩ := hmoved.exists_top hd hfc (by omega) (by omega)
      have hle := surplus_eq_zero.1 (show surplus c ids b = 0 by omega)
      by_cases hdvd : ids.length ∣ t
      · have hcf : c = f := by rw [← hc, ← hf, ceil_of_dvd hpos hdvd]
        have heven : Even ids b ↔ ¬ Low f ids b := by
          constructor
          · rintro h ⟨j, hj, hlow⟩
            have := h i hi j hj
            omega
          · intro h i' hi' j hj
            have := hle i' hi'
            by_contra hlt
            exact h ⟨j, hj, by omega⟩
        rw [heven, hmoved.not_low_iff hd hfc (by omega), hsurplus, and_iff_right hdvd]
        by_cases hk : short (f - 1) ids load ≤ k
        · rw [due_of_not_low (hhanded.not_low hd hk)]
          exact iff_of_true (Nat.zero_le _) (Or.inl hk)
        · have hdue := hhanded.due_eq hd (Nat.not_le.1 hk)
          rw [or_iff_right hk]
          omega
      · have hcf : c = f + 1 := by rw [← hc, ← hf, ceil_of_not_dvd hpos hdvd]
        refine iff_of_false (fun h => ?_) fun h => hdvd h.1
        have hne0 : short f ids b ≠ 0 := by omega
        refine hne0 (short_eq_zero.2 fun j hj => ?_)
        have := h i hi j hj
        omega
  · have hb0 := surplus_eq_zero.1 (show surplus c ids b = 0 by omega)
    have hs0 := short_eq_zero.1 (show short f ids b = 0 by omega)
    refine iff_of_true (fun i hi j hj => ?_) (Or.inl heq)
    have := hb0 i hi
    have := hs0 j hj
    omega
  · refine iff_of_false (fun h => ?_) fun h => ?_
    · -- some place is above the ceiling, and another one pays for it
      have hne0 : surplus c ids b ≠ 0 := by omega
      refine hne0 (surplus_eq_zero.2 fun i hi => ?_)
      by_contra hlt
      have hall := lt_total (c := c) (fun j hj => by have := h i hi j hj; omega) hi (Nat.not_le.1 hlt)
      omega
    · rcases h with h | h
      · exact absurd h (Nat.ne_of_gt hgt)
      · exact absurd h.1 (Nat.lt_asymm hgt)

end

end Wireform.Loads

/-
  An agenda of alarms.

  Alarms are armed with a delay and go off when the clock reaches their time.  The pending
  ones stand in the order in which they were armed; those that went off are kept.

  * `least`: the first of the smallest elements of a list;
  * `Agenda.arm`, `Agenda.cancel`, `Agenda.fire`, `Agenda.pass`: what happens to an agenda;
  * `Agenda.remaining`: how long the pending alarms have still to wait;
  * `Agenda.Ordered`: alarms go off by their time, and at one time as they were armed.
-/
import Mathlib.Data.List.Basic
import Mathlib.Data.List.Nodup
import Mathlib.Data.Int.Order.Basic
import Mathlib.Order.Basic
import Mathlib.Tactic.Common

namespace Wireform

variable {α κ : Type}

/-! ## The least element -/

def pick (f : α → Int) (acc : Option α) (cand : α) : Option α :=
  match acc with
  | none => some cand
  | some best => if f cand < f best then some cand else acc

attribute [grind =] pick

def least (f : α → Int) (xs : List α) : Option α := xs.foldl (pick f) none

theorem foldl_pick_some (f : α → Int) (xs : List α) (x : α) : ∃ y, xs.foldl (pick f) (some x) = some y ∧
    (y = x ∧ (∀ z ∈ xs, f x ≤ f z) ∨
      f y < f x ∧ ∃ before after, xs = before ++ y :: after ∧ (∀ z ∈ before, f y < f z) ∧ ∀ z ∈ after, f y ≤ f z) := by
  induction xs generalizing x with
  | nil => exact ⟨x, rfl, .inl ⟨rfl, fun z hz => absurd hz List.not_mem_nil⟩⟩
  | cons c xs ih =>
    rw [List.foldl_cons]
    by_cases hc : f c < f x
    · obtain ⟨y, hy, hcase⟩ := ih c
      refine ⟨y, by rw [pick, if_pos hc, hy], .inr ?_⟩
      rcases hcase with ⟨rfl, hle⟩ | ⟨hlt, before, after, rfl, hbefore, hafter⟩
      · exact ⟨hc, [], xs, rfl, fun z hz => absurd hz List.not_mem_nil, hle⟩
      · refine ⟨hlt.trans hc, c :: before, after, rfl, fun z hz => ?_, hafter⟩
        rcases List.mem_cons.1 hz with rfl | hz'
        · exact hlt
        · exact hbefore z hz'
    · obtain ⟨y, hy, hcase⟩ := ih x
      refine ⟨y, by rw [pick, if_neg hc, hy], ?_⟩
      rcases hcase with ⟨rfl, hle⟩ | ⟨hlt, before, after, rfl, hbefore, hafter⟩
      · refine .inl ⟨rfl, fun z hz => ?_⟩
        rcases List.mem_cons.1 hz with rfl | hz'
        · exact not_lt.1 hc
        · exact hle z hz'
      · refine .inr ⟨hlt, c :: before, after, rfl, fun z hz => ?_, hafter⟩
        rcases List.mem_cons.1 hz with rfl | hz'
        · exact hlt.trans_le (not_lt.1 hc)
        · exact hbefore z hz'

variable {f : α → Int} {xs : List α} {y : α}

/-- **The least element is smaller than what stands before it, and at most what stands after it.** -/
theorem least_eq_some (h : least f xs = some y) :
    ∃ before after, xs = before ++ y :: after ∧ (∀ z ∈ before, f y < f z) ∧ ∀ z ∈ after, f y ≤ f z := by
  cases xs with
  | nil => cases h
  | cons x xs =>
    obtain ⟨y', hy', hcase⟩ := foldl_pick_some f xs x
    obtain rfl : y' = y := Option.some.inj (hy'.symm.trans h)
    rcases hcase with ⟨rfl, hle⟩ | ⟨hlt, before, after, rfl, hbefore, hafter⟩
    · exact ⟨[], xs, rfl, fun z hz => absurd hz List.not_mem_nil, hle⟩
    · refine ⟨x :: before, after, rfl, fun z hz => ?_, hafter⟩
      rcases List.mem_cons.1 hz with rfl | hz'
      · exact hlt
      · exact hbefore z hz'

theorem foldl_pick_keep (h : ∀ z ∈ xs, f y ≤ f z) :
    xs.foldl (pick f) (some y) = some y := by
  induction xs with
  | nil => rfl
  | cons x xs ih =>
    rw [List.foldl_cons, pick, if_neg (not_lt.2 (h x List.mem_cons_self))]
    exact ih fun z hz => h z (List.mem_cons_of_mem x hz)

theorem least_of_split {before after : List α} (hbefore : ∀ z ∈ before, f y < f z)
    (hafter : ∀ z ∈ after, f y ≤ f z) : least f (before ++ y :: after) = some y := by
  have hy : pick f (before.foldl (pick f) none) y = some y := by
    cases hx : before.foldl (pick f) none with
    | none => rfl
    | some x =>
      obtain ⟨pre, post, rfl, -⟩ := least_eq_some hx
      rw [pick, if_pos (hbefore x (List.mem_append_right _ List.mem_cons_self))]
  rw [least, List.foldl_append, List.foldl_cons, hy]
  exact foldl_pick_keep hafter

theorem least_eq_none : least f xs = none ↔ xs = [] := by
  cases xs with
  | nil => exact iff_of_true rfl rfl
  | cons x xs =>
    obtain ⟨y, hy, -⟩ := foldl_pick_some f xs x
    exact iff_of_false (fun h => by cases hy.symm.trans h) (List.cons_ne_nil x xs)

theorem least_map {β : Type} (f : β → Int) (g : α → β) (xs : List α) :
    least f (xs.map g) = (least (fun x => f (g x)) xs).map g := by
  suffices h : ∀ acc : Option α, (xs.map g).foldl (pick f) (acc.map g) =
      (xs.foldl (pick fun x => f (g x)) acc).map g from h none
  induction xs with
  | nil => exact fun _ => rfl
  | cons x xs ih =>
    intro acc
    rw [List.map_cons, List.foldl_cons, List.foldl_cons, ← ih]
    congr 1
    cases acc with
    | none => rfl
    | some best =>
      simp only [Option.map_some, pick]
      split_ifs <;> rfl

/-- The least element depends on comparisons only. -/
theorem least_congr {f g : α → Int} (h : ∀ x ∈ xs, ∀ y ∈ xs, f x < f y ↔ g x < g y) :
    least f xs = least g xs := by
  suffices hfold : ∀ acc : Option α, (∀ b ∈ acc, b ∈ xs) → ∀ ys ⊆ xs, ys.foldl (pick f) acc = ys.foldl (pick g) acc from
    hfold none (fun b hb => by cases hb) xs (List.Subset.refl xs)
  intro acc hacc ys hys
  induction ys generalizing acc with
  | nil => rfl
  | cons y ys ih =>
    have hy : y ∈ xs := hys List.mem_cons_self
    have hstep : pick f acc y = pick g acc y := by
      cases acc with
      | none => rfl
      | some best => simp only [pick, h y hy best (hacc best rfl)]
    rw [List.foldl_cons, List.foldl_cons, hstep]
    refine ih _ (fun b hb => ?_) fun z hz => hys (List.mem_cons_of_mem y hz)
    cases acc with
    | none =>
      cases hb
      exact hy
    | some best =>
      simp only [pick] at hb
      split_ifs at hb
      · cases hb
        exact hy
      · exact hacc b hb

/-- The least of the elements up to a bound. -/
theorem least_filter_eq_some {t : Int}
    (h : least f (xs.filter fun x => f x ≤ t) = some y) :
    f y ≤ t ∧ ∃ before after, xs = before ++ y :: after ∧ (∀ z ∈ before, f y < f z) ∧ ∀ z ∈ after, f y ≤ f z := by
  obtain ⟨before, after, hfilter, hbefore, hafter⟩ := least_eq_some h
  obtain ⟨pre, post, rfl, hpre, hpost⟩ := List.filter_eq_append_iff.1 hfilter
  obtain ⟨skip, rest, rfl, hskip, hy, hrest⟩ := List.filter_eq_cons_iff.1 hpost
  have hle : f y ≤ t := of_decide_eq_true hy
  refine ⟨hle, pre ++ skip, rest, by rw [List.append_assoc], fun z hz => ?_, fun z hz => ?_⟩
  · rcases List.mem_append.1 hz with hz' | hz'
    · by_cases hzt : f z ≤ t
      · exact hbefore z (by rw [← hpre]; exact List.mem_filter.2 ⟨hz', decide_eq_true hzt⟩)
      · exact hle.trans_lt (not_le.1 hzt)
    · exact hle.trans_lt (not_le.1 fun hzt => hskip z hz' (decide_eq_true hzt))
  · by_cases hzt : f z ≤ t
    · exact hafter z (by rw [← hrest]; exact List.mem_filter.2 ⟨hz, decide_eq_true hzt⟩)
    · exact hle.trans (not_le.1 hzt).le

/-- The least element up to a bound is the least up to a larger one. -/
theorem least_filter_mono {t t' : Int} (ht : t ≤ t')
    (h : least f (xs.filter fun x => f x ≤ t) = some y) : least f (xs.filter fun x => f x ≤ t') = some y := by
  obtain ⟨hle, before, after, rfl, hbefore, hafter⟩ := least_filter_eq_some h
  have hy : decide (f y ≤ t') = true := decide_eq_true (hle.trans ht)
  rw [List.filter_append, List.filter_cons, if_pos hy]
  exact least_of_split (fun z hz => hbefore z (List.mem_of_mem_filter hz)) fun z hz =>
    hafter z (List.mem_of_mem_filter hz)

/-! ## Alarms -/

/-- An alarm with the time at which it goes off; `number` counts the alarms in the order in which they were armed. -/
structure Alarm (κ : Type) where
  key : κ
  due : Int
  number : Nat

/-- The order in which alarms go off. -/
def Alarm.Before (x y : Alarm κ) : Prop := x.due < y.due ∨ x.due = y.due ∧ x.number < y.number

structure Agenda (κ : Type) where
  clock : Int
  /-- The alarms that were ever armed. -/
  armed : Nat
  pending : List (Alarm κ)
  fired : List (Alarm κ)

namespace Agenda

variable [DecidableEq κ]

def empty : Agenda κ := ⟨0, 0, [], []⟩

def cancel (k : κ) (ag : Agenda κ) : Agenda κ := { ag with pending := ag.pending.filter fun a => a.key ≠ k }

/-- An alarm with this key, after this delay; it takes the place of the one that is pending. -/
def arm (k : κ) (delay : Int) (ag : Agenda κ) : Agenda κ :=
  { ag.cancel k with
    armed := ag.armed + 1
    pending := (ag.cancel k).pending ++ [⟨k, ag.clock + delay, ag.armed⟩] }

/-- Time passes. -/
def pass (dt : Int) (ag : Agenda κ) : Agenda κ := { ag with clock := ag.clock + dt }

/-- The alarm goes off after this time. -/
def fire (k : κ) (dt : Int) (ag : Agenda κ) : Agenda κ :=
  { (ag.cancel k).pass dt with fired := ag.fired ++ ag.pending.filter fun a => a.key = k }

/-- The pending alarms with the time that they have still to wait. -/
def remaining (ag : Agenda κ) : List (κ × Int) := ag.pending.map fun a => (a.key, a.due - ag.clock)

structure Ordered (ag : Agenda κ) : Prop where
  keys : (ag.pending.map Alarm.key).Nodup
  /-- The pending alarms stand in the order of arming. -/
  arming : ag.pending.Pairwise fun x y => x.number < y.number
  numbers : ∀ x ∈ ag.pending, x.number < ag.armed
  ahead : ∀ x ∈ ag.pending, ag.clock ≤ x.due
  past : ∀ x ∈ ag.fired, x.due ≤ ag.clock ∧ x.number < ag.armed
  later : ∀ x ∈ ag.fired, ∀ y ∈ ag.pending, x.Before y
  /-- The alarms went off in their order. -/
  fired : ag.fired.Pairwise Alarm.Before

/-! ### What remains -/

theorem remaining_cancel (k : κ) (ag : Agenda κ) : (ag.cancel k).remaining = ag.remaining.filter fun e => e.1 ≠ k := by
  rw [remaining, remaining, List.filter_map]
  rfl

theorem remaining_arm (k : κ) (delay : Int) (ag : Agenda κ) :
    (ag.arm k delay).remaining = (ag.remaining.filter fun e => e.1 ≠ k) ++ [(k, delay)] := by
  rw [← remaining_cancel, remaining, arm, List.map_append, List.map_singleton]
  congr 3
  show ag.clock + delay - ag.clock = delay
  omega

omit [DecidableEq κ] in
theorem remaining_pass (dt : Int) (ag : Agenda κ) :
    (ag.pass dt).remaining = ag.remaining.map fun e => (e.1, e.2 - dt) := by
  rw [remaining, remaining, List.map_map]
  refine List.map_congr_left fun a _ => ?_
  exact congrArg (Prod.mk a.key) (Int.sub_sub ..).symm

theorem remaining_fire (k : κ) (dt : Int) (ag : Agenda κ) :
    (ag.fire k dt).remaining = (ag.remaining.filter fun e => e.1 ≠ k).map fun e => (e.1, e.2 - dt) := by
  rw [← remaining_cancel, ← remaining_pass]
  rfl

omit [DecidableEq κ] in
theorem pass_pass (dt dt' : Int) (ag : Agenda κ) : (ag.pass dt).pass dt' = ag.pass (dt + dt') :=
  congrArg (fun t => { ag with clock := t }) (Int.add_assoc ..)

/-- An alarm goes off at its time, whether or not some of it has passed before. -/
theorem fire_pass (k : κ) (dt dt' : Int) (ag : Agenda κ) : (ag.pass dt).fire k (dt' - dt) = ag.fire k dt' := by
  have hclock : ag.clock + dt + (dt' - dt) = ag.clock + dt' := by omega
  exact congrArg (fun t => { ag.fire k dt' with clock := t }) hclock

/-! ### The order -/

omit [DecidableEq κ] in
theorem Ordered.empty : (empty : Agenda κ).Ordered where
  keys := List.nodup_nil
  arming := List.Pairwise.nil
  numbers _ hx := absurd hx List.not_mem_nil
  ahead _ hx := absurd hx List.not_mem_nil
  past _ hx := absurd hx List.not_mem_nil
  later _ hx := absurd hx List.not_mem_nil
  fired := List.Pairwise.nil

variable {ag : Agenda κ}

theorem Ordered.cancel (h : ag.Ordered) (k : κ) : (ag.cancel k).Ordered where
  keys := h.keys.sublist (List.filter_sublist.map _)
  arming := h.arming.sublist List.filter_sublist
  numbers x hx := h.numbers x (List.mem_of_mem_filter hx)
  ahead x hx := h.ahead x (List.mem_of_mem_filter hx)
  past := h.past
  later x hx y hy := h.later x hx y (List.mem_of_mem_filter hy)
  fired := h.fired

theorem Ordered.arm (h : ag.Ordered) (k : κ) {delay : Int} (hdelay : 0 ≤ delay) : (ag.arm k delay).Ordered := by
  have hc := h.cancel k
  have hnew : ∀ x ∈ (ag.arm k delay).pending, x ∈ (ag.cancel k).pending ∨ x = ⟨k, ag.clock + delay, ag.armed⟩ :=
    fun x hx => (List.mem_append.1 hx).imp id List.mem_singleton.1
  constructor
  · show ((ag.cancel k).pending ++ [_]).map Alarm.key |>.Nodup
    rw [List.map_append, List.map_singleton]
    refine List.Nodup.append hc.keys (List.nodup_singleton k) ?_
    intro key hkey hk
    obtain ⟨a, ha, rfl⟩ := List.mem_map.1 hkey
    exact of_decide_eq_true (List.mem_filter.1 ha).2 (List.mem_singleton.1 hk)
  · refine List.pairwise_append.2 ⟨hc.arming, List.pairwise_singleton _ _, fun x hx y hy => ?_⟩
    rw [List.mem_singleton.1 hy]
    exact hc.numbers x hx
  · intro x hx
    rcases hnew x hx with hold | rfl
    · exact Nat.lt_succ_of_lt (hc.numbers x hold)
    · exact Nat.lt_succ_self _
  · intro x hx
    rcases hnew x hx with hold | rfl
    · exact hc.ahead x hold
    · exact Int.le_add_of_nonneg_right hdelay
  · intro x hx
    exact ⟨(h.past x hx).1, Nat.lt_succ_of_lt (h.past x hx).2⟩
  · intro x hx y hy
    rcases hnew y hy with hold | rfl
    · exact hc.later x hx y hold
    · obtain ⟨hdue, hnumber⟩ := h.past x hx
      rcases hdue.lt_or_eq with hlt | heq
      · exact .inl (hlt.trans_le (Int.le_add_of_nonneg_right hdelay))
      · rcases hdelay.lt_or_eq with hpos | hzero
        · exact .inl (by show x.due < ag.clock + delay; omega)
        · exact .inr ⟨by show x.due = ag.clock + delay; omega, hnumber⟩
  · exact h.fired

omit [DecidableEq κ] in
/-- Time passes up to the next alarm at most. -/
theorem Ordered.pass (h : ag.Ordered) {dt : Int} (hdt : 0 ≤ dt) (hnext : ∀ x ∈ ag.pending, ag.clock + dt ≤ x.due) :
    (ag.pass dt).Ordered where
  keys := h.keys
  arming := h.arming
  numbers := h.numbers
  ahead := hnext
  past x hx := ⟨(h.past x hx).1.trans (Int.le_add_of_nonneg_right hdt), (h.past x hx).2⟩
  later := h.later
  fired := h.fired

/-- **The alarm that goes off is the least of the pending ones.** -/
theorem Ordered.fire (h : ag.Ordered) {a : Alarm κ} {before after : List (Alarm κ)}
    (hp : ag.pending = before ++ a :: after)
    (hbefore : ∀ x ∈ before, a.due < x.due) (hafter : ∀ x ∈ after, a.due ≤ x.due) :
    (ag.fire a.key (a.due - ag.clock)).Ordered := by
  have hmem : a ∈ ag.pending := by
    rw [hp]
    exact List.mem_append_right _ List.mem_cons_self
  have hleast : ∀ x ∈ ag.pending, x.key ≠ a.key → a.due ≤ x.due ∧ a.Before x := by
    intro x hx hk
    have harming := h.arming
    rw [hp] at hx harming
    rcases List.mem_append.1 hx with hx' | hx'
    · exact ⟨(hbefore x hx').le, .inl (hbefore x hx')⟩
    · rcases List.mem_cons.1 hx' with rfl | hx''
      · exact absurd rfl hk
      · have hnumber := (List.pairwise_cons.1 (List.pairwise_append.1 harming).2.1).1 x hx''
        rcases (hafter x hx'').lt_or_eq with hlt | heq
        · exact ⟨hlt.le, .inl hlt⟩
        · exact ⟨heq.le, .inr ⟨heq, hnumber⟩⟩
  have hsingle : (ag.pending.filter fun x => x.key = a.key) = [a] := by
    have hkeys := h.keys
    rw [hp, List.map_append, List.map_cons] at hkeys
    obtain ⟨-, hright, hcross⟩ := List.nodup_append.1 hkeys
    rw [hp, List.filter_append, List.filter_cons_of_pos (by simp), List.filter_eq_nil_iff.2, List.filter_eq_nil_iff.2,
      List.nil_append]
    · intro x hx
      have hk := (List.nodup_cons.1 hright).1
      simp only [decide_eq_true_eq]
      exact fun heq => hk (heq ▸ List.mem_map_of_mem hx)
    · intro x hx
      simp only [decide_eq_true_eq]
      exact hcross x.key (List.mem_map_of_mem hx) a.key List.mem_cons_self
  have hclock : (ag.fire a.key (a.due - ag.clock)).clock = a.due := by
    show ag.clock + (a.due - ag.clock) = a.due
    omega
  have hfired : (ag.fire a.key (a.due - ag.clock)).fired = ag.fired ++ [a] := by
    rw [← hsingle]
    rfl
  have hpending : ∀ x ∈ (ag.fire a.key (a.due - ag.clock)).pending, x ∈ ag.pending ∧ x.key ≠ a.key := by
    intro x hx
    obtain ⟨hx', hk⟩ := List.mem_filter.1 hx
    exact ⟨hx', of_decide_eq_true hk⟩
  have hc := h.cancel a.key
  constructor
  · exact hc.keys
  · exact hc.arming
  · exact hc.numbers
  · intro x hx
    rw [hclock]
    exact (hleast x (hpending x hx).1 (hpending x hx).2).1
  · intro x hx
    rw [hclock]
    rw [hfired] at hx
    rcases List.mem_append.1 hx with hold | hx'
    · exact ⟨(h.past x hold).1.trans (h.ahead a hmem), (h.past x hold).2⟩
    · rw [List.mem_singleton.1 hx']
      exact ⟨le_rfl, h.numbers a hmem⟩
  · intro x hx y hy
    rw [hfired] at hx
    rcases List.mem_append.1 hx with hold | hx'
    · exact h.later x hold y (hpending y hy).1
    · rw [List.mem_singleton.1 hx']
      exact (hleast y (hpending y hy).1 (hpending y hy).2).2
  · rw [hfired]
    refine List.pairwise_append.2 ⟨h.fired, List.pairwise_singleton _ _, fun x hx y hy => ?_⟩
    rw [List.mem_singleton.1 hy]
    exact h.later x hx a hmem

end Agenda

end Wireform

/-
  The proleptic Gregorian calendar.

  * `date`: the calendar, from day to day;
  * `dayNumber`: the days since the first of March of the year 0;
  * `dayNumber_date`: the calendar counts these days;
  * `yearOf_cycle`, `yearOf_next`: the year of a day of a cycle of 400 years, and of a day of the cycle after it.
-/
import Mathlib.Data.Int.SuccPred
import Mathlib.Tactic.IntervalCases
import Mathlib.Tactic.Ring

namespace Wireform

structure Date where
  year : Int
  month : Int
  day : Int

namespace Date

def monthLength (y m : Int) : Int :=
  if m = 2 then if 4 ∣ y ∧ (¬100 ∣ y ∨ 400 ∣ y) then 29 else 28
  else if m = 4 ∨ m = 6 ∨ m = 9 ∨ m = 11 then 30
  else 31

structure Valid (d : Date) : Prop where
  month : 1 ≤ d.month ∧ d.month ≤ 12
  day : 1 ≤ d.day ∧ d.day ≤ monthLength d.year d.month

def tomorrow (d : Date) : Date :=
  if d.day < monthLength d.year d.month then ⟨d.year, d.month, d.day + 1⟩
  else if d.month < 12 then ⟨d.year, d.month + 1, 1⟩
  else ⟨d.year + 1, 1, 1⟩

def yesterday (d : Date) : Date :=
  if 1 < d.day then ⟨d.year, d.month, d.day - 1⟩
  else if 1 < d.month then ⟨d.year, d.month - 1, monthLength d.year (d.month - 1)⟩
  else ⟨d.year - 1, 12, 31⟩

def epoch : Date := ⟨1970, 1, 1⟩

end Date

open Date

/-- The date of a day, counted from the first of January 1970. -/
def date : Int → Date
  | .ofNat n => tomorrow^[n] epoch
  | .negSucc n => yesterday^[n + 1] epoch

namespace Date

theorem monthLength_bounds (y m : Int) : 28 ≤ monthLength y m ∧ monthLength y m ≤ 31 := by
  unfold monthLength
  split_ifs <;> omega

variable {d : Date}

theorem Valid.tomorrow (h : d.Valid) : d.tomorrow.Valid := by
  obtain ⟨hm, hd⟩ := h
  unfold Date.tomorrow
  split_ifs
  · exact ⟨hm, by grind⟩
  · exact ⟨by grind, by have := monthLength_bounds d.year (d.month + 1); grind⟩
  · exact ⟨by grind, by have := monthLength_bounds (d.year + 1) 1; grind⟩

theorem Valid.yesterday (h : d.Valid) : d.yesterday.Valid := by
  obtain ⟨hm, hd⟩ := h
  unfold Date.yesterday
  split_ifs
  · exact ⟨hm, by grind⟩
  · exact ⟨by grind, by have := monthLength_bounds d.year (d.month - 1); grind⟩
  · exact ⟨by grind, by grind [monthLength]⟩

theorem tomorrow_yesterday (h : d.Valid) : d.yesterday.tomorrow = d := by
  obtain ⟨y, m, dd⟩ := d
  obtain ⟨hm, hd⟩ := h
  unfold Date.yesterday Date.tomorrow
  grind [monthLength]

theorem valid_date (n : Int) : (date n).Valid := by
  have hepoch : epoch.Valid := ⟨by decide, by decide⟩
  cases n with
  | ofNat n => exact Function.Iterate.rec Valid hepoch (fun _ => Valid.tomorrow) n
  | negSucc n => exact Function.Iterate.rec Valid hepoch (fun _ => Valid.yesterday) (n + 1)

theorem date_next (n : Int) : date (n + 1) = (date n).tomorrow := by
  cases n with
  | ofNat n => exact Function.iterate_succ_apply' tomorrow n epoch
  | negSucc n =>
    cases n with
    | zero => rfl
    | succ n =>
      have hsucc : Int.negSucc (n + 1) + 1 = .negSucc n := by omega
      have hlast : date (.negSucc (n + 1)) = (date (.negSucc n)).yesterday :=
        Function.iterate_succ_apply' yesterday (n + 1) epoch
      rw [hsucc, hlast, tomorrow_yesterday (valid_date _)]

/-! ## Years from March to February -/

/-- The year, with January and February in the year before. -/
def marchYear (d : Date) : Int := if d.month ≤ 2 then d.year - 1 else d.year

/-- The months since March. -/
def marchMonth (d : Date) : Int := if d.month ≤ 2 then d.month + 9 else d.month - 3

/-- The days since the first of March. -/
def marchDay (d : Date) : Int := (153 * d.marchMonth + 2) / 5 + d.day - 1

def dayNumber (d : Date) : Int :=
  365 * d.marchYear + d.marchYear / 4 - d.marchYear / 100 + d.marchYear / 400 + d.marchDay

theorem dayNumber_tomorrow (h : d.Valid) : d.tomorrow.dayNumber = d.dayNumber + 1 := by
  obtain ⟨y, m, dd⟩ := d
  obtain ⟨⟨hm1, hm2⟩, hd1, hd2⟩ := h
  unfold tomorrow dayNumber marchDay marchYear marchMonth
  unfold monthLength at hd2 ⊢
  dsimp only at *
  interval_cases m <;> grind

/-- **The calendar counts the days.** -/
theorem dayNumber_date (n : Int) : (date n).dayNumber = n + 719468 := by
  induction n using Int.induction_on with
  | zero => decide
  | succ n ih => rw [date_next, dayNumber_tomorrow (valid_date n), ih]; ring
  | pred n ih =>
    have hnext := dayNumber_tomorrow (valid_date (-n - 1))
    rw [← date_next, Int.sub_add_cancel, ih] at hnext
    omega

/-! ## Cycles of 400 years -/

def leapDay (y : Int) : Int := if 4 ∣ y ∧ (¬100 ∣ y ∨ 400 ∣ y) then 1 else 0

/-- The days of a cycle before a year. -/
def yearStart (y : Int) : Int := 365 * y + y / 4 - y / 100

/-- The days of a cycle without its leap days. -/
def yearDays (doe : Int) : Int := doe - doe / 1460 + doe / 36524 - doe / 146096

theorem yearDays_mono {a b : Int} (h : a ≤ b) : yearDays a ≤ yearDays b := by
  have hsucc : Monotone yearDays := monotone_int_of_le_succ fun t => by
    unfold yearDays
    omega
  exact hsucc h

set_option maxRecDepth 4000 in
theorem yearDays_cycle : ∀ y : Fin 400, 365 * (y : Int) ≤ yearDays (yearStart y) ∧
    yearDays (yearStart y + 364 + leapDay (y + 1)) < 365 * ((y : Int) + 1) ∧
    365 * ((y : Int) + 400) ≤ yearDays (yearStart y + 146097) ∧
    yearDays (min (yearStart y + 364 + leapDay (y + 1)) 146095 + 146097) < 365 * ((y : Int) + 401) := by decide

variable {y doy : Int}

theorem yearOf_cycle (hy : 0 ≤ y ∧ y < 400) (hd : 0 ≤ doy ∧ doy ≤ 364 + leapDay (y + 1)) :
    yearDays (yearStart y + doy) / 365 = y := by
  obtain ⟨n, rfl⟩ := Int.eq_ofNat_of_zero_le hy.1
  obtain ⟨h1, h2, -, -⟩ := yearDays_cycle ⟨n, by omega⟩
  have h3 := yearDays_mono (by omega : yearStart n ≤ yearStart n + doy)
  have h4 := yearDays_mono (by omega : yearStart n + doy ≤ yearStart n + 364 + leapDay (n + 1))
  dsimp only at h1 h2
  omega

/-- The same for the days of the next cycle, but for its last one. -/
theorem yearOf_next (hy : 0 ≤ y ∧ y < 400) (hd : 0 ≤ doy ∧ doy ≤ 364 + leapDay (y + 1))
    (hlast : yearStart y + doy ≤ 146095) : yearDays (yearStart y + doy + 146097) / 365 = y + 400 := by
  obtain ⟨n, rfl⟩ := Int.eq_ofNat_of_zero_le hy.1
  obtain ⟨-, -, h1, h2⟩ := yearDays_cycle ⟨n, by omega⟩
  have h3 := yearDays_mono (by omega : yearStart n + 146097 ≤ yearStart n + doy + 146097)
  have h4 := yearDays_mono (by omega : yearStart n + doy + 146097 ≤
    min (yearStart n + 364 + leapDay (n + 1)) 146095 + 146097)
  dsimp only at h1 h2
  omega

/-! ## The parts of a day number -/

theorem marchMonth_bounds (h : d.Valid) : 0 ≤ d.marchMonth ∧ d.marchMonth ≤ 11 := by
  have := h.month
  unfold marchMonth
  omega

theorem marchDay_bounds (h : d.Valid) : 0 ≤ d.marchDay ∧ d.marchDay ≤ 364 + leapDay (d.marchYear + 1) := by
  obtain ⟨y, m, dd⟩ := d
  obtain ⟨⟨hm1, hm2⟩, hd1, hd2⟩ := h
  unfold marchDay marchYear marchMonth leapDay
  unfold monthLength at hd2
  dsimp only at *
  interval_cases m <;> grind

theorem marchDay_le (h : d.Valid) : d.marchDay ≤ 365 := by
  have hd := marchDay_bounds h
  unfold leapDay at hd
  split_ifs at hd <;> omega

/-- The month of a day since March. -/
theorem marchMonth_eq (h : d.Valid) : (5 * d.marchDay + 2) / 153 = d.marchMonth := by
  obtain ⟨y, m, dd⟩ := d
  obtain ⟨⟨hm1, hm2⟩, hd1, hd2⟩ := h
  unfold marchDay marchMonth
  unfold monthLength at hd2
  dsimp only at *
  interval_cases m <;> grind

/-- One day later it is the next month exactly after the last day of a month other than February. -/
theorem marchMonth_next (h : d.Valid) : (5 * (d.marchDay + 1) + 2) / 153 =
    if d.month = 2 ∨ d.day < monthLength d.year d.month then d.marchMonth else d.marchMonth + 1 := by
  obtain ⟨y, m, dd⟩ := d
  obtain ⟨⟨hm1, hm2⟩, hd1, hd2⟩ := h
  unfold marchDay marchMonth
  unfold monthLength at *
  dsimp only at *
  interval_cases m <;> grind

/-- The cycle of a day, and its day in the cycle. -/
theorem dayNumber_cycle (d : Date) :
    d.dayNumber = d.marchYear / 400 * 146097 + (yearStart (d.marchYear % 400) + d.marchDay) := by
  unfold dayNumber yearStart
  omega

theorem leapDay_mod (y : Int) : leapDay (y % 400 + 1) = leapDay (y + 1) := by
  have h4 : 4 ∣ y % 400 + 1 ↔ 4 ∣ y + 1 := by omega
  have h100 : 100 ∣ y % 400 + 1 ↔ 100 ∣ y + 1 := by omega
  have h400 : 400 ∣ y % 400 + 1 ↔ 400 ∣ y + 1 := by omega
  simp only [leapDay, h4, h100, h400]

theorem cycle_bounds (h : d.Valid) : 0 ≤ yearStart (d.marchYear % 400) + d.marchDay ∧
    yearStart (d.marchYear % 400) + d.marchDay ≤ 146096 := by
  obtain ⟨h1, h2⟩ := marchDay_bounds h
  rw [← leapDay_mod] at h2
  unfold yearStart leapDay at *
  split_ifs at h2 <;> omega

/-! ## Months -/

/-- The months since January 1970. -/
def months (d : Date) : Int := 12 * (d.year - 1970) + (d.month - 1)

theorem months_eq (h : d.Valid) : d.months = 12 * (d.marchYear - 1970) + d.marchMonth + 2 := by
  have := h.month
  unfold months marchYear marchMonth
  omega

theorem months_tomorrow (h : d.Valid) :
    d.tomorrow.months = d.months + if d.day < monthLength d.year d.month then 0 else 1 := by
  have := h.month
  unfold months tomorrow
  split_ifs <;> dsimp only <;> omega

end Date

end Wireform

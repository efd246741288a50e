/-
  Partition transforms of Iceberg (`Iceberg.Transform`).

  * `applyTransform`: a transform of a source value of a type; `none` is a value that raises an exception;
  * `dateToMonths_eq`, `dateToYears_eq`: the month and the year, against the calendar;
  * `truncateInt32_eq`: truncation by a width that is narrowed to 32 bits;
  * `transforms_exact_iff`: the values that a transform maps exactly, and the transforms that are monotone.
-/
import Mathlib.Order.Bounds.Basic
import Wireform.Avro.Schema
import Wireform.Calendar
import Wireform.Iceberg.Metadata
import Wireform.Iceberg.SingleValue

namespace Wireform.Iceberg

open Avro

inductive Transform where
  | identity
  | bucket (n : Int64)
  | truncate (w : Int64)
  | year | month | day | hour | void
  | unknownTransform (name : String)

inductive TransformError where
  | unsupported (name : String) (t : IcebergType)
  | unknownTransform (name : String)
  | nullValue

/-! ## Time conversions -/

/-- All numbers in between have 64 bits. -/
def daysToYMD (daysSinceEpoch : Int) : Date :=
  let z := daysSinceEpoch + 719468
  let era := (if 0 ≤ z then z else z - 146096) / 146097
  let doe := z - era * 146097
  let yoe := (doe - doe / 1460 + doe / 36524 - doe / 146096) / 365
  let y := yoe + era * 400
  let doy := doe - (365 * yoe + yoe / 4 - yoe / 100)
  let mp := (5 * doy + 2) / 153
  let d := doy - (153 * mp + 2) / 5 + 1
  let m := if mp < 10 then mp + 3 else mp - 9
  let yReal := if m ≤ 2 then y + 1 else y
  ⟨toInt32 yReal, toInt32 m, toInt32 d⟩

def divFloor (a b : Int) : Int :=
  let q := a.tdiv b
  let r := a - q * b
  if r ≠ 0 ∧ (r < 0 ↔ ¬b < 0) then q - 1 else q

def dateToYears (days : Int) : Int := toInt32 ((daysToYMD days).year - 1970)

def dateToMonths (days : Int) : Int :=
  toInt32 (12 * ((daysToYMD days).year - 1970) + ((daysToYMD days).month - 1))

def microsToDays (us : Int) : Int := toInt32 (divFloor us 86400000000)

def microsToYears (us : Int) : Int := dateToYears (microsToDays us)

def microsToMonths (us : Int) : Int := dateToMonths (microsToDays us)

def microsToHours (us : Int) : Int := toInt32 (divFloor us 3600000000)

def nanosToYears (ns : Int) : Int := microsToYears (divFloor ns 1000)

def nanosToMonths (ns : Int) : Int := microsToMonths (divFloor ns 1000)

def nanosToDays (ns : Int) : Int := microsToDays (divFloor ns 1000)

def nanosToHours (ns : Int) : Int := microsToHours (divFloor ns 1000)

/-! ## Truncation and buckets -/

def toInt64 (n : Int) : Int := (2 ^ 63 + n) % 2 ^ 64 - 2 ^ 63

/-- Dividing by zero raises an exception; `narrow` is the range of the numbers. -/
def truncateWith (narrow : Int → Int) (b x : Int) : Option Int :=
  if b = 0 then none
  else
    let r := x.fmod b
    some (narrow (x - if r < 0 then narrow (r + b) else r))

def truncateInt32 (w x : Int) : Option Int := truncateWith toInt32 (toInt32 w) x

def truncateInt64 (w x : Int) : Option Int := truncateWith toInt64 w x

section
variable (murmur3 : List UInt8 → UInt32)

/-- The low bytes first. -/
def longBytes (v : Int64) : List UInt8 := (List.range 8).map fun i => (v.toUInt64 >>> (8 * i.toUInt64)).toUInt8

def bucketLong (n : Int64) (v : Int64) : Int :=
  if n ≤ 0 then 0
  else
    let buckets := toInt32 n.toInt
    if buckets ≤ 0 then 0 else (murmur3 (longBytes v) &&& 0x7fffffff).toNat % buckets

def bucketBytes (n : Int64) (bs : List UInt8) : Int :=
  if n ≤ 0 then 0 else (murmur3 bs &&& 0x7fffffff).toNat % n.toInt

/-! ## Application -/

def avSummary : Value → IcebergType
  | .bool _ => .boolean
  | .int _ => .int
  | .long _ => .long
  | .float _ => .float
  | .double _ => .double
  | .string _ => .string
  | .bytes _ | .fixed _ => .binary
  | _ => .other

abbrev Result := Except TransformError (Option Value)

def withInt (v : Value) (f : Int → Option Value) : Result :=
  match v with
  | .int n => .ok (f n.toInt)
  | .null => .error .nullValue
  | v => .error (.unsupported "int" (avSummary v))

def withLong (v : Value) (f : Int → Option Value) : Result :=
  match v with
  | .long n => .ok (f n.toInt)
  | .null => .error .nullValue
  | v => .error (.unsupported "long" (avSummary v))

def withText (v : Value) (f : String → Option Value) : Result :=
  match v with
  | .string t => .ok (f t)
  | .null => .error .nullValue
  | v => .error (.unsupported "text" (avSummary v))

def withBytes (v : Value) (f : List UInt8 → Option Value) : Result :=
  match v with
  | .bytes b | .fixed b => .ok (f b)
  | .null => .error .nullValue
  | v => .error (.unsupported "bytes" (avSummary v))

def avInt (n : Int) : Option Value := some (.int (.ofInt n))

def applyTransform : Transform → IcebergType → Value → Result
  | .identity, _, v => .ok (some v)
  | .void, _, _ => .ok (some .null)
  | .unknownTransform n, _, _ => .error (.unknownTransform n)
  | .bucket n, src, v =>
    match src with
    | .int | .date => withInt v fun x => avInt (bucketLong murmur3 n (.ofInt x))
    | .long | .timestamp | .timestampTz | .timestampNs | .timestampTzNs =>
      withLong v fun x => avInt (bucketLong murmur3 n (.ofInt x))
    | .string => withText v fun t => avInt (bucketBytes murmur3 n t.toUTF8.toList)
    | .binary | .fixed _ | .uuid | .decimal _ _ => withBytes v fun bs => avInt (bucketBytes murmur3 n bs)
    | t => .error (.unsupported "bucket" t)
  | .truncate w, src, v =>
    match src with
    | .int => withInt v fun x => (truncateInt32 w.toInt x).map fun r => .int (.ofInt r)
    | .long => withLong v fun x => (truncateInt64 w.toInt x).map fun r => .long (.ofInt r)
    | .string => withText v fun t => some (.string (.ofList (t.toList.take w.toInt.toNat)))
    | .binary | .fixed _ => withBytes v fun bs => some (.bytes (bs.take w.toInt.toNat))
    | t => .error (.unsupported "truncate" t)
  | .year, src, v =>
    match src with
    | .date => withInt v fun d => avInt (dateToYears d)
    | .timestamp | .timestampTz => withLong v fun t => avInt (microsToYears t)
    | .timestampNs | .timestampTzNs => withLong v fun t => avInt (nanosToYears t)
    | t => .error (.unsupported "year" t)
  | .month, src, v =>
    match src with
    | .date => withInt v fun d => avInt (dateToMonths d)
    | .timestamp | .timestampTz => withLong v fun t => avInt (microsToMonths t)
    | .timestampNs | .timestampTzNs => withLong v fun t => avInt (nanosToMonths t)
    | t => .error (.unsupported "month" t)
  | .day, src, v =>
    match src with
    | .date => .ok (some v)
    | .timestamp | .timestampTz => withLong v fun t => avInt (microsToDays t)
    | .timestampNs | .timestampTzNs => withLong v fun t => avInt (nanosToDays t)
    | t => .error (.unsupported "day" t)
  | .hour, src, v =>
    match src with
    | .timestamp | .timestampTz => withLong v fun t => avInt (microsToHours t)
    | .timestampNs | .timestampTzNs => withLong v fun t => avInt (nanosToHours t)
    | t => .error (.unsupported "hour" t)

end

/-! ## The claims of a transform -/

section
variable (murmur3 : List UInt8 → UInt32)

/-- The number of a source value of a type. -/
def source : IcebergType → Value → Option Int
  | .int, .int n | .date, .int n => some n.toInt
  | .long, .long n | .timestamp, .long n | .timestampTz, .long n | .timestampNs, .long n | .timestampTzNs, .long n =>
    some n.toInt
  | _, _ => none

def transformed (tr : Transform) (t : IcebergType) (v : Value) : Option Int :=
  match applyTransform murmur3 tr t v with
  | .ok (some (.int n)) => some n.toInt
  | .ok (some (.long n)) => some n.toInt
  | _ => none

def perDay : IcebergType → Int
  | .timestamp | .timestampTz => 86400000000
  | .timestampNs | .timestampTzNs => 86400000000000
  | _ => 1

def Transform.Applies : Transform → IcebergType → Prop
  | .year, t | .month, t | .day, t =>
    t = .date ∨ t = .timestamp ∨ t = .timestampTz ∨ t = .timestampNs ∨ t = .timestampTzNs
  | .hour, t => t = .timestamp ∨ t = .timestampTz ∨ t = .timestampNs ∨ t = .timestampTzNs
  | .truncate w, t => 0 < w.toInt ∧ (t = .int ∨ t = .long)
  | _, _ => False

def lowest (t : IcebergType) : Int := if t = .int ∨ t = .date then -2 ^ 31 else -2 ^ 63

/-- What a transform is to do with a number. -/
def Exact (t : IcebergType) (x : Int) (r : Option Int) : Transform → Prop
  | .year => r = some ((date (x / perDay t)).year - 1970)
  | .month => r = some (date (x / perDay t)).months
  | .day => r = some (x / perDay t)
  | .hour => r = some (x / (perDay t / 24))
  | .truncate w => ∀ m, IsGreatest {m | w.toInt ∣ m ∧ m ≤ x} m → lowest t ≤ m → r = some m
  | _ => True

/-- When it does. -/
def Fits (t : IcebergType) (x : Int) : Transform → Prop
  | .year => -719468 ≤ x / perDay t ∨ (date (x / perDay t)).month ≠ 12 ∨ (date (x / perDay t)).day ≠ 31
  | .month =>
    -719468 ≤ x / perDay t ∨ (date (x / perDay t)).month = 2 ∨
      (date (x / perDay t)).day < Date.monthLength (date (x / perDay t)).year (date (x / perDay t)).month
  | .hour => -2 ^ 31 ≤ x / (perDay t / 24) ∧ x / (perDay t / 24) < 2 ^ 31
  | .truncate w =>
    t = .int → w.toInt ≤ 2 ^ 31 ∨ x < 0 ∨ (x = 0 ∧ w.toInt % 2 ^ 32 ≠ 0) ∨
      (w.toInt % 2 ^ 32 ≤ 2 ^ 31 ∧ x < w.toInt % 2 ^ 32)
  | _ => True

/-- When it keeps the order of all numbers of a type. -/
def Ordered (t : IcebergType) : Transform → Prop
  | .hour => t = .timestampNs ∨ t = .timestampTzNs
  | .truncate w =>
    if t = .int then w.toInt % 2 ^ 32 ∣ 2 ^ 31 ∨ w.toInt % 2 ^ 32 = 2 ^ 32 - 1 else w.toInt ∣ 2 ^ 63
  | _ => True

def OrderedOn (tr : Transform) (t : IcebergType) : Prop :=
  ∀ v v' x x', source t v = some x → source t v' = some x' → x ≤ x' →
    ∃ r r', transformed murmur3 tr t v = some r ∧ transformed murmur3 tr t v' = some r' ∧ r ≤ r'

end

/-! ## Narrowing -/

theorem toInt32_of {n : Int} (h : -2 ^ 31 ≤ n ∧ n < 2 ^ 31) : toInt32 n = n := by
  unfold toInt32
  omega

theorem toInt32_bounds (n : Int) : -2 ^ 31 ≤ toInt32 n ∧ toInt32 n < 2 ^ 31 := by
  unfold toInt32
  omega

theorem divFloor_eq {b : Int} (a : Int) (hb : 0 < b) : divFloor a b = a / b := by
  have hrem : a - a.tdiv b * b = a.tmod b := by rw [Int.tdiv_mul_self]; omega
  have hdiv := Int.tmod_add_mul_tdiv a b
  have hlt := Int.tmod_lt_of_pos a hb
  have hgt := Int.lt_tmod_of_pos a hb
  unfold divFloor
  simp only [hrem]
  split_ifs with h
  · have hneg : a.tmod b < 0 := h.2.2 (by omega)
    exact ((Int.ediv_emod_unique hb).2 ⟨by rw [mul_sub]; omega, by omega, by omega⟩ : _ ∧ a % b = a.tmod b + b).1.symm
  · have hnonneg : 0 ≤ a.tmod b := by
      by_contra hneg
      exact h ⟨by omega, iff_of_true (by omega) (by omega)⟩
    exact ((Int.ediv_emod_unique hb).2 ⟨hdiv, hnonneg, hlt⟩).1.symm

/-! ## Years and months -/

/-- One on the last day of a month other than February, before the first of March of the year 0. -/
def late (n : Int) : Int :=
  if n < -719468 ∧ (date n).month ≠ 2 ∧ ¬(date n).day < Date.monthLength (date n).year (date n).month then 1 else 0

open Date

/-- Where the era is `s` too low. -/
theorem daysToYMD_of_era {n s : Int} (hs : s = 0 ∨ s = 1)
    (hera : (if 0 ≤ n + 719468 then n + 719468 else n + 719468 - 146096) / 146097 = (date n).marchYear / 400 - s)
    (hlast : s = 1 → yearStart ((date n).marchYear % 400) + (date n).marchDay ≤ 146095) {mp : Int}
    (hmp : (5 * ((date n).marchDay + s) + 2) / 153 = mp) :
    (daysToYMD n).year = toInt32 (if mp < 10 then (date n).marchYear else (date n).marchYear + 1) ∧
      (daysToYMD n).month = toInt32 (if mp < 10 then mp + 3 else mp - 9) := by
  have hz := dayNumber_date n
  have hd := marchDay_bounds (valid_date n)
  have hle := marchDay_le (valid_date n)
  have hy : 0 ≤ (date n).marchYear % 400 ∧ (date n).marchYear % 400 < 400 := by omega
  rw [dayNumber_cycle] at hz
  have hdoe : n + 719468 - ((date n).marchYear / 400 - s) * 146097 =
      yearStart ((date n).marchYear % 400) + (date n).marchDay + s * 146097 := by omega
  have hyoe : yearDays (yearStart ((date n).marchYear % 400) + (date n).marchDay + s * 146097) / 365 =
      (date n).marchYear % 400 + s * 400 := by
    rw [← leapDay_mod] at hd
    rcases hs with rfl | rfl
    · rw [zero_mul, zero_mul, add_zero, add_zero, yearOf_cycle hy hd]
    · rw [one_mul, one_mul, yearOf_next hy hd (hlast rfl)]
  have hyear : (date n).marchYear % 400 + s * 400 + ((date n).marchYear / 400 - s) * 400 = (date n).marchYear := by
    omega
  have hdoy : yearStart ((date n).marchYear % 400) + (date n).marchDay + s * 146097 -
      (365 * ((date n).marchYear % 400 + s * 400) + ((date n).marchYear % 400 + s * 400) / 4 -
        ((date n).marchYear % 400 + s * 400) / 100) = (date n).marchDay + s := by
    unfold yearStart
    omega
  have hmonth : (if (if mp < 10 then mp + 3 else mp - 9) ≤ 2 then (date n).marchYear + 1 else (date n).marchYear) =
      if mp < 10 then (date n).marchYear else (date n).marchYear + 1 := by
    have h0 : 0 ≤ mp := by omega
    have h11 : mp ≤ 11 := by omega
    clear * - h0 h11
    split_ifs <;> omega
  unfold yearDays at hyoe
  unfold daysToYMD
  simp only [hera, hdoe, hyoe, hdoy, hmp, hyear, hmonth, and_self]

/-- The month of the source, counted from March, is one too late on the late days. -/
theorem daysToYMD_eq (n : Int) :
    (daysToYMD n).year =
      toInt32 (if (date n).marchMonth + late n < 10 then (date n).marchYear else (date n).marchYear + 1) ∧
    (daysToYMD n).month = toInt32 (if (date n).marchMonth + late n < 10 then (date n).marchMonth + late n + 3
      else (date n).marchMonth + late n - 9) := by
  have hz := dayNumber_date n
  have hc := cycle_bounds (valid_date n)
  have hmonth := marchMonth_eq (valid_date n)
  have hnext := marchMonth_next (valid_date n)
  rw [dayNumber_cycle] at hz
  by_cases hneg : n < -719468 ∧ yearStart ((date n).marchYear % 400) + (date n).marchDay ≤ 146095
  · refine daysToYMD_of_era (.inr rfl) (by rw [if_neg (by omega)]; omega) (fun _ => hneg.2) ?_
    rw [hnext]
    unfold late
    clear * - hneg
    split_ifs <;> omega
  · refine daysToYMD_of_era (.inl rfl) (by split_ifs <;> omega) (fun h => by omega) ?_
    rw [add_zero, hmonth]
    have hfeb : ¬n < -719468 ∨ (date n).month = 2 := by
      -- the last day of a cycle is the 29th of February
      refine or_iff_not_imp_left.2 fun hlow => ?_
      have hd := marchDay_le (valid_date n)
      have hlast : yearStart ((date n).marchYear % 400) + (date n).marchDay = 146096 := by omega
      have h11 : (date n).marchMonth = 11 := by
        unfold yearStart at hlast
        omega
      have hv := (valid_date n).month
      unfold marchMonth at h11
      split_ifs at h11 <;> omega
    unfold late
    rw [if_neg (by tauto), add_zero]

theorem late_bounds (n : Int) : 0 ≤ late n ∧ late n ≤ 1 := by
  unfold late
  split_ifs <;> omega

theorem marchMonth_late (n : Int) : (date n).marchMonth + late n ≤ 11 := by
  have hv := (valid_date n).month
  unfold late marchMonth
  split_ifs <;> omega

theorem marchYear_bounds {n : Int} (hn : -2 ^ 31 ≤ n ∧ n < 2 ^ 31) :
    -10000000 ≤ (date n).marchYear ∧ (date n).marchYear ≤ 10000000 := by
  have hz := dayNumber_date n
  have hd := marchDay_bounds (valid_date n)
  have hle := marchDay_le (valid_date n)
  unfold dayNumber at hz
  omega

/-- **The month of the source is that of the calendar, but for the late days.** -/
theorem dateToMonths_eq {n : Int} (hn : -2 ^ 31 ≤ n ∧ n < 2 ^ 31) : dateToMonths n = (date n).months + late n := by
  obtain ⟨hyear, hmonth⟩ := daysToYMD_eq n
  have hy := marchYear_bounds hn
  have hm := marchMonth_bounds (valid_date n)
  have hl := late_bounds n
  have hle := marchMonth_late n
  rw [dateToMonths, hyear, hmonth, months_eq (valid_date n)]
  rw [toInt32_of (n := ite ..) (by split_ifs <;> omega), toInt32_of (n := ite ..) (by split_ifs <;> omega), toInt32_of]
  all_goals split_ifs <;> omega

theorem dateToYears_eq {n : Int} (hn : -2 ^ 31 ≤ n ∧ n < 2 ^ 31) : dateToYears n = dateToMonths n / 12 := by
  obtain ⟨hyear, -⟩ := daysToYMD_eq n
  have hy := marchYear_bounds hn
  have hm := marchMonth_bounds (valid_date n)
  have hl := late_bounds n
  have hle := marchMonth_late n
  rw [dateToMonths_eq hn, months_eq (valid_date n), dateToYears, hyear]
  rw [toInt32_of (n := ite ..) (by split_ifs <;> omega), toInt32_of]
  all_goals split_ifs <;> omega

theorem months_late_mono {a b : Int} (h : a ≤ b) : (date a).months + late a ≤ (date b).months + late b := by
  refine monotone_int_of_le_succ (f := fun n => (date n).months + late n) (fun n => ?_) h
  have hl := late_bounds (n + 1)
  have hnext := months_tomorrow (valid_date n)
  rw [← date_next] at hnext
  have hlate : late n ≤ if (date n).day < monthLength (date n).year (date n).month then 0 else 1 := by
    unfold late
    grind
  omega

/-! ## Truncation -/

/-- The number of a range around zero that is the same modulo its size. -/
def wrapInto (half n : Int) : Int := (half + n) % (2 * half) - half

section
variable {half b x : Int}

theorem wrapInto_of (h : -half ≤ x ∧ x < half) : wrapInto half x = x := by
  rw [wrapInto, Int.emod_eq_of_lt] <;> omega

theorem wrapInto_of_low (h : -(3 * half) ≤ x ∧ x < -half) : wrapInto half x = x + 2 * half := by
  rw [wrapInto, ← Int.add_emod_right, Int.emod_eq_of_lt] <;> omega

theorem truncateWith_pos (narrow : Int → Int) (hb : 0 < b) (x : Int) :
    truncateWith narrow b x = some (narrow (x - x % b)) := by
  have hnonneg := Int.emod_nonneg x (by omega : b ≠ 0)
  have hmod := Int.fmod_eq_emod_of_nonneg x hb.le
  unfold truncateWith
  simp only [hmod, if_neg (by omega : ¬b = 0), if_neg (by omega : ¬x % b < 0)]

theorem isGreatest_multiple (hb : 0 < b) (x : Int) : IsGreatest {m | b ∣ m ∧ m ≤ x} (x - x % b) := by
  have hnonneg := Int.emod_nonneg x (by omega : b ≠ 0)
  refine ⟨⟨Int.dvd_self_sub_emod, by omega⟩, fun m ⟨hm, hle⟩ => ?_⟩
  calc m = m - m % b := by rw [Int.emod_eq_zero_of_dvd hm, sub_zero]
    _ = b * (m / b) := by have := Int.mul_ediv_add_emod m b; omega
    _ ≤ b * (x / b) := Int.mul_le_mul_of_nonneg_left (Int.ediv_le_ediv hb hle) hb.le
    _ = x - x % b := by have := Int.mul_ediv_add_emod x b; omega

theorem multiple_le {x' : Int} (hb : 0 < b) (h : x ≤ x') : x - x % b ≤ x' - x' % b :=
  (isGreatest_multiple hb x').2 ⟨Int.dvd_self_sub_emod, (isGreatest_multiple hb x).1.2.trans h⟩

/-- **Truncation keeps the order exactly where the lowest number is a multiple.** -/
theorem wrapInto_multiple_mono (hb : 0 < b) (hle : b ≤ half) :
    (∀ x x', -half ≤ x → x' < half → x ≤ x' → wrapInto half (x - x % b) ≤ wrapInto half (x' - x' % b)) ↔ b ∣ half := by
  constructor
  · intro h
    by_contra hdvd
    have hpos : 0 < (-half) % b := Int.emod_pos_of_not_dvd (by rwa [Int.dvd_neg]) |>.resolve_left (by omega)
    have hlt := Int.emod_lt_of_pos (-half) hb
    have hne : b ≠ half := fun h => hdvd (h ▸ Int.dvd_refl b)
    have hlow := h (-half) (-1) le_rfl (by omega) (by omega)
    have hone : -1 % b = b - 1 := by
      rw [← Int.add_emod_right, Int.emod_eq_of_lt] <;> omega
    rw [hone, wrapInto_of_low (by omega), wrapInto_of (by omega)] at hlow
    omega
  · intro hdvd x x' hx hx' hxx
    have hlow : ∀ y, -half ≤ y → -half ≤ y - y % b := fun y hy =>
      (isGreatest_multiple hb y).2 ⟨(Int.dvd_neg).2 hdvd, hy⟩
    have hx0 := Int.emod_nonneg x (by omega : b ≠ 0)
    have hx0' := Int.emod_nonneg x' (by omega : b ≠ 0)
    rw [wrapInto_of ⟨hlow x hx, by omega⟩, wrapInto_of ⟨hlow x' (by omega), by omega⟩]
    exact multiple_le hb hxx

end

theorem toInt32_eq (n : Int) : toInt32 n = wrapInto (2 ^ 31) n := rfl

/-- A negative width goes up, and one multiple too far. -/
theorem truncateWith_neg {d : Int} (hd : 0 < d) (x : Int) :
    truncateWith toInt32 (-d) x = some (toInt32 (if d ∣ x then x else x - x % d + 2 * d)) := by
  have hlt := Int.emod_lt_of_pos x hd
  unfold truncateWith
  by_cases h : d ∣ x
  · have hfmod : x.fmod (-d) = 0 := Int.fmod_eq_zero_of_dvd (Int.neg_dvd.2 h)
    simp only [hfmod, if_neg (by omega : ¬-d = 0), if_neg (by omega : ¬(0 : Int) < 0), if_pos h, sub_zero]
  · have hfmod : x.fmod (-d) = x % d - d := by
      rw [Int.fmod_eq_emod, Int.emod_neg, if_neg (by rw [Int.neg_dvd]; exact not_or.2 ⟨by omega, h⟩)]
      omega
    simp only [hfmod, if_neg (by omega : ¬-d = 0), if_pos (by omega : x % d - d < 0), if_neg h]
    congr 1
    generalize x % d = r
    unfold toInt32
    omega

theorem truncateInt32_eq (w x : Int) : truncateInt32 w x =
    if w % 2 ^ 32 = 0 then none
    else if w % 2 ^ 32 ≤ 2 ^ 31 then some (toInt32 (x - x % (w % 2 ^ 32)))
    else some (toInt32 (if 2 ^ 32 - w % 2 ^ 32 ∣ x then x
      else x - x % (2 ^ 32 - w % 2 ^ 32) + 2 * (2 ^ 32 - w % 2 ^ 32))) := by
  have hb : toInt32 w = if w % 2 ^ 32 < 2 ^ 31 then w % 2 ^ 32 else -(2 ^ 32 - w % 2 ^ 32) := by
    unfold toInt32
    split_ifs <;> omega
  rw [truncateInt32, hb]
  by_cases hlow : w % 2 ^ 32 < 2 ^ 31
  · rw [if_pos hlow]
    by_cases h0 : w % 2 ^ 32 = 0
    · rw [if_pos h0, truncateWith, if_pos h0]
    · rw [if_neg h0, if_pos hlow.le, truncateWith_pos _ (by omega)]
  · rw [if_neg hlow, if_neg (by omega), truncateWith_neg (by omega)]
    by_cases h31 : w % 2 ^ 32 = 2 ^ 31
    · -- going up twice from the multiple below is going around once
      rw [h31, if_pos le_rfl]
      congr 1
      unfold toInt32
      split_ifs <;> omega
    · rw [if_neg (by omega : ¬w % 2 ^ 32 ≤ 2 ^ 31)]

/-! ## The values -/

/-- Going up twice from a multiple never ends at a multiple of the range. -/
theorem toInt32_up {d x : Int} (hd : 0 < d ∧ d < 2 ^ 31) (hx : 0 ≤ x ∧ x < 2 ^ 31) (h : ¬d ∣ x) :
    toInt32 (x - x % d + 2 * d) ≠ 0 := by
  have hpos : 0 < x % d := (Int.emod_pos_of_not_dvd h).resolve_left (by omega)
  have hlt := Int.emod_lt_of_pos x hd.1
  have hdiv := Int.mul_ediv_add_emod x d
  have hq : 0 ≤ x / d := Int.ediv_nonneg hx.1 hd.1.le
  intro hzero
  have hround : d * (x / d + 2) = 2 ^ 32 := by
    rw [mul_add]
    unfold toInt32 at hzero
    omega
  have hfew : x / d = 1 := by
    by_contra hne
    rcases (by omega : x / d = 0 ∨ 2 ≤ x / d) with h0 | h2
    · rw [h0] at hround
      omega
    · have : d * 4 ≤ d * (x / d + 2) := Int.mul_le_mul_of_nonneg_left (by omega) hd.1.le
      rw [mul_add] at hround this
      omega
  rw [hfew] at hround
  omega

theorem truncateInt32_exact_iff {w x : Int} (hw : 0 < w) (hx : -2 ^ 31 ≤ x ∧ x < 2 ^ 31) :
    (-2 ^ 31 ≤ x - x % w → truncateInt32 w x = some (x - x % w)) ↔
      w ≤ 2 ^ 31 ∨ x < 0 ∨ (x = 0 ∧ w % 2 ^ 32 ≠ 0) ∨ (w % 2 ^ 32 ≤ 2 ^ 31 ∧ x < w % 2 ^ 32) := by
  have hnonneg := Int.emod_nonneg x (by omega : w ≠ 0)
  rcases le_or_gt w (2 ^ 31) with hle | hwide
  · have hc : w % 2 ^ 32 = w := by omega
    refine iff_of_true (fun hlow => ?_) (.inl hle)
    rw [truncateInt32_eq, hc, if_neg (by omega), if_pos hle, toInt32_of (by omega)]
  · rcases lt_or_ge x 0 with hneg | hpos
    · have hmod : x % w = x + w := by rw [← Int.add_emod_right, Int.emod_eq_of_lt] <;> omega
      exact iff_of_true (fun hlow => by omega) (.inr (.inl hneg))
    · rw [Int.emod_eq_of_lt hpos (by omega), sub_self, truncateInt32_eq]
      have hlow : -2 ^ 31 ≤ (0 : Int) := by norm_num
      simp only [hlow, forall_const]
      by_cases h0 : w % 2 ^ 32 = 0
      · rw [if_pos h0]
        simp only [reduceCtorEq, false_iff]
        omega
      · rw [if_neg h0]
        split_ifs with hc hdvd
        · have hmod := Int.emod_lt_of_pos x (by omega : 0 < w % 2 ^ 32)
          have hmod0 := Int.emod_nonneg x h0
          have hlt : x < w % 2 ^ 32 → x % (w % 2 ^ 32) = x := Int.emod_eq_of_lt hpos
          rw [toInt32_of ⟨by omega, by omega⟩, Option.some.injEq]
          omega
        · rw [toInt32_of hx, Option.some.injEq]
          omega
        · have := toInt32_up (by omega) ⟨hpos, hx.2⟩ hdvd
          have hne : x ≠ 0 := fun h => hdvd (h ▸ Int.dvd_zero _)
          simp only [Option.some.injEq, this, false_iff]
          omega

theorem truncateInt32_mono_iff {w : Int} :
    (∀ x x', -2 ^ 31 ≤ x → x' < 2 ^ 31 → x ≤ x' →
      ∃ r r', truncateInt32 w x = some r ∧ truncateInt32 w x' = some r' ∧ r ≤ r') ↔
      w % 2 ^ 32 ∣ 2 ^ 31 ∨ w % 2 ^ 32 = 2 ^ 32 - 1 := by
  simp only [truncateInt32_eq]
  by_cases h0 : w % 2 ^ 32 = 0
  · rw [h0]
    refine iff_of_false (fun h => ?_) (by omega)
    obtain ⟨r, -, hr, -⟩ := h 0 0 (by omega) (by omega) le_rfl
    simp at hr
  rcases le_or_gt (w % 2 ^ 32) (2 ^ 31) with hle | hwide
  · have hmono := wrapInto_multiple_mono (by omega : 0 < w % 2 ^ 32) hle
    simp only [if_neg h0, if_pos hle, Option.some.injEq, exists_and_left, exists_eq_left', toInt32_eq, hmono]
    omega
  · have hnot : ¬w % 2 ^ 32 ∣ 2 ^ 31 := fun h => by
      have := Int.le_of_dvd (by norm_num) h
      omega
    simp only [if_neg h0, if_neg (by omega : ¬w % 2 ^ 32 ≤ 2 ^ 31), Option.some.injEq, exists_and_left,
      exists_eq_left', hnot, false_or]
    generalize hd : 2 ^ 32 - w % 2 ^ 32 = d
    constructor
    · intro h
      by_contra hne
      have h1 : ¬d ∣ 1 := fun h => by
        have := Int.le_of_dvd (by norm_num) h
        omega
      have hone : (1 : Int) % d = 1 := Int.emod_eq_of_lt (by omega) (by omega)
      rcases lt_or_ge (2 * d) (2 ^ 31) with hlow | hhigh
      · -- one goes to twice the width, the width to itself
        have := h 1 d (by omega) (by omega) (by omega)
        rw [if_neg h1, if_pos (Int.dvd_refl d), hone, toInt32_of (by omega), toInt32_of (by omega)] at this
        omega
      · have := h 0 1 (by omega) (by omega) (by omega)
        rw [if_pos (Int.dvd_zero d), if_neg h1, hone, toInt32_of (by omega)] at this
        unfold toInt32 at this
        omega
    · rintro hlast x x' hx hx' hxx
      obtain rfl : d = 1 := by omega
      rw [if_pos (Int.one_dvd _), if_pos (Int.one_dvd _), toInt32_of (by omega), toInt32_of (by omega)]
      exact hxx

/-! ## Application -/

theorem toInt_ofInt32 {n : Int} (h : -2 ^ 31 ≤ n ∧ n < 2 ^ 31) : (Int32.ofInt n).toInt = n :=
  Int32.toInt_ofInt_of_le (by omega) (by omega)

section
variable {murmur3 : List UInt8 → UInt32} {tr : Transform} {t : IcebergType} {v : Value} {x : Int}

/-- The number of the source. -/
def value : Transform → IcebergType → Int → Option Int
  | .year, t, x => some (dateToYears (x / perDay t))
  | .month, t, x => some (dateToMonths (x / perDay t))
  | .day, t, x => some (x / perDay t)
  | .hour, t, x => some (toInt32 (x / (perDay t / 24)))
  | .truncate w, .int, x => truncateInt32 w.toInt x
  | .truncate w, _, x => truncateInt64 w.toInt x
  | _, _, _ => none

theorem source_int (h : t = .int ∨ t = .date) (hs : source t v = some x) :
    ∃ n : Int32, v = .int n ∧ n.toInt = x := by
  rcases h with rfl | rfl <;> cases v <;> simp only [source, reduceCtorEq, Option.some.injEq] at hs <;>
    exact ⟨_, rfl, hs⟩

theorem source_long (h : ¬(t = .int ∨ t = .date)) (hs : source t v = some x) :
    ∃ n : Int64, v = .long n ∧ n.toInt = x := by
  cases t <;> cases v <;> simp only [source, reduceCtorEq, Option.some.injEq, not_true, true_or, or_true] at hs h <;>
    exact ⟨_, rfl, hs⟩

theorem source_bounds (hs : source t v = some x) : lowest t ≤ x ∧ x < -lowest t := by
  unfold lowest
  split_ifs with h
  · obtain ⟨n, -, rfl⟩ := source_int h hs
    exact ⟨n.le_toInt, n.toInt_lt⟩
  · obtain ⟨n, -, rfl⟩ := source_long h hs
    exact ⟨n.le_toInt, n.toInt_lt⟩

theorem exists_source (ha : Transform.Applies tr t) (hx : lowest t ≤ x ∧ x < -lowest t) : ∃ v, source t v = some x := by
  unfold lowest at hx
  split_ifs at hx with h
  · refine ⟨.int (.ofInt x), ?_⟩
    rcases h with rfl | rfl <;> exact congrArg some (toInt_ofInt32 hx)
  · refine ⟨.long (.ofInt x), ?_⟩
    have hlong : source t (.long (.ofInt x)) = some (Int64.ofInt x).toInt := by
      cases tr <;> simp only [Transform.Applies] at ha <;> grind [source]
    rw [hlong, Int64.toInt_ofInt_of_le hx.1 hx.2]

theorem microsToDays_eq {us : Int} (h : -2 ^ 63 ≤ us ∧ us < 2 ^ 63) : microsToDays us = us / 86400000000 := by
  rw [microsToDays, divFloor_eq us (by norm_num), toInt32_of]
  omega

theorem nanosToDays_eq {ns : Int} (h : -2 ^ 63 ≤ ns ∧ ns < 2 ^ 63) : nanosToDays ns = ns / 86400000000000 := by
  rw [nanosToDays, divFloor_eq ns (by norm_num), microsToDays_eq (by omega)]
  omega

theorem microsToHours_eq (us : Int) : microsToHours us = toInt32 (us / 3600000000) := by
  rw [microsToHours, divFloor_eq us (by norm_num)]

theorem nanosToHours_eq (ns : Int) : nanosToHours ns = toInt32 (ns / 3600000000000) := by
  rw [nanosToHours, divFloor_eq ns (by norm_num), microsToHours_eq]
  congr 1
  omega

theorem transformed_int {r : Int} (h : applyTransform murmur3 tr t v = .ok (avInt r)) (hr : -2 ^ 31 ≤ r ∧ r < 2 ^ 31) :
    transformed murmur3 tr t v = some r := by
  simp only [transformed, h, avInt, toInt_ofInt32 hr]

theorem transformed_eq (ha : Transform.Applies tr t) (hs : source t v = some x) :
    transformed murmur3 tr t v = value tr t x := by
  cases tr with
  | identity | bucket | void | unknownTransform => exact ha.elim
  | year | month =>
    rcases ha with rfl | rfl | rfl | rfl | rfl
    · obtain ⟨n, rfl, rfl⟩ := source_int (.inr rfl) hs
      simp only [value, perDay, Int.ediv_one]
      exact transformed_int rfl (toInt32_bounds _)
    all_goals
      obtain ⟨n, rfl, rfl⟩ := source_long (by decide) hs
      have hn := source_bounds hs
      simp only [value, perDay, ← microsToDays_eq hn, ← nanosToDays_eq hn]
      exact transformed_int rfl (toInt32_bounds _)
  | day =>
    rcases ha with rfl | rfl | rfl | rfl | rfl
    · obtain ⟨n, rfl, rfl⟩ := source_int (.inr rfl) hs
      simp only [value, perDay, Int.ediv_one]
      rfl
    all_goals
      obtain ⟨n, rfl, rfl⟩ := source_long (by decide) hs
      have hn := source_bounds hs
      simp only [value, perDay, ← microsToDays_eq hn, ← nanosToDays_eq hn]
      exact transformed_int rfl (toInt32_bounds _)
  | hour =>
    rcases ha with rfl | rfl | rfl | rfl
    all_goals
      obtain ⟨n, rfl, rfl⟩ := source_long (by decide) hs
      simp only [value, perDay, Int.reduceDiv, ← microsToHours_eq, ← nanosToHours_eq]
      exact transformed_int rfl (toInt32_bounds _)
  | truncate w =>
    rcases ha with ⟨hw, rfl | rfl⟩
    · obtain ⟨n, rfl, rfl⟩ := source_int (.inl rfl) hs
      cases hr : truncateInt32 w.toInt n.toInt with
      | none => simp only [transformed, applyTransform, withInt, value, hr, Option.map_none]
      | some r =>
        have hb : -2 ^ 31 ≤ r ∧ r < 2 ^ 31 := by
          rw [truncateInt32_eq] at hr
          split_ifs at hr <;> cases hr <;> exact toInt32_bounds _
        simp only [transformed, applyTransform, withInt, value, hr, Option.map_some, toInt_ofInt32 hb]
    · obtain ⟨n, rfl, rfl⟩ := source_long (by decide) hs
      have htrunc : truncateInt64 w.toInt n.toInt = _ := truncateWith_pos _ hw _
      have hb : -2 ^ 63 ≤ toInt64 (n.toInt - n.toInt % w.toInt) ∧ toInt64 (n.toInt - n.toInt % w.toInt) < 2 ^ 63 := by
        unfold toInt64
        omega
      simp only [transformed, applyTransform, withLong, value, htrunc, Option.map_some,
        Int64.toInt_ofInt_of_le hb.1 hb.2]

/-! ## The transforms -/

theorem dateToMonths_exact_iff {n : Int} (hn : -2 ^ 31 ≤ n ∧ n < 2 ^ 31) : dateToMonths n = (date n).months ↔
    -719468 ≤ n ∨ (date n).month = 2 ∨ (date n).day < monthLength (date n).year (date n).month := by
  rw [dateToMonths_eq hn]
  unfold late
  split_ifs with h
  · exact iff_of_false (by omega) (by omega)
  · exact iff_of_true (by omega) (by omega)

theorem dateToYears_exact_iff {n : Int} (hn : -2 ^ 31 ≤ n ∧ n < 2 ^ 31) : dateToYears n = (date n).year - 1970 ↔
    -719468 ≤ n ∨ (date n).month ≠ 12 ∨ (date n).day ≠ 31 := by
  have hv := valid_date n
  have hm := hv.month
  have hd := hv.day
  rw [dateToYears_eq hn, dateToMonths_eq hn, months]
  unfold late
  by_cases h12 : (date n).month = 12
  · have h31 : monthLength (date n).year (date n).month = 31 := by rw [h12]; rfl
    rw [h31] at hd ⊢
    split_ifs <;> omega
  · refine iff_of_true ?_ (.inr (.inl h12))
    split_ifs <;> omega

theorem days_bounds (ha : Transform.Applies .day t) (hx : lowest t ≤ x ∧ x < -lowest t) :
    -2 ^ 31 ≤ x / perDay t ∧ x / perDay t < 2 ^ 31 := by
  rcases ha with rfl | rfl | rfl | rfl | rfl <;> simp only [lowest, perDay] at hx ⊢ <;> simp at hx <;> omega

theorem days_mono (ha : Transform.Applies .day t) {x' : Int} (h : x ≤ x') : x / perDay t ≤ x' / perDay t :=
  Int.ediv_le_ediv (by rcases ha with rfl | rfl | rfl | rfl | rfl <;> decide) h

theorem exact_iff (ha : Transform.Applies tr t) (hs : source t v = some x) :
    Exact t x (transformed murmur3 tr t v) tr ↔ Fits t x tr := by
  have hx := source_bounds hs
  rw [transformed_eq ha hs]
  cases tr with
  | identity | bucket | void | unknownTransform => exact ha.elim
  | year => exact Option.some_inj.trans (dateToYears_exact_iff (days_bounds ha hx))
  | month => exact Option.some_inj.trans (dateToMonths_exact_iff (days_bounds ha hx))
  | day => exact iff_of_true rfl trivial
  | hour =>
    have hb := toInt32_bounds (x / (perDay t / 24))
    exact Option.some_inj.trans ⟨fun h => by rwa [h] at hb, toInt32_of⟩
  | truncate w =>
    have hgreatest := isGreatest_multiple ha.1 x
    have hexact : Exact t x (value (.truncate w) t x) (.truncate w) ↔
        (lowest t ≤ x - x % w.toInt → value (.truncate w) t x = some (x - x % w.toInt)) :=
      ⟨fun h => h _ hgreatest, fun h m hm => hm.unique hgreatest ▸ h⟩
    rw [hexact]
    rcases ha with ⟨hw, rfl | rfl⟩
    · exact (truncateInt32_exact_iff hw hx).trans ⟨fun h _ => h, fun h => h rfl⟩
    · refine iff_of_true (fun hlow => ?_) nofun
      have := Int.emod_nonneg x (by omega : w.toInt ≠ 0)
      refine (truncateWith_pos _ hw x).trans
        (congrArg some (wrapInto_of ⟨hlow, ?_⟩ : wrapInto (2 ^ 63) _ = _))
      have := hx.2
      simp [lowest] at this
      omega

theorem orderedOn_iff (ha : Transform.Applies tr t) : OrderedOn murmur3 tr t ↔
    ∀ x x', lowest t ≤ x → x' < -lowest t → x ≤ x' → ∃ r r', value tr t x = some r ∧ value tr t x' = some r' ∧ r ≤ r' := by
  constructor
  · intro h x x' hx hx' hxx
    obtain ⟨v, hv⟩ := exists_source ha (x := x) (by omega)
    obtain ⟨v', hv'⟩ := exists_source ha (x := x') (by omega)
    have := h v v' x x' hv hv' hxx
    rwa [transformed_eq ha hv, transformed_eq ha hv'] at this
  · intro h v v' x x' hv hv' hxx
    rw [transformed_eq ha hv, transformed_eq ha hv']
    exact h x x' (source_bounds hv).1 (source_bounds hv').2 hxx

theorem ordered_iff (ha : Transform.Applies tr t) : OrderedOn murmur3 tr t ↔ Ordered t tr := by
  rw [orderedOn_iff ha]
  cases tr with
  | identity | bucket | void | unknownTransform => exact ha.elim
  | year =>
    refine iff_of_true (fun x x' hx hx' hxx => ⟨_, _, rfl, rfl, ?_⟩) trivial
    have hd := days_bounds ha (x := x) (by omega)
    have hd' := days_bounds ha (x := x') (by omega)
    rw [dateToYears_eq hd, dateToYears_eq hd', dateToMonths_eq hd, dateToMonths_eq hd']
    exact Int.ediv_le_ediv (by norm_num) (months_late_mono (days_mono ha hxx))
  | month =>
    refine iff_of_true (fun x x' hx hx' hxx => ⟨_, _, rfl, rfl, ?_⟩) trivial
    rw [dateToMonths_eq (days_bounds ha (by omega)), dateToMonths_eq (days_bounds ha (by omega))]
    exact months_late_mono (days_mono ha hxx)
  | day => exact iff_of_true (fun x x' _ _ hxx => ⟨_, _, rfl, rfl, days_mono ha hxx⟩) trivial
  | hour =>
    simp only [value, Option.some.injEq, exists_and_left, exists_eq_left']
    rcases ha with rfl | rfl | rfl | rfl
    case inl | inr.inl =>
      -- the last hour of the range, and the hour after it
      refine iff_of_false (fun h => ?_) (by simp [Ordered])
      exact absurd (h 7730941129200000000 7730941132800000000 (by decide) (by decide) (by norm_num)) (by decide)
    all_goals
      refine iff_of_true (fun x x' hx hx' hxx => ?_) (by simp [Ordered])
      simp only [lowest, perDay, reduceCtorEq, or_self, if_false] at hx hx' ⊢
      rw [toInt32_of (by omega), toInt32_of (by omega)]
      omega
  | truncate w =>
    rcases ha with ⟨hw, rfl | rfl⟩
    · exact truncateInt32_mono_iff
    · have htrunc : ∀ x, value (.truncate w) .long x = some (wrapInto (2 ^ 63) (x - x % w.toInt)) :=
        truncateWith_pos _ hw
      simp only [htrunc, Option.some.injEq, exists_and_left, exists_eq_left']
      exact wrapInto_multiple_mono hw w.toInt_lt.le

end

/-! ## Buckets -/

section
variable (murmur3 : List UInt8 → UInt32)

theorem hash_bounds (h : UInt32) :
    0 ≤ ((h &&& 0x7fffffff).toNat : Int) ∧ ((h &&& 0x7fffffff).toNat : Int) < 2 ^ 31 := by
  have := Nat.and_le_right (n := h.toNat) (m := 2147483647)
  rw [UInt32.toNat_and, show (2147483647 : UInt32).toNat = 2147483647 from rfl]
  omega

theorem remainder_bounds {a k : Int} (ha : 0 ≤ a ∧ a < 2 ^ 31) (hk : 0 < k) :
    0 ≤ a % k ∧ a % k < k ∧ a % k < 2 ^ 31 := by
  have hmod := Int.emod_lt_of_pos a hk
  refine ⟨Int.emod_nonneg _ hk.ne', hmod, ?_⟩
  rcases lt_or_ge a k with hle | hge
  · rw [Int.emod_eq_of_lt ha.1 hle]
    exact ha.2
  · omega

theorem bucketBytes_bounds {n : Int64} (hn : 0 < n.toInt) (bs : List UInt8) : 0 ≤ bucketBytes murmur3 n bs ∧
    bucketBytes murmur3 n bs < n.toInt ∧ bucketBytes murmur3 n bs < 2 ^ 31 := by
  unfold bucketBytes
  split_ifs
  · omega
  · exact remainder_bounds (hash_bounds _) hn

theorem bucketLong_bounds {n : Int64} (hn : 0 < n.toInt) (v : Int64) : 0 ≤ bucketLong murmur3 n v ∧
    bucketLong murmur3 n v < n.toInt ∧ bucketLong murmur3 n v < 2 ^ 31 := by
  unfold bucketLong
  dsimp only
  split_ifs with h1 h2
  · omega
  · omega
  · have hb := remainder_bounds (hash_bounds (murmur3 (longBytes v))) (by omega : 0 < toInt32 n.toInt)
    have hle : toInt32 n.toInt ≤ n.toInt := by
      unfold toInt32
      omega
    omega

theorem bucket_bounds {n : Int64} (hn : 0 < n.toInt) {t : IcebergType} {v : Value} {r : Int}
    (h : transformed murmur3 (.bucket n) t v = some r) : 0 ≤ r ∧ r < n.toInt := by
  have hlong := bucketLong_bounds murmur3 hn
  have hbytes := bucketBytes_bounds murmur3 hn
  have happ : (∃ b, (0 ≤ b ∧ b < n.toInt ∧ b < 2 ^ 31) ∧ applyTransform murmur3 (.bucket n) t v = .ok (avInt b)) ∨
      ∃ e, applyTransform murmur3 (.bucket n) t v = .error e := by
    cases t
    case int | date | long | timestamp | timestampTz | timestampNs | timestampTzNs =>
      cases v <;> first | exact .inr ⟨_, rfl⟩ | exact .inl ⟨_, hlong _, rfl⟩
    case string | binary | fixed | uuid | decimal =>
      cases v <;> first | exact .inr ⟨_, rfl⟩ | exact .inl ⟨_, hbytes _, rfl⟩
    all_goals exact .inr ⟨_, rfl⟩
  rcases happ with ⟨b, ⟨h0, hlt, h31⟩, happ⟩ | ⟨e, happ⟩
  · rw [transformed_int happ ⟨by omega, h31⟩, Option.some.injEq] at h
    omega
  · simp only [transformed, happ, reduceCtorEq] at h

/-- **A transform is exact, and keeps the order, where this is so; a bucket is always in its range.** -/
theorem transforms_exact_iff :
    (∀ tr t v x, Transform.Applies tr t → source t v = some x →
      (Exact t x (transformed murmur3 tr t v) tr ↔ Fits t x tr)) ∧
    (∀ tr t, Transform.Applies tr t → (OrderedOn murmur3 tr t ↔ Ordered t tr)) ∧
    ∀ (n : Int64) t v r, 0 < n.toInt → transformed murmur3 (.bucket n) t v = some r → 0 ≤ r ∧ r < n.toInt :=
  ⟨fun _ _ _ _ => exact_iff, fun _ _ => ordered_iff, fun _ _ _ _ hn => bucket_bounds murmur3 hn⟩

end

/-- The 2147483648th hour is mapped to the first of the 32-bit numbers. -/
theorem late_hour_wraps : ¬Exact .timestamp 7730941132800000000
    (transformed (fun _ => 0) .hour .timestamp (.long 7730941132800000000)) .hour :=
  fun h => absurd (Option.some.inj h) (by decide)

theorem transforms_exact_second :
    Exact .timestamp 3600000000 (transformed (fun _ => 0) .hour .timestamp (.long 3600000000)) .hour ∧
      OrderedOn (fun _ => 0) .month .date ∧
      ∀ r, transformed (fun _ => 0) (.bucket 16) .string (.string "a") = some r → 0 ≤ r ∧ r < 16 :=
  ⟨((transforms_exact_iff _).1 .hour .timestamp _ _ (.inl rfl) rfl).2 ⟨by decide, by decide⟩,
    ((transforms_exact_iff _).2.1 .month .date (.inl rfl)).2 trivial,
    fun r => (transforms_exact_iff _).2.2 16 .string (.string "a") r (by decide)⟩

end Wireform.Iceberg

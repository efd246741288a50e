/-
  Single values of Iceberg columns (`Iceberg.SingleValue`).

  * the decoders of single-value byte strings;
  * `compareSingleValueBy`: their comparison as values of a type;
  * `meaning`: what a byte string stands for in a column of the type, a value of
    `Columnar.Scalar` or no number;
  * `compareTy_lt`, `compareTy_eq`: the comparison is that of the meanings.

  A floating-point number is its bits.
-/
import Wireform.Columnar.Predicate
import Wireform.Iceberg.Types

namespace Wireform.Iceberg

open Columnar

/-- The types; nested and unsupported ones are not told apart. -/
inductive IcebergType where
  | boolean | int | long | float | double | date | time | timestamp | timestampTz | timestampNs | timestampTzNs | string | uuid
  | fixed (n : Int)
  | binary
  | decimal (precision scale : Int)
  | other
  deriving DecidableEq

/-! ## Decoders -/

/-- Little-endian bytes as a number. -/
def readLE (bs : ByteString) : Nat := bs.foldr (fun b acc => b.toNat + 256 * acc) 0

/-- A number of `8 * k` bits as a signed one. -/
def signed (k : Nat) (n : Nat) : Int := if n < 2 ^ (8 * k - 1) then n else n - 2 ^ (8 * k)

def decodeBool : ByteString → Except String Bool
  | [] => .error "decodeBool: empty"
  | b :: _ => .ok (b ≠ 0)

def decodeInt32 (bs : ByteString) : Except String Int :=
  if bs.length = 4 then .ok (signed 4 (readLE bs)) else .error "decodeInt32: expected 4 bytes"

def decodeInt64 (bs : ByteString) : Except String Int :=
  if bs.length = 8 then .ok (signed 8 (readLE bs)) else .error "decodeInt64: expected 8 bytes"

def decodeFloat (bs : ByteString) : Except String Nat :=
  if bs.length = 4 then .ok (readLE bs) else .error "decodeFloat: expected 4 bytes"

def decodeDouble (bs : ByteString) : Except String Nat :=
  if bs.length = 8 then .ok (readLE bs) else .error "decodeDouble: expected 8 bytes"

def decodeString (bs : ByteString) : Except String String :=
  match String.fromUTF8? ⟨bs.toArray⟩ with
  | some t => .ok t
  | none => .error "decodeString: invalid UTF-8"

/-- Big-endian two's complement. -/
def decodeDecimal : ByteString → Except String Int
  | [] => .error "decodeDecimal: empty"
  | b :: bs =>
    let w := readLE (b :: bs).reverse
    .ok (if 0x80 ≤ b.toNat then w - 2 ^ (8 * (bs.length + 1)) else w)

/-! ## Comparison -/

/-- The bytes of a text. -/
def textBytes (t : String) : ByteString := t.toByteArray.data.toList

def compareBytes (a b : ByteString) : Ordering := if octets a < octets b then .lt else if a = b then .eq else .gt

/-- What is no number is greater than everything. -/
def compareFloat (f : Ieee) (a b : Nat) : Ordering := if f.less a b then .lt else if f.same a b then .eq else .gt

def liftCompare {γ : Type} (dec : ByteString → Except String γ) (compare : γ → γ → Ordering) (a b : ByteString) :
    Except String Ordering := do
  let x ← dec a
  let y ← dec b
  return compare x y

def compareSingleValueBy : IcebergType → ByteString → ByteString → Except String Ordering
  | .boolean => liftCompare decodeBool cmp
  | .int | .date => liftCompare decodeInt32 cmp
  | .long | .timestamp | .timestampTz | .time | .timestampNs | .timestampTzNs => liftCompare decodeInt64 cmp
  | .float => liftCompare decodeFloat (compareFloat .binary32)
  | .double => liftCompare decodeDouble (compareFloat .binary64)
  | .string => liftCompare decodeString fun s t => compareBytes (textBytes s) (textBytes t)
  | .binary | .fixed _ | .uuid => fun a b => .ok (compareBytes a b)
  | .decimal _ _ => liftCompare decodeDecimal cmp
  | .other => fun _ _ => .error "compareSingleValueBy: unsupported type"

def compareTy (ty : IcebergType) (a b : ByteString) : Ordering :=
  match compareSingleValueBy ty a b with
  | .ok o => o
  | .error _ => compareBytes a b

attribute [grind =] compareTy

/-! ## Meanings -/

/-- What a byte string stands for: a scalar, or no number. -/
def meaning : IcebergType → ByteString → Option (Option Scalar)
  | .boolean, bs => (decodeBool bs).toOption.map fun b => some (.truth b)
  | .int, bs | .date, bs => (decodeInt32 bs).toOption.map fun n : Int => some (rational n)
  | .long, bs | .timestamp, bs | .timestampTz, bs | .time, bs | .timestampNs, bs | .timestampTzNs, bs =>
    (decodeInt64 bs).toOption.map fun n : Int => some (rational n)
  | .float, bs => (decodeFloat bs).toOption.map fun bits => (Ieee.binary32.value bits).map .number
  | .double, bs => (decodeDouble bs).toOption.map fun bits => (Ieee.binary64.value bits).map .number
  | .string, bs | .binary, bs | .fixed _, bs | .uuid, bs => some (some (.bytes bs))
  | .decimal _ _, bs => (decodeDecimal bs).toOption.map fun n : Int => some (rational n)
  | .other, _ => none

/-- The order of two meanings. -/
structure Orders (A B : Option Scalar) (o : Ordering) : Prop where
  lt : o = .lt ↔ ∃ x y, A = some x ∧ B = some y ∧ x < y
  eq : o = .eq ↔ ∃ x, A = some x ∧ B = some x
  total : ∀ x y, A = some x → B = some y → x ≤ y ∨ y ≤ x

section
variable {ty : IcebergType} {a b : ByteString} {A B : Option Scalar}

theorem orders_cmp {γ : Type} [LinearOrder γ] (value : γ → Scalar) (hlt : ∀ x y, value x < value y ↔ x < y)
    (hinj : ∀ x y, value x = value y → x = y) (x y : γ) : Orders (some (value x)) (some (value y)) (cmp x y) where
  lt := by
    rw [cmp_eq_lt_iff, ← hlt]
    simp
  eq := by
    rw [cmp_eq_eq_iff]
    constructor
    · rintro rfl
      exact ⟨_, rfl, rfl⟩
    · rintro ⟨z, hx, hy⟩
      exact hinj x y ((Option.some.inj hx).trans (Option.some.inj hy).symm)
  total := by
    intro x' y' hx hy
    cases hx
    cases hy
    rcases lt_trichotomy x y with h | rfl | h
    · exact Or.inl ((hlt x y).2 h).le
    · exact Or.inl le_rfl
    · exact Or.inr ((hlt y x).2 h).le

theorem orders_float (f : Ieee) (x y : Nat) :
    Orders ((f.value x).map .number) ((f.value y).map .number) (compareFloat f x y) where
  lt := by
    have hless : compareFloat f x y = .lt ↔ f.less x y = true := by
      unfold compareFloat
      split_ifs <;> simp_all
    rw [hless, f.less_iff]
    constructor
    · rintro ⟨u, v, hu, hv, hlt⟩
      exact ⟨.number u, .number v, by rw [hu]; rfl, by rw [hv]; rfl, number_lt.2 hlt⟩
    · rintro ⟨u, v, hu, hv, hlt⟩
      obtain ⟨u', hu', rfl⟩ := Option.map_eq_some_iff.1 hu
      obtain ⟨v', hv', rfl⟩ := Option.map_eq_some_iff.1 hv
      exact ⟨u', v', hu', hv', number_lt.1 hlt⟩
  eq := by
    have hsame : compareFloat f x y = .eq ↔ f.same x y = true := by
      unfold compareFloat
      split_ifs with hlt hsame
      · obtain ⟨u, v, hu, hv, huv⟩ := f.less_iff.1 hlt
        simp only [false_iff, f.same_iff]
        rintro ⟨w, hw, hw'⟩
        rw [hu] at hw
        rw [hv] at hw'
        cases hw
        cases hw'
        exact lt_irrefl _ huv
      · simp [hsame]
      · simp [hsame]
    rw [hsame, f.same_iff]
    constructor
    · rintro ⟨u, hu, hv⟩
      exact ⟨.number u, by rw [hu]; rfl, by rw [hv]; rfl⟩
    · rintro ⟨u, hu, hv⟩
      obtain ⟨u', hu', rfl⟩ := Option.map_eq_some_iff.1 hu
      obtain ⟨v', hv', heq⟩ := Option.map_eq_some_iff.1 hv
      cases heq
      exact ⟨u', hu', hv'⟩
  total := by
    intro u v hu hv
    obtain ⟨u', -, rfl⟩ := Option.map_eq_some_iff.1 hu
    obtain ⟨v', -, rfl⟩ := Option.map_eq_some_iff.1 hv
    exact (le_total u' v').imp id id

/-- A comparison of decoded values. -/
theorem orders_lift {γ : Type} {dec : ByteString → Except String γ} {compare : γ → γ → Ordering} {value : γ → Option Scalar}
    (h : ∀ x y, Orders (value x) (value y) (compare x y)) (ha : (dec a).toOption.map value = some A)
    (hb : (dec b).toOption.map value = some B) : ∃ o, liftCompare dec compare a b = .ok o ∧ Orders A B o := by
  obtain ⟨x, hx, rfl⟩ := Option.map_eq_some_iff.1 ha
  obtain ⟨y, hy, rfl⟩ := Option.map_eq_some_iff.1 hb
  cases hda : dec a with
  | error e =>
    rw [hda] at hx
    cases hx
  | ok x' =>
    cases hdb : dec b with
    | error e =>
      rw [hdb] at hy
      cases hy
    | ok y' =>
      rw [hda] at hx
      rw [hdb] at hy
      cases hx
      cases hy
      refine ⟨compare x y, ?_, h x y⟩
      rw [liftCompare, hda, hdb]
      rfl

theorem orders_bytes (a b : ByteString) : Orders (some (.bytes a)) (some (.bytes b)) (compareBytes a b) where
  lt := by
    have hlt : Scalar.bytes a < .bytes b ↔ octets a < octets b := by
      rw [lt_iff_le_not_ge, lt_iff_le_not_ge]
      exact Iff.rfl
    have hcompare : compareBytes a b = .lt ↔ octets a < octets b := by
      unfold compareBytes
      split_ifs with h h' <;> simp [h]
    rw [hcompare, ← hlt]
    simp
  eq := by
    have hcompare : compareBytes a b = .eq ↔ a = b := by
      unfold compareBytes
      split_ifs with h h'
      · simp only [false_iff]
        rintro rfl
        exact lt_irrefl _ h
      · simp [h']
      · simp [h']
    rw [hcompare]
    constructor
    · rintro rfl
      exact ⟨.bytes a, rfl, rfl⟩
    · rintro ⟨z, hx, hy⟩
      cases hx
      cases hy
      rfl
  total := by
    intro x y hx hy
    cases hx
    cases hy
    exact le_total (octets a) (octets b)

theorem textBytes_of {t : String} (h : String.fromUTF8? ⟨a.toArray⟩ = some t) : textBytes t = a := by
  rw [String.fromUTF8?] at h
  split_ifs at h with hv
  cases h
  simp [textBytes, String.fromUTF8]

/-- Texts are compared as their bytes, and what is no text too. -/
theorem compareTy_string (a b : ByteString) : compareTy .string a b = compareBytes a b := by
  have hdecode (bs : ByteString) : (∃ e, decodeString bs = .error e) ∨ ∃ t, decodeString bs = .ok t ∧ textBytes t = bs := by
    unfold decodeString
    cases h : String.fromUTF8? ⟨bs.toArray⟩ with
    | none => exact Or.inl ⟨_, rfl⟩
    | some t => exact Or.inr ⟨t, rfl, textBytes_of h⟩
  have hcompare : compareSingleValueBy .string a b =
      liftCompare decodeString (fun s t => compareBytes (textBytes s) (textBytes t)) a b := rfl
  rw [compareTy, hcompare, liftCompare]
  rcases hdecode a with ⟨e, ha⟩ | ⟨s, ha, hs⟩
  · rw [ha]
    rfl
  · rcases hdecode b with ⟨e, hb⟩ | ⟨t, hb, ht⟩
    · rw [ha, hb]
      rfl
    · rw [ha, hb, ← hs, ← ht]
      rfl

theorem rational_cmp (m n : Int) : Orders (some (rational m)) (some (rational n)) (cmp m n) :=
  orders_cmp (fun n : Int => rational n) (fun x y => by rw [rational_lt]; exact Int.cast_lt)
    (fun x y h => Int.cast_injective (rational_inj h)) m n

theorem truth_cmp (x y : Bool) : Orders (some (.truth x)) (some (.truth y)) (cmp x y) := by
  refine orders_cmp Scalar.truth (fun x y => ?_) (fun x y h => ?_) x y
  · rw [lt_iff_le_not_ge, lt_iff_le_not_ge]
    exact Iff.rfl
  · cases h
    rfl

/-- **Byte strings are compared as the values they stand for.** -/
theorem compareTy_orders (ha : meaning ty a = some A) (hb : meaning ty b = some B) : Orders A B (compareTy ty a b) := by
  have hlift {o : Ordering} (h : compareSingleValueBy ty a b = .ok o) : compareTy ty a b = o := by
    rw [compareTy, h]
  have hof (h : ∃ o, compareSingleValueBy ty a b = .ok o ∧ Orders A B o) : Orders A B (compareTy ty a b) := by
    obtain ⟨o, ho, horders⟩ := h
    rwa [hlift ho]
  cases ty with
  | boolean => exact hof (orders_lift truth_cmp ha hb)
  | float => exact hof (orders_lift (orders_float _) ha hb)
  | double => exact hof (orders_lift (orders_float _) ha hb)
  | decimal p s => exact hof (orders_lift rational_cmp ha hb)
  | string =>
    cases ha
    cases hb
    rw [compareTy_string]
    exact orders_bytes a b
  | binary =>
    cases ha
    cases hb
    exact orders_bytes a b
  | fixed n =>
    cases ha
    cases hb
    exact orders_bytes a b
  | uuid =>
    cases ha
    cases hb
    exact orders_bytes a b
  | other => cases ha
  | _ => exact hof (orders_lift rational_cmp ha hb)

end

end Wireform.Iceberg

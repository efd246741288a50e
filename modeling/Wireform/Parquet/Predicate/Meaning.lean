/-
  What the stored values of a column stand for.

  * `Reading`, `reading`: how the bytes of a column are read. The newer annotation decides
    where there is one, the older one otherwise;
  * `meaning`: the number, the truth value or the byte string that some bytes stand for;
  * `Misread`: a column whose bounds are taken for unsigned numbers and which is signed;
  * `decode_meaning`: the bounds of other columns are what they stand for.
-/
import Wireform.Numerals
import Wireform.Parquet.Predicate.Model
import Mathlib.Data.Nat.Bitwise

namespace Wireform.Parquet

open Columnar

/-! ## Readings -/

inductive Reading where
  | carrier
  | unsigned
  | decimal (scale : Int)
  | half
  deriving DecidableEq

/-- A decimal without a scale is whole. -/
def reading (field : SchemaElement) : Reading :=
  match field.seLogicalType with
  | some .float16 => .half
  | some (.decimal _ scale) => .decimal scale
  | some (.integer _ false) => .unsigned
  | some _ => .carrier
  | none =>
    match field.seConvertedType with
    | some .uInt8 | some .uInt16 | some .uInt32 | some .uInt64 => .unsigned
    | some .decimal => .decimal 0
    | _ => .carrier

attribute [grind =] reading

def signedLE (bytes : List UInt8) : Int := (leValue bytes : Int).bmod (256 ^ bytes.length)

def signedBE (bytes : List UInt8) : Int := (leValue bytes.reverse : Int).bmod (256 ^ bytes.length)

def scaled (n scale : Int) : Scalar := rational (n / 10 ^ scale.toNat)

/-- What the bytes of a carrier stand for. -/
def readAs (ty : ParquetType) (r : Reading) (bytes : List UInt8) : Option Scalar :=
  match r, ty with
  | .carrier, .boolean =>
    match bytes with
    | [b] => if b ≤ 1 then some (.truth (b ≠ 0)) else none
    | _ => none
  | .carrier, .int32 => if bytes.length = 4 then some (rational (signedLE bytes)) else none
  | .carrier, .int64 => if bytes.length = 8 then some (rational (signedLE bytes)) else none
  | .carrier, .float => if bytes.length = 4 then (Ieee.binary32.value (leValue bytes)).map .number else none
  | .carrier, .double => if bytes.length = 8 then (Ieee.binary64.value (leValue bytes)).map .number else none
  | .carrier, .byteArray | .carrier, .fixedLenByteArray => some (.bytes bytes)
  | .unsigned, .int32 => if bytes.length = 4 then some (rational (leValue bytes)) else none
  | .unsigned, .int64 => if bytes.length = 8 then some (rational (leValue bytes)) else none
  | .decimal scale, .int32 => if bytes.length = 4 then some (scaled (signedLE bytes) scale) else none
  | .decimal scale, .int64 => if bytes.length = 8 then some (scaled (signedLE bytes) scale) else none
  | .decimal scale, .byteArray | .decimal scale, .fixedLenByteArray =>
    if bytes ≠ [] then some (scaled (signedBE bytes) scale) else none
  | .half, .fixedLenByteArray =>
    if bytes.length = 2 then (Ieee.binary16.value (leValue bytes)).map .number else none
  | _, _ => none

attribute [grind =] readAs

def meaning (field : SchemaElement) (bytes : List UInt8) : Option Scalar :=
  field.seType.bind fun ty => readAs ty (reading field) bytes

/-- Bounds are taken for unsigned numbers by the older annotation, and the newer one says otherwise. -/
def Misread (field : SchemaElement) : Prop :=
  hasDefinedStatisticsOrder field = true ∧ field.unsigned = true ∧ reading field = .carrier ∧
    (field.seType = some .int32 ∨ field.seType = some .int64)

/-! ## Numbers -/

theorem readLE32_toNat (bs : List UInt8) (o : Nat) :
    (readLE32 bs o).toNat = leValue [bs.getD o 0, bs.getD (o + 1) 0, bs.getD (o + 2) 0, bs.getD (o + 3) 0] := by
  simp only [readLE32]
  generalize bs.getD o 0 = b0
  generalize bs.getD (o + 1) 0 = b1
  generalize bs.getD (o + 2) 0 = b2
  generalize bs.getD (o + 3) 0 = b3
  have h0 := b0.toNat_lt
  have h1 := b1.toNat_lt
  have h2 := b2.toNat_lt
  have h3 := b3.toNat_lt
  have e1 : (b0.toUInt32 ||| b1.toUInt32 <<< UInt32.ofNat 8).toNat = b0.toNat + b1.toNat * 2 ^ 8 := by
    rw [toNat_or_shift32 (by omega) (by simpa using h0) (by simp only [UInt8.toNat_toUInt32]; omega)]
    simp only [UInt8.toNat_toUInt32]
  have e2 : (b0.toUInt32 ||| b1.toUInt32 <<< UInt32.ofNat 8 ||| b2.toUInt32 <<< UInt32.ofNat 16).toNat
      = b0.toNat + b1.toNat * 2 ^ 8 + b2.toNat * 2 ^ 16 := by
    rw [toNat_or_shift32 (by omega) (by rw [e1]; omega) (by simp only [UInt8.toNat_toUInt32]; omega), e1]
    simp only [UInt8.toNat_toUInt32]
  have e3 : (b0.toUInt32 ||| b1.toUInt32 <<< UInt32.ofNat 8 ||| b2.toUInt32 <<< UInt32.ofNat 16 |||
      b3.toUInt32 <<< UInt32.ofNat 24).toNat
      = b0.toNat + b1.toNat * 2 ^ 8 + b2.toNat * 2 ^ 16 + b3.toNat * 2 ^ 24 := by
    rw [toNat_or_shift32 (by omega) (by rw [e2]; omega) (by simp only [UInt8.toNat_toUInt32]; omega), e2]
    simp only [UInt8.toNat_toUInt32]
  refine e3.trans ?_
  simp only [leValue_cons, leValue_nil]
  omega

variable {field : SchemaElement} {bytes : List UInt8} {bs : List UInt8} {v : PValue}

theorem readLE32_eq (h : bs.length = 4) : (readLE32 bs 0).toNat = leValue bs := by
  match bs, h with
  | [b0, b1, b2, b3], _ => exact readLE32_toNat _ 0

theorem readLE64_eq (h : bs.length = 8) : (readLE64 bs 0).toNat = leValue bs := by
  match bs, h with
  | [b0, b1, b2, b3, b4, b5, b6, b7], _ =>
    have hlo := readLE32_toNat [b0, b1, b2, b3, b4, b5, b6, b7] 0
    have hhi := readLE32_toNat [b0, b1, b2, b3, b4, b5, b6, b7] 4
    have llo := (readLE32 [b0, b1, b2, b3, b4, b5, b6, b7] 0).toNat_lt
    have lhi := (readLE32 [b0, b1, b2, b3, b4, b5, b6, b7] (0 + 4)).toNat_lt
    have hsum : (readLE64 [b0, b1, b2, b3, b4, b5, b6, b7] 0).toNat
        = (readLE32 [b0, b1, b2, b3, b4, b5, b6, b7] 0).toUInt64.toNat
          + (readLE32 [b0, b1, b2, b3, b4, b5, b6, b7] (0 + 4)).toUInt64.toNat * 2 ^ 32 :=
      @toNat_or_shift _ _ 32 (by decide) (by simpa using llo) (by rw [UInt32.toNat_toUInt64]; omega)
    rw [hsum, UInt32.toNat_toUInt64, UInt32.toNat_toUInt64, hlo, hhi]
    simp only [List.getD_cons_zero, List.getD_cons_succ, leValue_cons, leValue_nil]
    omega

theorem toInt32_readLE32 (h : bs.length = 4) : (readLE32 bs 0).toInt32.toInt = signedLE bs := by
  rw [signedLE, h, ← readLE32_eq h]
  exact BitVec.toInt_eq_toNat_bmod _

theorem toInt64_readLE64 (h : bs.length = 8) : (readLE64 bs 0).toInt64.toInt = signedLE bs := by
  rw [signedLE, h, ← readLE64_eq h]
  exact BitVec.toInt_eq_toNat_bmod _

/-- The top byte of a two's complement carries the sign. -/
theorem bmod_top {m v b : Nat} (hv : v < m) (hb : b < 256) :
    ((v + m * b : Nat) : Int).bmod (m * 256) = (if decide (128 ≤ b) then -1 else 0) * ((m : Int) * 256) + (v + m * b : Nat) := by
  have htop : m * b ≤ m * 255 := Nat.mul_le_mul_left m (by omega)
  have hmod : ((v + m * b : Nat) : Int) % ((m * 256 : Nat) : Int) = (v + m * b : Nat) :=
    Int.emod_eq_of_lt (by omega) (by omega)
  rw [Int.bmod_def, hmod]
  by_cases h : 128 ≤ b
  · have hle : m * 128 ≤ m * b := Nat.mul_le_mul_left m h
    rw [if_neg (by omega), decide_eq_true h, if_pos rfl]
    push_cast
    ring
  · have hle : m * b ≤ m * 127 := Nat.mul_le_mul_left m (by omega)
    rw [if_pos (by omega), decide_eq_false h, if_neg (by decide), zero_mul, zero_add]

theorem foldl_bytes (bs : List UInt8) (n : Int) :
    bs.foldl (fun n byte => n * 256 + (byte.toNat : Int)) n = n * 256 ^ bs.length + leValue bs.reverse := by
  induction bs generalizing n with
  | nil => simp
  | cons b bs ih =>
    rw [List.foldl_cons, ih, List.reverse_cons, leValue_append, List.length_cons, List.length_reverse, leValue_cons,
      leValue_nil]
    push_cast
    ring

theorem decodeDecimalInteger_eq {n : Int} (h : decodeDecimalInteger bs = some n) :
    bs ≠ [] ∧ n = signedBE bs := by
  cases bs with
  | nil => cases h
  | cons b bs =>
    refine ⟨List.cons_ne_nil b bs, ?_⟩
    have hn := (Option.some.inj h).symm
    rw [foldl_bytes, List.length_cons] at hn
    have hlow : leValue bs.reverse < 256 ^ bs.length := by
      have := leValue_lt bs.reverse
      rwa [List.length_reverse] at this
    have hval : leValue (b :: bs).reverse = leValue bs.reverse + 256 ^ bs.length * b.toNat := by
      rw [List.reverse_cons, leValue_append, List.length_reverse, leValue_cons, leValue_nil, Nat.mul_zero, Nat.add_zero]
    have hb := b.toNat_lt
    have hbit : b.toNat.testBit 7 = decide (128 ≤ b.toNat) := by
      rw [Nat.testBit_eq_decide_div_mod_eq, show 2 ^ 7 = 128 from rfl, decide_eq_decide]
      omega
    rw [hn, signedBE, hval, List.length_cons, hbit, pow_succ]
    exact (bmod_top hlow hb).symm

theorem encodeUtf8_of_decode {s : String} (h : decodeUtf8' bytes = some s) :
    encodeUtf8 s = bytes := by
  unfold decodeUtf8' String.fromUTF8? at h
  split at h
  · cases h
    rfl
  · cases h

/-! ## Halves -/

theorem toNat_half (w : UInt16) : (decide (w &&& 0x8000 ≠ 0)) = Ieee.binary16.negative w.toNat ∧
    (w >>> 10 &&& 0x1f).toNat = w.toNat / 2 ^ 10 % 32 ∧ (w &&& 0x3ff).toNat = w.toNat % 1024 := by
  refine ⟨?_, ?_, ?_⟩
  · have hbit : (w &&& 0x8000).toNat = (w.toNat.testBit 15).toNat * 2 ^ 15 := by
      rw [UInt16.toNat_and]
      exact Nat.and_two_pow w.toNat 15
    have hzero : w &&& 0x8000 = 0 ↔ (w &&& 0x8000).toNat = 0 := UInt16.toNat_inj.symm
    rw [Ieee.negative, decide_eq_decide, ne_eq, hzero, hbit, Nat.testBit_eq_decide_div_mod_eq]
    change _ ↔ w.toNat / 2 ^ 15 % 2 = 1
    by_cases h : w.toNat / 2 ^ 15 % 2 = 1
    · rw [decide_eq_true h]
      exact iff_of_true (by decide) h
    · rw [decide_eq_false h]
      exact iff_of_false (by decide) h
  · rw [UInt16.toNat_and, UInt16.toNat_shiftRight, Nat.shiftRight_eq_div_pow]
    exact Nat.and_two_pow_sub_one_eq_mod _ 5
  · rw [UInt16.toNat_and]
    exact Nat.and_two_pow_sub_one_eq_mod _ 10

theorem value_ofNat_encode {n : Bool} {s : Nat} {x : Int} (hs : s < 2048) (hx : -1000 ≤ x) (hx' : x ≤ 1000) :
    Ieee.binary64.value (UInt64.ofNat (Ieee.binary64.encode n s x)).toNat =
      some (Ieee.signed n ((s * 2 ^ x : ℚ) : WithTop ℚ)) := by
  have hlog : s ≠ 0 → s.log2 < 11 := fun h0 => (Nat.log2_lt h0).2 hs
  have hbias : Ieee.binary64.bias = 1023 := by decide
  obtain ⟨hval, hlt⟩ := Ieee.binary64.value_encode (n := n) (s := s) (x := x)
    (hs.trans (by decide)) (by decide) (by intro h0; rw [hbias]; omega)
    (by
      intro h0
      have := hlog h0
      rw [hbias]
      change _ < ((2048 : Nat) : Int) - 1
      omega)
  rw [UInt64.toNat_ofNat', Nat.mod_eq_of_lt (show _ < 2 ^ 64 from hlt), hval]

/-- **A half and its double are one number.** -/
theorem value_float16ToDouble (w : UInt16) :
    Ieee.binary64.value (float16ToDouble w).toNat = Ieee.binary16.value w.toNat := by
  obtain ⟨hneg, hex, hmant⟩ := toNat_half w
  generalize hE : w.toNat / 2 ^ 10 % 32 = E at hex
  generalize hF : w.toNat % 1024 = F at hmant
  generalize hn : Ieee.binary16.negative w.toNat = n at hneg
  have hFlt : F < 2 ^ Ieee.binary16.fractionBits := by change F < 1024; omega
  have hmag : Ieee.binary16.magnitude w.toNat = E * 2 ^ Ieee.binary16.fractionBits + F := by
    change w.toNat % 32768 = E * 1024 + F
    omega
  have hinf : Ieee.binary16.infinity = 31 * 2 ^ Ieee.binary16.fractionBits := by decide
  have hvalue : Ieee.binary16.value w.toNat =
      if 31 * 2 ^ Ieee.binary16.fractionBits < E * 2 ^ Ieee.binary16.fractionBits + F then none
      else some (Ieee.signed n (Ieee.binary16.absolute (E * 2 ^ Ieee.binary16.fractionBits + F))) := by
    rw [Ieee.value, hmag, hn, hinf]
  have hfinite : E < 31 → Ieee.binary16.value w.toNat =
      some (Ieee.signed n (Ieee.binary16.finite (E * 2 ^ Ieee.binary16.fractionBits + F) : ℚ)) := by
    intro hlt
    have hbelow : E * 2 ^ Ieee.binary16.fractionBits + F < 31 * 2 ^ Ieee.binary16.fractionBits := by
      change E * 1024 + F < 31 * 1024
      omega
    rw [hvalue, if_neg (Nat.not_lt.2 hbelow.le), Ieee.absolute, hinf, if_pos hbelow]
  have hElt : E < 32 := by omega
  simp only [float16ToDouble, hneg, hex, hmant]
  by_cases h0 : E = 0
  · -- zeros and subnormals
    subst h0
    rw [if_pos rfl, value_ofNat_encode (by omega) (by omega) (by omega), hfinite (by omega), Nat.zero_mul,
      Nat.zero_add, Ieee.finite_subnormal _ hFlt]
    rfl
  rw [if_neg h0]
  by_cases h31 : E = 31
  · subst h31
    rw [if_pos rfl, hvalue]
    by_cases hF0 : F = 0
    · subst hF0
      rw [if_pos rfl, Nat.add_zero, if_neg (lt_irrefl _), Ieee.absolute, hinf, if_neg (lt_irrefl _)]
      cases n with
      | false => exact Ieee.binary64.value_infinity false
      | true => exact Ieee.binary64.value_infinity true
    · rw [if_neg hF0, if_pos (by omega)]
      exact if_pos (by decide)
  rw [if_neg h31, value_ofNat_encode (by omega) (by omega) (by omega), hfinite (by omega),
    Ieee.finite_normal _ h0 hFlt]
  have hscale : (E : Int) - Ieee.binary16.bias - Ieee.binary16.fractionBits = E - 25 := by
    change (E : Int) - 15 - 10 = E - 25
    omega
  rw [hscale]
  rfl

/-! ## Decoded bounds -/

theorem unscaled_meaning {n scale : Int}
    (hr : reading field = .decimal scale) (h : decodePValueForSchema.unscaled field bytes = some n) :
    meaning field bytes = some (scaled n scale) := by
  unfold decodePValueForSchema.unscaled at h
  rw [meaning, hr]
  split at h
  case h_1 ht =>
    split at h
    · rename_i hlen
      cases h
      rw [ht, toInt32_readLE32 hlen]
      exact if_pos hlen
    · cases h
  case h_2 ht =>
    split at h
    · rename_i hlen
      cases h
      rw [ht, toInt64_readLE64 hlen]
      exact if_pos hlen
    · cases h
  case h_3 ht =>
    obtain ⟨hne, rfl⟩ := decodeDecimalInteger_eq h
    rw [ht]
    exact if_pos hne
  case h_4 ht =>
    obtain ⟨hne, rfl⟩ := decodeDecimalInteger_eq h
    rw [ht]
    exact if_pos hne
  case h_5 => cases h

theorem decimal_meaning {precision scale : Int}
    (hr : reading field = .decimal scale) (h : decodePValueForSchema.decimal field bytes precision scale = some v) :
    ∃ x, v.meaning = some x ∧ meaning field bytes = some x := by
  unfold decodePValueForSchema.decimal at h
  split at h
  · obtain ⟨n, hn, rfl⟩ := Option.map_eq_some_iff.1 h
    exact ⟨_, rfl, unscaled_meaning hr hn⟩
  · cases h

theorem isNaN_false {f : Ieee} {bits : Nat} (h : ¬isNaN f bits = true) : ∃ x, f.value bits = some x := by
  rw [isNaN, Option.isNone_iff_eq_none] at h
  exact Option.ne_none_iff_exists'.1 h

theorem decodePValueLE_meaning {ty : ParquetType}
    (h : decodePValueLE ty bytes = some v) : ∃ x, v.meaning = some x ∧ readAs ty .carrier bytes = some x := by
  cases ty with
  | boolean =>
    rcases bytes with _ | ⟨b, _ | ⟨c, bs⟩⟩
    · cases h
    · obtain ⟨hb, h⟩ := Option.ite_none_right_eq_some.1 h
      cases h
      exact ⟨_, rfl, if_pos hb⟩
    · cases h
  | int32 =>
    obtain ⟨hlen, h⟩ := Option.ite_none_right_eq_some.1 h
    cases h
    refine ⟨_, rfl, ?_⟩
    rw [toInt32_readLE32 hlen]
    exact if_pos hlen
  | int64 =>
    obtain ⟨hlen, h⟩ := Option.ite_none_right_eq_some.1 h
    cases h
    refine ⟨_, rfl, ?_⟩
    rw [toInt64_readLE64 hlen]
    exact if_pos hlen
  | int96 => cases h
  | float =>
    obtain ⟨hlen, h⟩ := Option.ite_none_right_eq_some.1 h
    obtain ⟨hnan, h⟩ := Option.ite_none_left_eq_some.1 h
    cases h
    obtain ⟨x, hx⟩ := isNaN_false hnan
    refine ⟨.number x, by simp [PValue.meaning, hx], ?_⟩
    rw [readLE32_eq hlen] at hx
    simp [readAs, hlen, hx]
  | double =>
    obtain ⟨hlen, h⟩ := Option.ite_none_right_eq_some.1 h
    obtain ⟨hnan, h⟩ := Option.ite_none_left_eq_some.1 h
    cases h
    obtain ⟨x, hx⟩ := isNaN_false hnan
    refine ⟨.number x, by simp [PValue.meaning, hx], ?_⟩
    rw [readLE64_eq hlen] at hx
    simp [readAs, hlen, hx]
  | byteArray =>
    cases h
    exact ⟨_, rfl, rfl⟩
  | fixedLenByteArray =>
    cases h
    exact ⟨_, rfl, rfl⟩

/-- Neither a decimal nor a half by its newer annotation. -/
def Plain (field : SchemaElement) : Prop :=
  field.seLogicalType ≠ some .float16 ∧ ∀ precision scale, field.seLogicalType ≠ some (.decimal precision scale)

theorem reading_unsigned (hp : Plain field) (h : field.unsigned = true) :
    reading field = .unsigned ∨ reading field = .carrier := by
  unfold reading
  split
  case h_1 hl => exact absurd hl hp.1
  case h_2 hl => exact absurd hl (hp.2 _ _)
  case h_3 => exact Or.inl rfl
  case h_4 => exact Or.inr rfl
  case h_5 hl =>
    simp only [SchemaElement.unsigned, hl, unsignedConverted, List.mem_cons, List.not_mem_nil, or_false,
      decide_eq_true_eq] at h
    rcases h with h | h | h | h <;> simp [h]

theorem reading_signed (hp : Plain field) (h : ¬field.unsigned = true) :
    reading field = .carrier ∨ reading field = .decimal 0 ∧ field.seLogicalType = none ∧
      field.seConvertedType = some .decimal := by
  unfold reading
  split
  case h_1 hl => exact absurd hl hp.1
  case h_2 hl => exact absurd hl (hp.2 _ _)
  case h_3 hl => exact absurd (by simp [SchemaElement.unsigned, hl]) h
  case h_4 => exact Or.inl rfl
  case h_5 hl =>
    split
    case h_1 hc => exact absurd (by simp [SchemaElement.unsigned, hl, hc, unsignedConverted]) h
    case h_2 hc => exact absurd (by simp [SchemaElement.unsigned, hl, hc, unsignedConverted]) h
    case h_3 hc => exact absurd (by simp [SchemaElement.unsigned, hl, hc, unsignedConverted]) h
    case h_4 hc => exact absurd (by simp [SchemaElement.unsigned, hl, hc, unsignedConverted]) h
    case h_5 hc => exact Or.inr ⟨rfl, hl, hc⟩
    case h_6 => exact Or.inl rfl

/-- A bound is what its bytes stand for; the bytes of a decimal without a scale stay bytes. -/
def Faithful (field : SchemaElement) (bytes : List UInt8) (v : PValue) : Prop :=
  (∃ x, v.meaning = some x ∧ meaning field bytes = some x) ∨
    (∃ bs, v = .binary bs) ∧ reading field = .decimal 0

theorem scaled_zero (n : Int) : scaled n 0 = rational n := by simp [scaled]

theorem whole_faithful {ty : ParquetType}
    (ht : field.seType = some ty) (hc : ty = .int32 ∨ ty = .int64 ∨ ty = .byteArray ∨ ty = .fixedLenByteArray)
    (hr : reading field = .decimal 0) (h : decodePValueLE ty bytes = some v) : Faithful field bytes v := by
  have hm : meaning field bytes = readAs ty (.decimal 0) bytes := by rw [meaning, ht, hr]; rfl
  obtain ⟨x, hv, hx⟩ := decodePValueLE_meaning h
  rcases hc with rfl | rfl | rfl | rfl
  · obtain ⟨hlen, h'⟩ := Option.ite_none_right_eq_some.1 hx
    refine Or.inl ⟨x, hv, ?_⟩
    rw [hm, ← Option.some.inj h', ← scaled_zero]
    exact if_pos hlen
  · obtain ⟨hlen, h'⟩ := Option.ite_none_right_eq_some.1 hx
    refine Or.inl ⟨x, hv, ?_⟩
    rw [hm, ← Option.some.inj h', ← scaled_zero]
    exact if_pos hlen
  · cases h
    exact Or.inr ⟨⟨_, rfl⟩, hr⟩
  · cases h
    exact Or.inr ⟨⟨_, rfl⟩, hr⟩

theorem carrier_faithful (hp : Plain field)
    (hdef : hasDefinedStatisticsOrder field = true) (hm : ¬Misread field)
    (h : decodePValueForSchema.carrier field bytes = some v) : Faithful field bytes v := by
  unfold decodePValueForSchema.carrier at h
  split at h
  · rename_i hu
    have hr : (field.seType = some .int32 ∨ field.seType = some .int64) → reading field = .unsigned :=
      fun ht => (reading_unsigned hp hu).resolve_right fun hc => hm ⟨hdef, hu, hc, ht⟩
    split at h
    case h_1 ht =>
      obtain ⟨hlen, h⟩ := Option.ite_none_right_eq_some.1 h
      cases h
      refine Or.inl ⟨_, rfl, ?_⟩
      rw [meaning, ht, hr (Or.inl ht), UInt32.toNat_toUInt64, readLE32_eq hlen]
      exact if_pos hlen
    case h_2 ht =>
      obtain ⟨hlen, h⟩ := Option.ite_none_right_eq_some.1 h
      cases h
      refine Or.inl ⟨_, rfl, ?_⟩
      rw [meaning, ht, hr (Or.inr ht), readLE64_eq hlen]
      exact if_pos hlen
    case h_3 => cases h
  rename_i hu
  split at h
  · -- text
    rename_i ht
    obtain ⟨s, hs, rfl⟩ := Option.map_eq_some_iff.1 h
    rw [SchemaElement.text, Bool.and_eq_true] at ht
    have hty : field.seType = some .byteArray := of_decide_eq_true ht.1
    rcases reading_signed hp hu with hr | ⟨-, hl, hc⟩
    · refine Or.inl ⟨_, rfl, ?_⟩
      rw [meaning, hty, hr, encodeUtf8_of_decode hs]
      rfl
    · simp [hl, hc] at ht
  · obtain ⟨ty, hty, h⟩ := Option.bind_eq_some_iff.1 h
    rcases reading_signed hp hu with hr | ⟨hr, hl, hc⟩
    · obtain ⟨x, hv, hx⟩ := decodePValueLE_meaning h
      exact Or.inl ⟨x, hv, by rw [meaning, hty, hr]; exact hx⟩
    · refine whole_faithful hty ?_ hr h
      have hcompat := (Bool.and_eq_true_iff.1 hdef).1
      simp only [hasCompatiblePhysicalType, hl, hc, hty, List.mem_cons, List.not_mem_nil, or_false,
        decide_eq_true_eq, Option.some.injEq] at hcompat
      exact hcompat

theorem half_faithful {b0 b1 : UInt8} (hdef : hasDefinedStatisticsOrder field = true)
    (hl : field.seLogicalType = some .float16)
    (hnan : ¬isNaN .binary64 (float16ToDouble (b0.toUInt16 ||| b1.toUInt16 <<< 8)).toNat = true) :
    Faithful field [b0, b1] (.double (float16ToDouble (b0.toUInt16 ||| b1.toUInt16 <<< 8))) := by
  obtain ⟨x, hx⟩ := isNaN_false hnan
  have hty : field.seType = some .fixedLenByteArray := by
    have hcompat := (Bool.and_eq_true_iff.1 hdef).1
    simp only [hasCompatiblePhysicalType, hl, SchemaElement.fixed, Bool.and_eq_true] at hcompat
    exact of_decide_eq_true hcompat.1
  have hr : reading field = .half := by rw [reading, hl]
  refine Or.inl ⟨.number x, by simp [PValue.meaning, hx], ?_⟩
  have hbits : (b0.toUInt16 ||| b1.toUInt16 <<< 8).toNat = leValue [b0, b1] := by
    have h0 := b0.toNat_lt
    have h1 := b1.toNat_lt
    rw [UInt16.toNat_or, UInt16.toNat_shiftLeft, UInt8.toNat_toUInt16, UInt8.toNat_toUInt16]
    change b0.toNat ||| b1.toNat <<< 8 % 2 ^ 16 = _
    rw [Nat.shiftLeft_eq, Nat.mod_eq_of_lt (by omega), Nat.or_comm, Nat.mul_comm,
      ← Nat.two_pow_add_eq_or_of_lt (by omega), leValue_cons, leValue_cons, leValue_nil]
    omega
  rw [value_float16ToDouble, hbits] at hx
  rw [meaning, hty, hr]
  simpa [readAs] using hx

/-- **Decoded bounds are what their bytes stand for**, unless the column is misread. -/
theorem decode_faithful (hm : ¬Misread field)
    (h : decodePValueForSchema field bytes = some v) : Faithful field bytes v := by
  unfold decodePValueForSchema at h
  split at h
  · cases h
  rename_i hdef
  rw [Bool.not_eq_true', Bool.not_eq_false] at hdef
  split at h
  case h_1 hl =>
    split at h
    · obtain ⟨hnan, h⟩ := Option.ite_none_left_eq_some.1 h
      cases h
      exact half_faithful hdef hl hnan
    · cases h
  case h_2 hl =>
    obtain ⟨-, h⟩ := Option.ite_none_left_eq_some.1 h
    exact carrier_faithful ⟨by simp [hl], by simp [hl]⟩ hdef hm h
  case h_3 hl => exact Or.inl (decimal_meaning (by rw [reading, hl]) h)
  case h_4 h16 hts hd => exact carrier_faithful ⟨h16, hd⟩ hdef hm h

end Wireform.Parquet

/-
  The hybrid format.

  A `Run` is one that the format allows; its bytes are a header and a payload.

  * `withHybridRun_bytes`: the reader finds a run at the head of a stream;
  * `packedValues_eq`, `repeatedValues_eq`: and reads the values that it stands for;
  * `decode_runs`: it reads any number of values from a stream of runs.
-/
import Mathlib.Data.Nat.Bitwise
import Wireform.Parquet.RLE

namespace Wireform.Parquet

/-! ## Runs -/

/-- The bit pattern of a value. -/
def bits (v : Int32) : Nat := v.toUInt32.toNat

theorem bits_lt (v : Int32) : bits v < 2 ^ 32 := v.toUInt32.toNat_lt

inductive Run (width : Nat) where
  | repeated (count : Nat) (value : Int32) (pos : 0 < count) (le : count ≤ maxRepeatedValues)
      (fits : bits value < 2 ^ width)
  | packed (groups : Nat) (fields : List Int32) (pos : 0 < groups) (le : groups ≤ maxPackedGroups)
      (length_eq : fields.length = groups * 8) (fits : ∀ v ∈ fields, bits v < 2 ^ width)

namespace Run

variable {width : Nat}

/-- What the run stands for, with the padding of a packed one. -/
def values : Run width → List Int32
  | repeated count value .. => List.replicate count value
  | packed _ fields .. => fields

def payload : Run width → List UInt8
  | repeated _ value .. => leBytes ((width + 7) / 8) (bits value)
  | packed groups fields .. => leBytes (groups * width) (Nat.ofDigits (2 ^ width) (fields.map bits))

def header : Run width → Nat
  | repeated count .. => 2 * count
  | packed groups .. => 2 * groups + 1

attribute [grind =] header

def bytes (r : Run width) : List UInt8 := leb128 r.header ++ r.payload

/-- What the reader makes of the run at the head of a stream. -/
def found (r : Run width) (rest : List UInt8) (remaining : Nat) : HybridRun :=
  match r with
  | repeated .. => .repeated (r.payload ++ rest) rest (min remaining r.values.length)
  | packed .. => .packed (r.payload ++ rest) rest (min remaining r.values.length)

theorem header_lt (r : Run width) : r.header < 2 ^ 32 := by
  cases r with
  | repeated count value pos le fits =>
    unfold maxRepeatedValues at le
    change 2 * count < 2 ^ 32
    omega
  | packed groups fields pos le length_eq fits =>
    unfold maxPackedGroups at le
    change 2 * groups + 1 < 2 ^ 32
    omega

theorem bytes_ne_nil (r : Run width) : r.bytes ≠ [] := by
  intro h
  have hpos := length_leb128_pos r.header
  rw [(List.append_eq_nil_iff.1 h).1] at hpos
  exact absurd hpos (lt_irrefl 0)

end Run

/-! ## Headers -/

theorem toNat_low_bits (b : UInt8) : (b &&& 0x7f).toUInt64.toNat = b.toNat % 128 := by
  rw [UInt8.toNat_toUInt64, UInt8.toNat_and]
  exact Nat.and_two_pow_sub_one_eq_mod b.toNat 7

theorem marked (b : UInt8) : b &&& 0x80 ≠ 0 ↔ 128 ≤ b.toNat := by
  have hb := b.toNat_lt
  have hbit : (b &&& 0x80).toNat = (b.toNat.testBit 7).toNat * 128 := by
    rw [UInt8.toNat_and]
    exact Nat.and_two_pow b.toNat 7
  have hzero : b &&& 0x80 = 0 ↔ (b &&& 0x80).toNat = 0 := UInt8.toNat_inj.symm
  rw [ne_eq, hzero, hbit, Nat.testBit_eq_decide_div_mod_eq, show 2 ^ 7 = 128 from rfl]
  by_cases h : b.toNat / 128 % 2 = 1
  · rw [decide_eq_true h, Bool.toNat_true]
    omega
  · rw [decide_eq_false h, Bool.toNat_false]
    omega

/-- The reader's header loop, behind `k` bytes. -/
theorem varint_leb128 {width remaining : Nat} {rest : List UInt8} {n k : Nat} {acc : UInt64} (hk : k ≤ 9)
    (hacc : acc.toNat < 2 ^ (7 * k)) (hn : n * 2 ^ (7 * k) < 2 ^ 64) :
    withHybridRun.varint width remaining (leb128 n ++ rest) acc (7 * k) =
      withHybridRun.run width rest (UInt64.ofNat (acc.toNat + n * 2 ^ (7 * k))) remaining := by
  induction n using Nat.strong_induction_on generalizing k acc with
  | _ n ih =>
    by_cases hs : n < 128
    · have hb : (UInt8.ofNat n).toNat = n := UInt8.toNat_ofNat_of_lt' (by change n < 256; omega)
      have hlow : ((UInt8.ofNat n) &&& 0x7f).toUInt64.toNat = n := by
        rw [toNat_low_bits, hb, Nat.mod_eq_of_lt hs]
      have hvalue : acc ||| ((UInt8.ofNat n) &&& 0x7f).toUInt64 <<< UInt64.ofNat (7 * k) =
          UInt64.ofNat (acc.toNat + n * 2 ^ (7 * k)) := by
        apply UInt64.toNat_inj.1
        rw [toNat_or_shift (by omega) hacc (by rwa [hlow]), hlow]
        refine (UInt64.toNat_ofNat_of_lt' ?_).symm
        rw [← hlow, ← toNat_or_shift (by omega) hacc (by rwa [hlow])]
        exact UInt64.toNat_lt _
      have hover : ¬(7 * k = 63 ∧ 1 < UInt8.ofNat n) := by
        rintro ⟨h63, h1⟩
        have h1' : 1 < n := by
          have : (1 : UInt8).toNat < (UInt8.ofNat n).toNat := h1
          rwa [hb] at this
        rw [h63] at hn
        omega
      have hlast : ¬(UInt8.ofNat n &&& 0x80 ≠ 0) := by
        rw [marked, hb]
        omega
      rw [leb128_small hs, List.singleton_append, withHybridRun.varint]
      simp only [hover, hlast, if_false, hvalue]
    · have hb : (UInt8.ofNat (n % 128 + 128)).toNat = n % 128 + 128 :=
        UInt8.toNat_ofNat_of_lt' (by change n % 128 + 128 < 256; omega)
      have hlow : ((UInt8.ofNat (n % 128 + 128)) &&& 0x7f).toUInt64.toNat = n % 128 := by
        rw [toNat_low_bits, hb]
        omega
      have hpow : 2 ^ (7 * (k + 1)) = 128 * 2 ^ (7 * k) := by
        rw [Nat.mul_succ, pow_add]
        omega
      have hdiv : n / 128 * 2 ^ (7 * (k + 1)) + n % 128 * 2 ^ (7 * k) = n * 2 ^ (7 * k) := by
        rw [hpow, ← Nat.mul_assoc, ← Nat.add_mul]
        congr 1
        omega
      have hk' : k + 1 ≤ 9 := by
        by_contra hno
        have h9 : k = 9 := by omega
        subst h9
        have : 128 * 2 ^ 63 ≤ n * 2 ^ 63 := Nat.mul_le_mul_right _ (by omega)
        omega
      have hsmall : n % 128 * 2 ^ (7 * k) < 2 ^ 64 := by omega
      have hstep := toNat_or_shift (w := ((UInt8.ofNat (n % 128 + 128)) &&& 0x7f).toUInt64) (by omega : 7 * k < 64) hacc
        (by rwa [hlow])
      rw [hlow] at hstep
      have hacc' : acc.toNat + n % 128 * 2 ^ (7 * k) < 2 ^ (7 * (k + 1)) := by
        have : n % 128 * 2 ^ (7 * k) ≤ 127 * 2 ^ (7 * k) := Nat.mul_le_mul_right _ (by omega)
        omega
      have hover : ¬(7 * k = 63 ∧ 1 < UInt8.ofNat (n % 128 + 128)) := fun h => by omega
      have hmore : UInt8.ofNat (n % 128 + 128) &&& 0x80 ≠ 0 := by
        rw [marked, hb]
        omega
      rw [leb128_large (by omega), List.cons_append, withHybridRun.varint]
      simp only [hover, if_false]
      rw [if_pos hmore, ← Nat.mul_succ, ih (n / 128) (by omega) hk' (by rw [hstep]; exact hacc') (by omega), hstep]
      congr 2
      omega

theorem header_even (c : Nat) (h : c < 2 ^ 63) : (UInt64.ofNat (2 * c) &&& 1 = 0) ∧ (UInt64.ofNat (2 * c) >>> 1).toNat = c := by
  have hv : (UInt64.ofNat (2 * c)).toNat = 2 * c := UInt64.toNat_ofNat_of_lt' (by change 2 * c < 2 ^ 64; omega)
  constructor
  · apply UInt64.toNat_inj.1
    rw [UInt64.toNat_and, hv]
    exact (Nat.and_two_pow_sub_one_eq_mod (2 * c) 1).trans (show 2 * c % 2 = 0 by omega)
  · rw [UInt64.toNat_shiftRight, hv, Nat.shiftRight_eq_div_pow]
    change 2 * c / 2 = c
    omega

theorem header_odd (g : Nat) (h : g < 2 ^ 63) :
    (UInt64.ofNat (2 * g + 1) &&& 1 ≠ 0) ∧ (UInt64.ofNat (2 * g + 1) >>> 1).toNat = g := by
  have hv : (UInt64.ofNat (2 * g + 1)).toNat = 2 * g + 1 := UInt64.toNat_ofNat_of_lt' (by change 2 * g + 1 < 2 ^ 64; omega)
  constructor
  · intro h0
    have h1 := congrArg UInt64.toNat h0
    rw [UInt64.toNat_and, hv] at h1
    have h2 := (Nat.and_two_pow_sub_one_eq_mod (2 * g + 1) 1).symm.trans h1
    change (2 * g + 1) % 2 = 0 at h2
    omega
  · rw [UInt64.toNat_shiftRight, hv, Nat.shiftRight_eq_div_pow]
    change (2 * g + 1) / 2 = g
    omega

/-- **The reader finds a run.** -/
theorem withHybridRun_bytes {width : Nat} (hwidth : 0 < width) (r : Run width) (rest : List UInt8) (remaining : Nat) :
    withHybridRun width (r.bytes ++ rest) remaining = r.found rest remaining := by
  have hlt := r.header_lt
  have hvarint : withHybridRun width (r.bytes ++ rest) remaining =
      withHybridRun.run width (r.payload ++ rest) (UInt64.ofNat r.header) remaining := by
    have h := @varint_leb128 width remaining (r.payload ++ rest) r.header 0 0 (by omega) (by decide) (by omega)
    unfold withHybridRun Run.bytes
    rw [List.append_assoc]
    refine h.trans ?_
    congr 2
    rw [show (0 : UInt64).toNat = 0 from rfl]
    omega
  rw [hvarint]
  unfold withHybridRun.run
  cases r with
  | repeated count value pos le fits =>
    obtain ⟨heven, hcount⟩ := header_even count (by unfold maxRepeatedValues at le; omega)
    have hpad : (leBytes ((width + 7) / 8) (bits value)).length = (width + 7) / 8 := length_leBytes _ _
    change (if UInt64.ofNat (2 * count) &&& 1 ≠ 0 then _ else _) = _
    rw [if_neg (not_not.2 heven)]
    change (if (UInt64.ofNat (2 * count) >>> 1).toNat = 0 then _ else _) = _
    simp only [Run.header, hcount]
    rw [if_neg (by omega), if_neg (by unfold maxRepeatedValues at le; omega),
      if_neg (by simp only [Run.payload, List.length_append, hpad]; omega)]
    simp only [Run.found, Run.payload, Run.values, List.length_replicate]
    rw [List.drop_left' hpad]
    congr 1
    split <;> omega
  | packed groups fields pos le length_eq fits =>
    obtain ⟨hodd, hgroups⟩ := header_odd groups (by unfold maxPackedGroups at le; omega)
    have hpad : (leBytes (groups * width) (Nat.ofDigits (2 ^ width) (fields.map bits))).length = groups * width :=
      length_leBytes _ _
    change (if UInt64.ofNat (2 * groups + 1) &&& 1 ≠ 0 then _ else _) = _
    rw [if_pos hodd]
    simp only [Run.header, hgroups]
    have hroom : groups ≤ (groups * width + rest.length) / width := by
      rw [Nat.le_div_iff_mul_le hwidth]
      omega
    rw [if_neg (by omega), if_neg (by unfold maxPackedGroups at le; omega),
      if_neg (by simp only [Run.payload, List.length_append, hpad]; omega)]
    simp only [Run.found, Run.payload, Run.values, length_eq]
    rw [List.drop_left' hpad]
    congr 1
    split <;> omega

/-! ## Values -/

theorem bits_injective : Function.Injective bits := fun ⟨_⟩ ⟨_⟩ h => congrArg Int32.ofUInt32 (UInt32.toNat_inj.1 h)

theorem bits_toInt32 (w : UInt32) : bits w.toInt32 = w.toNat := rfl

theorem readBits_go {bytes : List UInt8} {i : Nat} {acc : UInt64} (hi : i + bytes.length ≤ 8)
    (hacc : acc.toNat < 256 ^ i) : (readBits.go bytes i acc).toNat = acc.toNat + 256 ^ i * leValue bytes := by
  induction bytes generalizing i acc with
  | nil => exact (Nat.add_zero _).symm
  | cons b bs ih =>
    rw [List.length_cons] at hi
    have hpow : (256 : Nat) ^ i = 2 ^ (i * 8) := by rw [Nat.mul_comm, pow_mul]; rfl
    have hb := b.toNat_lt
    have hfit : b.toUInt64.toNat * 2 ^ (i * 8) < 2 ^ 64 := by
      have h8 : 2 ^ 8 * 2 ^ (i * 8) ≤ 2 ^ 64 := by
        rw [← pow_add]
        exact Nat.pow_le_pow_right (by decide) (by omega)
      have hpos := Nat.two_pow_pos (i * 8)
      rw [UInt8.toNat_toUInt64]
      nlinarith
    have hstep := toNat_or_shift (by omega : i * 8 < 64) (by rwa [← hpow]) hfit
    rw [UInt8.toNat_toUInt64, ← hpow] at hstep
    have hacc' : acc.toNat + b.toNat * 256 ^ i < 256 ^ (i + 1) := by
      rw [pow_succ]
      nlinarith
    rw [readBits.go, ih (by omega) (by rw [hstep]; exact hacc'), hstep, leValue_cons, pow_succ]
    ring

theorem toNat_readMask {width : Nat} (hw : width ≤ 32) : (readMask width).toNat = 2 ^ width - 1 := by
  have hshift : (UInt64.ofNat width).toNat % 64 = width := by
    rw [UInt64.toNat_ofNat']
    omega
  have hle : 2 ^ width ≤ 2 ^ 32 := Nat.pow_le_pow_right (by decide) hw
  have hpos := Nat.two_pow_pos width
  have hone : (1 <<< UInt64.ofNat width : UInt64).toNat = 2 ^ width := by
    rw [UInt64.toNat_shiftLeft, hshift, Nat.shiftLeft_eq]
    change 1 * 2 ^ width % 2 ^ 64 = _
    omega
  unfold readMask
  rw [UInt64.toNat_sub_of_le _ _ (by rw [UInt64.le_iff_toNat_le, hone]; exact hpos), hone]
  rfl

/-- A value that is read is a field of what stands there. -/
theorem bits_readValue {width bit : Nat} (hw : width ≤ 32) (hbit : bit < 8) (bytes : List UInt8) :
    bits (readValue width bytes bit) = field width bit (leValue bytes) := by
  have hlen : (bytes.take ((bit + width + 7) / 8)).length ≤ 8 := by
    rw [List.length_take]
    omega
  have hgo := @readBits_go (bytes.take ((bit + width + 7) / 8)) 0 0 (by omega) (by decide)
  have hshift : (UInt64.ofNat bit).toNat % 64 = bit := by
    rw [UInt64.toNat_ofNat']
    omega
  have hraw : (readBits bytes bit width).toNat = leValue bytes % 2 ^ (8 * ((bit + width + 7) / 8)) / 2 ^ bit := by
    unfold readBits
    rw [UInt64.toNat_shiftRight, hshift, Nat.shiftRight_eq_div_pow, hgo, leValue_take, pow_mul]
    simp
  have hvalue : (readBits bytes bit width &&& readMask width).toNat = field width bit (leValue bytes) := by
    rw [UInt64.toNat_and, toNat_readMask hw, Nat.and_two_pow_sub_one_eq_mod, hraw]
    exact field_mod (by omega) _
  have hlt : field width bit (leValue bytes) < 2 ^ 32 :=
    (field_lt _ _ _).trans_le (Nat.pow_le_pow_right (by decide) hw)
  unfold readValue
  rw [bits_toInt32, UInt64.toNat_toUInt32, hvalue, Nat.mod_eq_of_lt hlt]

/-- The first fields of a number, from a bit on. -/
def fields (width bit n value : Nat) : List Nat := (List.range n).map fun i => field width (bit + i * width) value

theorem fields_add (width bit m n value : Nat) :
    fields width bit (m + n) value = fields width bit m value ++ fields width (bit + m * width) n value := by
  unfold fields
  rw [List.range_add, List.map_append, List.map_map]
  congr 1
  refine List.map_congr_left fun i _ => ?_
  rw [Function.comp_apply, Nat.add_mul, Nat.add_assoc]

theorem fields_div (width bit j n value : Nat) : fields width bit n (value / 2 ^ j) = fields width (j + bit) n value := by
  unfold fields
  refine List.map_congr_left fun i _ => ?_
  rw [field_div, Nat.add_assoc]

theorem fields_mod {width bit n m : Nat} (h : bit + n * width ≤ m) (value : Nat) :
    fields width bit n (value % 2 ^ m) = fields width bit n value := by
  unfold fields
  refine List.map_congr_left fun i hi => ?_
  have hin : (i + 1) * width ≤ n * width := Nat.mul_le_mul_right _ (List.mem_range.1 hi)
  rw [Nat.succ_mul] at hin
  exact field_mod (by omega) _

theorem bits_values {width n bit : Nat} (hw : width ≤ 32) (hbit : bit < 8) (bytes : List UInt8) :
    (values width n bytes bit).map bits = fields width bit n (leValue bytes) := by
  induction n generalizing bytes bit with
  | zero => rfl
  | succ n ih =>
    rw [values, List.map_cons, bits_readValue hw hbit, ih (Nat.mod_lt _ (by decide)), leValue_drop,
      show (256 : Nat) = 2 ^ 8 from rfl, ← pow_mul, fields_div, Nat.div_add_mod, Nat.add_comm n 1, fields_add]
    simp [fields]

/-! ### The fields of a byte -/

theorem toNat_byteField {b k m : UInt8} {w i : Nat} (hm : m.toNat = 2 ^ w - 1) (hk : k.toNat % 8 = i) :
    bits (b >>> k &&& m).toUInt32.toInt32 = field w i b.toNat := by
  rw [bits_toInt32, UInt8.toNat_toUInt32, UInt8.toNat_and, UInt8.toNat_shiftRight, hm, hk,
    Nat.and_two_pow_sub_one_eq_mod, Nat.shiftRight_eq_div_pow]
  rfl

theorem toNat_lowField {b m : UInt8} {w : Nat} (hm : m.toNat = 2 ^ w - 1) :
    bits (b &&& m).toUInt32.toInt32 = field w 0 b.toNat := by
  rw [bits_toInt32, UInt8.toNat_toUInt32, UInt8.toNat_and, hm, Nat.and_two_pow_sub_one_eq_mod]
  unfold field
  rw [pow_zero, Nat.div_one]

theorem toNat_highField {b k : UInt8} {w i : Nat} (hk : k.toNat % 8 = i) (hw : i + w = 8) :
    bits (b >>> k).toUInt32.toInt32 = field w i b.toNat := by
  have hb : b.toNat < 2 ^ i * 2 ^ w := by
    rw [← pow_add, hw]
    exact b.toNat_lt
  rw [bits_toInt32, UInt8.toNat_toUInt32, UInt8.toNat_shiftRight, hk, Nat.shiftRight_eq_div_pow]
  exact (Nat.mod_eq_of_lt (Nat.div_lt_of_lt_mul hb)).symm

theorem bits_byteFields {width : Nat} (hw : width = 1 ∨ width = 2 ∨ width = 4 ∨ width = 8) (b : UInt8) :
    (byteFields width b).map bits = fields width 0 (8 / width) b.toNat := by
  rcases hw with rfl | rfl | rfl | rfl
  · change [_, _, _, _, _, _, _, _] = [field 1 0 b.toNat, field 1 1 b.toNat, field 1 2 b.toNat, field 1 3 b.toNat,
      field 1 4 b.toNat, field 1 5 b.toNat, field 1 6 b.toNat, field 1 7 b.toNat]
    simp only [List.cons.injEq, and_true]
    exact ⟨toNat_lowField rfl, toNat_byteField rfl rfl, toNat_byteField rfl rfl, toNat_byteField rfl rfl,
      toNat_byteField rfl rfl, toNat_byteField rfl rfl, toNat_byteField rfl rfl, toNat_highField rfl rfl⟩
  · change [_, _, _, _] = [field 2 0 b.toNat, field 2 2 b.toNat, field 2 4 b.toNat, field 2 6 b.toNat]
    simp only [List.cons.injEq, and_true]
    exact ⟨toNat_lowField rfl, toNat_byteField rfl rfl, toNat_byteField rfl rfl, toNat_highField rfl rfl⟩
  · change [_, _] = [field 4 0 b.toNat, field 4 4 b.toNat]
    simp only [List.cons.injEq, and_true]
    exact ⟨toNat_lowField rfl, toNat_highField rfl rfl⟩
  · change [b.toNat] = [field 8 0 b.toNat]
    unfold field
    rw [pow_zero, Nat.div_one, Nat.mod_eq_of_lt b.toNat_lt]

/-- Decoding the complete bytes at once changes nothing. -/
theorem bits_bitsBytes {width : Nat} (hw : width = 1 ∨ width = 2 ∨ width = 4 ∨ width = 8) (left : Nat) (bytes : List UInt8) :
    (bitsBytes width left bytes).map bits = fields width 0 left (leValue bytes) := by
  have hle : width ≤ 32 := by omega
  induction bytes generalizing left with
  | nil => exact bits_values hle (by decide) []
  | cons b bytes ih =>
    unfold bitsBytes
    split
    · exact bits_values hle (by decide) _
    · rename_i hmany
      have hbyte : 8 / width * width = 8 := by rcases hw with rfl | rfl | rfl | rfl <;> rfl
      have hb := b.toNat_lt
      have hlow : (b.toNat + 256 * leValue bytes) % 2 ^ 8 = b.toNat := by omega
      have hhigh : (b.toNat + 256 * leValue bytes) / 2 ^ 8 = leValue bytes := by omega
      have hsplit : fields width 0 left (b.toNat + 256 * leValue bytes) =
          fields width 0 (8 / width) b.toNat ++ fields width 0 (left - 8 / width) (leValue bytes) := by
        obtain ⟨n, rfl⟩ := Nat.exists_eq_add_of_le (Nat.not_lt.1 hmany)
        rw [fields_add, hbyte, Nat.add_sub_cancel_left]
        congr 1
        · rw [← fields_mod (m := 8) (by omega), hlow]
        · rw [Nat.zero_add, ← Nat.add_zero 8, ← fields_div, hhigh]
      rw [List.map_append, bits_byteFields hw, ih, leValue_cons, hsplit]

theorem bits_packedValues {width : Nat} (hw : width ≤ 32) (emit : Nat) (payload : List UInt8) :
    (packedValues width emit payload).map bits = fields width 0 emit (leValue payload) := by
  unfold packedValues
  split
  · exact bits_bitsBytes (Or.inl rfl) _ _
  · exact bits_bitsBytes (Or.inr (Or.inl rfl)) _ _
  · exact bits_bitsBytes (Or.inr (Or.inr (Or.inl rfl))) _ _
  · exact bits_bitsBytes (Or.inr (Or.inr (Or.inr rfl))) _ _
  · exact bits_values hw (by decide) payload

/-! ### The values of a run -/

/-- The fields of digits are the digits. -/
theorem fields_ofDigits {width n : Nat} {ds : List Nat} (hds : ∀ d ∈ ds, d < 2 ^ width) (hn : n ≤ ds.length) :
    fields width 0 n (Nat.ofDigits (2 ^ width) ds) = ds.take n := by
  unfold fields
  refine List.ext_getElem (by simp [hn]) fun i hi hi' => ?_
  rw [List.length_map, List.length_range] at hi
  have hget : ds[i]? = some ds[i] := List.getElem?_eq_getElem (by omega)
  simp only [List.getElem_map, List.getElem_range, List.getElem_take, Nat.zero_add]
  exact field_ofDigits hds hget

theorem packedValues_eq {width : Nat} (hw : width ≤ 32) (groups : Nat) {fs : List Int32}
    (hl : fs.length = groups * 8) (hfits : ∀ v ∈ fs, bits v < 2 ^ width) (rest : List UInt8) {emit : Nat}
    (hemit : emit ≤ fs.length) :
    packedValues width emit (leBytes (groups * width) (Nat.ofDigits (2 ^ width) (fs.map bits)) ++ rest) = fs.take emit := by
  have hds : ∀ d ∈ fs.map bits, d < 2 ^ width := by
    intro d hd
    obtain ⟨v, hv, rfl⟩ := List.mem_map.1 hd
    exact hfits v hv
  have hroom : 256 ^ (groups * width) = 2 ^ (fs.length * width) := by
    rw [hl, show (256 : Nat) = 2 ^ 8 from rfl, ← pow_mul]
    congr 1
    ring
  apply List.map_injective_iff.2 bits_injective
  rw [bits_packedValues hw, ← fields_mod (m := fs.length * width)
    (by rw [Nat.zero_add]; exact Nat.mul_le_mul_right _ hemit), leValue_append, leValue_leBytes, length_leBytes, hroom,
    Nat.add_mul_mod_self_left, Nat.mod_mod, fields_mod (by rw [Nat.zero_add]; exact Nat.mul_le_mul_right _ hemit),
    fields_ofDigits hds (by rwa [List.length_map]), List.map_take]

theorem repeatedValues_eq {width : Nat} (hw : width ≤ 32) {v : Int32} (hfits : bits v < 2 ^ width) (rest : List UInt8)
    (emit : Nat) : repeatedValues width emit (leBytes ((width + 7) / 8) (bits v) ++ rest) = List.replicate emit v := by
  have hpad : 256 ^ ((width + 7) / 8) = 2 ^ (8 * ((width + 7) / 8)) := by rw [pow_mul]; rfl
  have hvalue : readValue width (leBytes ((width + 7) / 8) (bits v) ++ rest) 0 = v := by
    apply bits_injective
    rw [bits_readValue hw (by decide), ← field_mod (m := 8 * ((width + 7) / 8)) (by omega), leValue_append,
      leValue_leBytes, length_leBytes, hpad, Nat.add_mul_mod_self_left, Nat.mod_mod, field_mod (by omega)]
    unfold field
    rw [pow_zero, Nat.div_one, Nat.mod_eq_of_lt hfits]
  unfold repeatedValues
  rw [hvalue]

/-! ## Streams -/

/-- What is read from a run. -/
def Run.read {width : Nat} (r : Run width) (emit : Nat) (payload : List UInt8) : List Int32 :=
  match r with
  | .repeated .. => repeatedValues width emit payload
  | .packed .. => packedValues width emit payload

theorem Run.read_eq {width : Nat} (hw : width ≤ 32) (r : Run width) (rest : List UInt8) (remaining : Nat) :
    r.read (min remaining r.values.length) (r.payload ++ rest) = r.values.take remaining := by
  cases r with
  | repeated count value pos le fits =>
    refine (repeatedValues_eq hw fits rest _).trans ?_
    simp only [Run.values, List.take_replicate, List.length_replicate]
  | packed groups fs pos le length_eq fits =>
    refine (packedValues_eq hw groups length_eq fits rest (Nat.min_le_right _ _)).trans ?_
    exact List.take_eq_take_min.symm

/-- The bytes of a stream. -/
def bytesOf {width : Nat} (rs : List (Run width)) : List UInt8 := rs.flatMap Run.bytes

/-- What it stands for. -/
def valuesOf {width : Nat} (rs : List (Run width)) : List Int32 := rs.flatMap Run.values

variable {width : Nat}

@[simp] theorem bytesOf_nil : bytesOf ([] : List (Run width)) = [] := rfl

@[simp] theorem valuesOf_nil : valuesOf ([] : List (Run width)) = [] := rfl

@[simp] theorem bytesOf_cons (r : Run width) (rs : List (Run width)) : bytesOf (r :: rs) = r.bytes ++ bytesOf rs :=
  List.flatMap_cons

@[simp] theorem valuesOf_cons (r : Run width) (rs : List (Run width)) : valuesOf (r :: rs) = r.values ++ valuesOf rs :=
  List.flatMap_cons

@[simp] theorem bytesOf_append (rs rs' : List (Run width)) : bytesOf (rs ++ rs') = bytesOf rs ++ bytesOf rs' :=
  List.flatMap_append

@[simp] theorem valuesOf_append (rs rs' : List (Run width)) : valuesOf (rs ++ rs') = valuesOf rs ++ valuesOf rs' :=
  List.flatMap_append

/-- One run of the validation. -/
theorem validate_found {r : Run width} {bytes rest : List UInt8} {remaining : Nat} (h0 : remaining ≠ 0)
    (h : withHybridRun width bytes remaining = r.found rest remaining) :
    validate width bytes remaining = validate width rest (remaining - min remaining r.values.length) := by
  rw [validate, if_neg h0]
  cases r <;>
    · split <;> rename_i hrun <;> rw [h] at hrun <;> cases hrun
      rfl

/-- One run of the decoder. -/
theorem header_found {r : Run width} {bytes rest : List UInt8} {remaining : Nat} (h0 : remaining ≠ 0)
    (h : withHybridRun width bytes remaining = r.found rest remaining) :
    header width bytes remaining = (r.read (min remaining r.values.length) (r.payload ++ rest) ++ ·) <$>
      header width rest (remaining - min remaining r.values.length) := by
  rw [header, if_neg h0]
  cases r <;>
    · split <;> rename_i hrun <;> rw [h] at hrun <;> cases hrun
      rfl

theorem validate_runs (hwidth : 0 < width) (rest : List UInt8) {rs : List (Run width)} {remaining : Nat}
    (h : remaining ≤ (valuesOf rs).length) : validate width (bytesOf rs ++ rest) remaining = .ok () := by
  induction rs generalizing remaining with
  | nil =>
    rw [validate, if_pos (Nat.le_zero.1 h)]
  | cons r rs ih =>
    by_cases h0 : remaining = 0
    · rw [validate, if_pos h0]
    · have hrun := withHybridRun_bytes hwidth r (bytesOf rs ++ rest) remaining
      have hrest : remaining - min remaining r.values.length ≤ (valuesOf rs).length := by
        rw [valuesOf_cons, List.length_append] at h
        omega
      rw [bytesOf_cons, List.append_assoc]
      exact (validate_found h0 hrun).trans (ih hrest)

theorem header_runs (hwidth : 0 < width) (hw : width ≤ 32) (rest : List UInt8) {rs : List (Run width)} {remaining : Nat}
    (h : remaining ≤ (valuesOf rs).length) :
    header width (bytesOf rs ++ rest) remaining = .ok ((valuesOf rs).take remaining) := by
  induction rs generalizing remaining with
  | nil =>
    rw [header, if_pos (Nat.le_zero.1 h), Nat.le_zero.1 h]
    rfl
  | cons r rs ih =>
    by_cases h0 : remaining = 0
    · rw [header, if_pos h0, h0]
      rfl
    · have hrun := withHybridRun_bytes hwidth r (bytesOf rs ++ rest) remaining
      have hrest : remaining - min remaining r.values.length ≤ (valuesOf rs).length := by
        rw [valuesOf_cons, List.length_append] at h
        omega
      have hleft : remaining - min remaining r.values.length = remaining - r.values.length := by omega
      rw [bytesOf_cons, List.append_assoc]
      refine (header_found h0 hrun).trans ?_
      rw [ih hrest, r.read_eq hw, hleft, valuesOf_cons, List.take_append]
      rfl

/-- **The reader reads any number of values from a stream of runs.** -/
theorem decode_runs (hwidth : 0 < width) (hw : width ≤ 32) (rs : List (Run width)) {count : Nat}
    (h : count ≤ (valuesOf rs).length) (hcount : count ≤ maxBound / 4) :
    decodeHybridRleUnsigned32 width count (bytesOf rs) = .ok ((valuesOf rs).take count) := by
  unfold decodeHybridRleUnsigned32
  rw [if_neg (by omega), if_neg (by omega)]
  by_cases h0 : count = 0
  · subst h0
    rfl
  · rw [if_neg (by omega), if_neg (by omega), if_neg (by omega)]
    cases rs with
    | nil => exact absurd (Nat.le_zero.1 h) h0
    | cons r rs =>
      have hne : bytesOf (r :: rs) ≠ [] := fun hnil =>
        r.bytes_ne_nil (List.append_eq_nil_iff.1 ((bytesOf_cons r rs).symm.trans hnil)).1
      have hbytes : bytesOf (r :: rs) = r.bytes ++ (bytesOf rs ++ []) := by rw [List.append_nil, bytesOf_cons]
      have hrest : count - min count r.values.length ≤ (valuesOf rs).length := by
        rw [valuesOf_cons, List.length_append] at h
        omega
      have hleft : count - min count r.values.length = count - r.values.length := by omega
      rw [if_neg hne, hbytes]
      simp only [Int.toNat_natCast]
      rw [withHybridRun_bytes hwidth]
      have hread := r.read_eq hw (bytesOf rs ++ []) count
      have hvalidate := validate_runs hwidth [] hrest
      have hheader := header_runs hwidth hw [] hrest
      rw [valuesOf_cons, List.take_append, ← hread, ← hleft]
      cases r with
      | repeated c v pos le fits =>
        simp only [Run.found, hvalidate, hheader]
        rfl
      | packed g fs pos le length_eq fits =>
        simp only [Run.found, hvalidate, hheader]
        rfl

end Wireform.Parquet

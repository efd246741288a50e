/-
  Filters and literals.

  * `encodePlain_finds`: the bytes of a literal are the bytes of every value it is equal to;
    the zeros of floating point, which are equal and stand under either sign, are apart;
  * `evalBloomChunk_keeps`: a filter never loses a value.
-/
import Wireform.Parquet.Predicate.Meaning

namespace Wireform.Parquet

open Columnar

/-! ## Words -/

theorem word32LE_eq (w : UInt32) : word32LE w = leBytes 4 w.toNat := by
  have hw := w.toNat_lt
  simp only [word32LE, leBytes, List.cons.injEq, and_true, ← UInt8.toNat_inj, UInt32.toNat_toUInt8, UInt32.toNat_div,
    UInt8.toNat_ofNat', UInt32.reduceToNat, true_and]
  omega

theorem word64LE_eq (w : UInt64) : word64LE w = leBytes 8 w.toNat := by
  have hw := w.toNat_lt
  simp only [word64LE, leBytes, List.cons.injEq, and_true, ← UInt8.toNat_inj, UInt64.toNat_toUInt8, UInt64.toNat_div,
    UInt8.toNat_ofNat', UInt64.reduceToNat, true_and]
  omega

variable {bytes : List UInt8} {x : Scalar} {stored : List UInt8} {ty : ParquetType}

theorem word32LE_of_emod {w : UInt32} (hlen : bytes.length = 4)
    (h : (leValue bytes : Int) % 2 ^ 32 = (w.toNat : Int) % 2 ^ 32) : word32LE w = bytes := by
  have hv := leValue_lt bytes
  rw [hlen] at hv
  have hw := w.toNat_lt
  rw [word32LE_eq]
  exact (eq_leBytes hlen (by omega)).symm

theorem word64LE_of_emod {w : UInt64} (hlen : bytes.length = 8)
    (h : (leValue bytes : Int) % 2 ^ 64 = (w.toNat : Int) % 2 ^ 64) : word64LE w = bytes := by
  have hv := leValue_lt bytes
  rw [hlen] at hv
  have hw := w.toNat_lt
  rw [word64LE_eq]
  exact (eq_leBytes hlen (by omega)).symm

theorem signedLE_emod (bytes : List UInt8) {m : Int} (hm : (256 : Int) ^ bytes.length = m) :
    signedLE bytes % m = (leValue bytes : Int) % m := by
  rw [← hm, signedLE]
  have := @Int.bmod_emod (leValue bytes) (256 ^ bytes.length)
  push_cast at this
  exact this

/-! ## Stored numbers -/

theorem reading_whole {field : SchemaElement} (hd : ¬field.isDecimal = true) {scale : Int}
    (hr : reading field = .decimal scale) : scale = 0 := by
  unfold reading at hr
  split at hr
  case h_1 => cases hr
  case h_2 hl => exact absurd (by rw [SchemaElement.isDecimal, hl]) hd
  case h_3 => cases hr
  case h_4 => cases hr
  case h_5 =>
    split at hr
    case h_5 =>
      cases hr
      rfl
    all_goals cases hr

/-- The carriers of whole numbers, of `k` bytes. -/
def Whole (ty : ParquetType) (k : Nat) : Prop := (ty = .int32 ∧ k = 4) ∨ (ty = .int64 ∧ k = 8)

theorem Whole.readAs {k : Nat} (h : Whole ty k) {r : Reading}
    (hx : Parquet.readAs ty r bytes = some x) :
    bytes.length = k ∧ (r = .carrier ∧ x = rational (signedLE bytes) ∨ r = .unsigned ∧ x = rational (leValue bytes) ∨
      ∃ scale, r = .decimal scale ∧ x = scaled (signedLE bytes) scale) := by
  rcases h with ⟨rfl, rfl⟩ | ⟨rfl, rfl⟩ <;> cases r
  case inl.half => cases hx
  case inr.half => cases hx
  all_goals
    obtain ⟨hlen, hx⟩ := Option.ite_none_right_eq_some.1 hx
    cases hx
    simp [hlen]

theorem stored_whole {field : SchemaElement} {k : Nat} {n : Int}
    (hw : Whole ty k) (hd : ¬field.isDecimal = true) (hty : field.seType = some ty)
    (h : meaning field bytes = some (rational n)) :
    bytes.length = k ∧ (leValue bytes : Int) % 256 ^ k = n % 256 ^ k := by
  rw [meaning, hty, Option.bind_some] at h
  obtain ⟨hlen, hx⟩ := hw.readAs h
  refine ⟨hlen, ?_⟩
  have signed : rational n = rational (signedLE bytes) → (leValue bytes : Int) % 256 ^ k = n % 256 ^ k := by
    intro hn
    rw [Int.cast_inj.1 (rational_inj hn)]
    exact (signedLE_emod bytes (by rw [hlen])).symm
  rcases hx with ⟨-, hn⟩ | ⟨-, hn⟩ | ⟨scale, hr, hn⟩
  · exact signed hn
  · have hcast : (n : ℚ) = ((leValue bytes : Int) : ℚ) := rational_inj hn
    rw [Int.cast_inj.1 hcast]
  · obtain rfl := reading_whole hd hr
    exact signed (hn.trans (scaled_zero _))

theorem toUInt32_emod (n : Int32) : n.toInt % 2 ^ 32 = (n.toUInt32.toNat : Int) % 2 ^ 32 := by
  rw [← Int32.toNat_toBitVec, ← Int32.toInt_toBitVec, BitVec.toInt_eq_toNat_bmod]
  exact Int.bmod_emod

theorem toUInt64_emod (n : Int64) : n.toInt % 2 ^ 64 = (n.toUInt64.toNat : Int) % 2 ^ 64 := by
  rw [← Int64.toNat_toBitVec, ← Int64.toInt_toBitVec, BitVec.toInt_eq_toNat_bmod]
  exact Int.bmod_emod

/-! ## Stored floats -/

theorem stored_float {field : SchemaElement} (hty : field.seType = some .float)
    (h : meaning field bytes = some x) :
    bytes.length = 4 ∧ (Ieee.binary32.value (leValue bytes)).map Scalar.number = some x := by
  rw [meaning, hty, Option.bind_some] at h
  cases hr : reading field <;> rw [hr] at h
  case carrier => exact Option.ite_none_right_eq_some.1 h
  all_goals cases h

theorem stored_double {field : SchemaElement} (hty : field.seType = some .double)
    (h : meaning field bytes = some x) :
    bytes.length = 8 ∧ (Ieee.binary64.value (leValue bytes)).map Scalar.number = some x := by
  rw [meaning, hty, Option.bind_some] at h
  cases hr : reading field <;> rw [hr] at h
  case carrier => exact Option.ite_none_right_eq_some.1 h
  all_goals cases h

/-- Equal numbers are equal bits, or both are zero. -/
theorem float_bits {f : Ieee} {a b : Nat} (ha : a < 2 ^ f.width) (hb : b < 2 ^ f.width)
    (hx : (f.value a).map Scalar.number = some x) (hy : (f.value b).map Scalar.number = some x) :
    a = b ∨ f.magnitude a = 0 ∧ f.magnitude b = 0 := by
  obtain ⟨v, hv, rfl⟩ := Option.map_eq_some_iff.1 hx
  obtain ⟨w, hw, hvw⟩ := Option.map_eq_some_iff.1 hy
  cases hvw
  rcases f.value_inj hv hw with h | h
  · exact Or.inl (f.rank_inj ha hb h)
  · exact Or.inr h

/-- A pattern without magnitude is one of the two zeros. -/
theorem zero_bits {f : Ieee} {a : Nat} (ha : a < 2 ^ f.width) (hz : f.magnitude a = 0) :
    a = 0 ∨ a = 2 ^ (f.exponentBits + f.fractionBits) := by
  have h := f.bits_eq ha
  rw [hz] at h
  split at h <;> omega

/-! ## Literals -/

/-- The literals of a decimal column. -/
theorem decimal_finds {field : SchemaElement} {q : ℚ} {bytes stored : List UInt8}
    (hm : meaning field stored = some (rational q)) (h : encodePlain.decimal field q = some bytes) : bytes = stored := by
  unfold encodePlain.decimal at h
  split at h
  case h_2 => cases h
  case h_1 precision scale hl =>
  obtain ⟨-, h⟩ := Option.ite_none_right_eq_some.1 h
  obtain ⟨-, h⟩ := Option.ite_none_left_eq_some.1 h
  have whole : ∀ {ty k}, Whole ty k → field.seType = some ty → stored.length = k ∧
      (q * 10 ^ scale.toNat).num = signedLE stored := by
    intro ty k hw hty
    rw [meaning, hty, Option.bind_some, reading, hl] at hm
    obtain ⟨hlen, hx⟩ := hw.readAs hm
    rcases hx with ⟨hr, -⟩ | ⟨hr, -⟩ | ⟨s, hr, hx⟩
    · cases hr
    · cases hr
    · cases hr
      have hq : q = signedLE stored / 10 ^ scale.toNat := rational_inj hx
      refine ⟨hlen, ?_⟩
      rw [hq, div_mul_cancel₀ _ (pow_ne_zero _ (by norm_num)), Rat.num_intCast]
  split at h
  case h_1 hty =>
    obtain ⟨hrange, h⟩ := Option.ite_none_right_eq_some.1 h
    obtain ⟨hlen, hnum⟩ := whole (Or.inl ⟨rfl, rfl⟩) hty
    rw [hnum] at h hrange
    cases h
    refine word32LE_of_emod hlen ?_
    rw [← toUInt32_emod, Int32.toInt_ofInt_of_le (by omega) (by omega)]
    exact (signedLE_emod stored (by rw [hlen]; rfl)).symm
  case h_2 hty =>
    obtain ⟨hrange, h⟩ := Option.ite_none_right_eq_some.1 h
    obtain ⟨hlen, hnum⟩ := whole (Or.inr ⟨rfl, rfl⟩) hty
    rw [hnum] at h hrange
    cases h
    refine word64LE_of_emod hlen ?_
    rw [← toUInt64_emod, Int64.toInt_ofInt_of_le (by omega) (by omega)]
    exact (signedLE_emod stored (by rw [hlen]; rfl)).symm
  case h_3 => cases h

/-- A floating-point literal that is equal to zero. -/
def IsZero : PValue → Prop
  | .float f => Ieee.binary32.same f.toNat 0 = true
  | .double d => Ieee.binary64.same d.toNat 0 = true
  | _ => False

theorem float_finds {field : SchemaElement} {f : UInt32}
    (hty : field.seType = some .float) (hm : meaning field stored = some x) (hv : PValue.meaning (.float f) = some x) :
    word32LE f = stored ∨ IsZero (.float f) := by
  obtain ⟨hlen, hx⟩ := stored_float hty hm
  have hlt := leValue_lt stored
  rw [hlen] at hlt
  rcases float_bits hlt f.toNat_lt hx hv with heq | ⟨-, hz⟩
  · exact Or.inl (word32LE_of_emod hlen (by rw [heq]))
  · exact Or.inr (Ieee.binary32.same_zero (by decide) hz)

theorem double_finds {field : SchemaElement} {d : UInt64}
    (hty : field.seType = some .double) (hm : meaning field stored = some x) (hv : PValue.meaning (.double d) = some x) :
    word64LE d = stored ∨ IsZero (.double d) := by
  obtain ⟨hlen, hx⟩ := stored_double hty hm
  have hlt := leValue_lt stored
  rw [hlen] at hlt
  rcases float_bits hlt d.toNat_lt hx hv with heq | ⟨-, hz⟩
  · exact Or.inl (word64LE_of_emod hlen (by rw [heq]))
  · exact Or.inr (Ieee.binary64.same_zero (by decide) hz)

theorem stored_boolean {field : SchemaElement} {b : Bool} (hty : field.seType = some .boolean)
    (hm : meaning field stored = some (.truth b)) : [if b then 1 else 0] = stored := by
  rw [meaning, hty, Option.bind_some] at hm
  cases hr : reading field <;> rw [hr] at hm
  case carrier =>
    rcases stored with _ | ⟨c, _ | ⟨_, _⟩⟩
    · cases hm
    · obtain ⟨hc, hm⟩ := Option.ite_none_right_eq_some.1 hm
      cases hm
      rw [UInt8.le_iff_toNat_le] at hc
      have hcases : c = 0 ∨ c = 1 := by
        rcases Nat.le_one_iff_eq_zero_or_eq_one.1 hc with h | h
        · exact Or.inl (UInt8.toNat_inj.1 h)
        · exact Or.inr (UInt8.toNat_inj.1 h)
      rcases hcases with rfl | rfl <;> rfl
    · cases hm
  all_goals cases hm

theorem stored_bytes {field : SchemaElement} {stored bytes : List UInt8}
    (hb : ty = .byteArray ∨ ty = .fixedLenByteArray) (hty : field.seType = some ty)
    (hm : meaning field stored = some (.bytes bytes)) : bytes = stored := by
  rw [meaning, hty, Option.bind_some] at hm
  rcases hb with rfl | rfl <;> cases hr : reading field <;> rw [hr] at hm
  case inl.carrier => cases hm; rfl
  case inr.carrier => cases hm; rfl
  case inr.half =>
    obtain ⟨_, _, hm⟩ := Option.map_eq_some_iff.1 (Option.ite_none_right_eq_some.1 hm).2
    cases hm
  all_goals first
    | cases hm
    | cases (Option.ite_none_right_eq_some.1 hm).2

theorem carrier_finds {field : SchemaElement} {v : PValue} {bytes stored : List UInt8}
    (hd : ¬field.isDecimal = true) (hm : meaning field stored = some x) (hv : v.meaning = some x)
    (h : encodePlain.carrier field v = some bytes) : bytes = stored ∨ IsZero v := by
  unfold encodePlain.carrier at h
  split at h
  case h_1 hty =>
    cases h
    cases hv
    obtain ⟨hlen, hmod⟩ := stored_whole (Or.inl ⟨rfl, rfl⟩) hd hty hm
    exact Or.inl (word32LE_of_emod hlen (hmod.trans (toUInt32_emod _)))
  case h_2 hty =>
    cases h
    cases hv
    obtain ⟨hlen, hmod⟩ := stored_whole (Or.inr ⟨rfl, rfl⟩) hd hty hm
    exact Or.inl (word64LE_of_emod hlen (hmod.trans (toUInt64_emod _)))
  case h_3 n hty =>
    obtain ⟨-, h⟩ := Option.ite_none_right_eq_some.1 h
    cases h
    cases hv
    obtain ⟨hlen, hmod⟩ := stored_whole (n := n.toNat) (Or.inl ⟨rfl, rfl⟩) hd hty hm
    refine Or.inl (word32LE_of_emod hlen (hmod.trans ?_))
    rw [UInt64.toNat_toUInt32]
    push_cast
    exact (Int.emod_emod_of_dvd _ (dvd_refl _)).symm
  case h_4 n hty =>
    obtain ⟨-, h⟩ := Option.ite_none_right_eq_some.1 h
    cases h
    cases hv
    obtain ⟨hlen, hmod⟩ := stored_whole (n := n.toNat) (Or.inr ⟨rfl, rfl⟩) hd hty hm
    exact Or.inl (word64LE_of_emod hlen hmod)
  case h_5 hty =>
    cases h
    exact float_finds hty hm hv
  case h_6 hty =>
    cases h
    exact double_finds hty hm hv
  case h_7 hty =>
    cases h
    cases hv
    exact Or.inl (stored_boolean hty hm)
  case h_8 hty =>
    cases h
    cases hv
    exact Or.inl (stored_bytes (Or.inl rfl) hty hm)
  case h_9 hty =>
    cases h
    cases hv
    exact Or.inl (stored_bytes (Or.inl rfl) hty hm)
  case h_10 hty =>
    cases h
    cases hv
    exact Or.inl (stored_bytes (Or.inr rfl) hty hm)
  case h_11 => cases h

/-- **The bytes of a literal are those of every value it is equal to**, but for the zeros. -/
theorem encodePlain_finds {field : SchemaElement} {v : PValue} {bytes stored : List UInt8}
    (hm : meaning field stored = some x) (hv : v.meaning = some x) (h : encodePlain field v = some bytes) :
    bytes = stored ∨ IsZero v := by
  unfold encodePlain at h
  obtain ⟨-, h⟩ := Option.ite_none_left_eq_some.1 h
  split at h
  · cases hv
    exact Or.inl (decimal_finds hm h)
  · obtain ⟨hd, h⟩ := Option.ite_none_left_eq_some.1 h
    exact carrier_finds hd hm hv h

theorem encodePlain_float {field : SchemaElement} {f : UInt32}
    (h : encodePlain field (.float f) = some bytes) : field.seType = some .float ∧ bytes = word32LE f := by
  obtain ⟨-, h⟩ := Option.ite_none_left_eq_some.1 h
  obtain ⟨-, h⟩ := Option.ite_none_left_eq_some.1 h
  unfold encodePlain.carrier at h
  cases hty : field.seType with
  | none =>
    rw [hty] at h
    cases h
  | some ty =>
    rw [hty] at h
    cases ty <;> cases h
    exact ⟨rfl, rfl⟩

theorem encodePlain_double {field : SchemaElement} {d : UInt64}
    (h : encodePlain field (.double d) = some bytes) : field.seType = some .double ∧ bytes = word64LE d := by
  obtain ⟨-, h⟩ := Option.ite_none_left_eq_some.1 h
  obtain ⟨-, h⟩ := Option.ite_none_left_eq_some.1 h
  unfold encodePlain.carrier at h
  cases hty : field.seType with
  | none =>
    rw [hty] at h
    cases h
  | some ty =>
    rw [hty] at h
    cases ty <;> cases h
    exact ⟨rfl, rfl⟩

/-- A value that is equal to a zero literal is stored as one of the zeros. -/
theorem zero_stored {f : Ieee} {a z : Nat} (ha : a < 2 ^ f.width)
    (hm : (f.value a).map Scalar.number = some x) (hv : (f.value z).map Scalar.number = some x)
    (hz : f.same z 0 = true) : a = 0 ∨ a = 2 ^ (f.exponentBits + f.fractionBits) := by
  obtain ⟨v, hzv, h0⟩ := f.same_iff.1 hz
  rw [hzv] at hv
  obtain ⟨w, hw, rfl⟩ := Option.map_eq_some_iff.1 hm
  cases hv
  have hzero : f.magnitude 0 = 0 := by simp [Ieee.magnitude]
  rcases f.value_inj hw h0 with h | ⟨h, -⟩
  · exact Or.inl (f.rank_inj ha (Nat.two_pow_pos _) h)
  · exact zero_bits ha h

/-! ## Filters -/

section

variable {xxh64 : List UInt8 → UInt64} {field : SchemaElement} {sbbf : Sbbf}

theorem check_of_finds {v : PValue} {stored : List UInt8} (hs : sbbfCheck xxh64 stored sbbf = true)
    (h : ∀ bytes, encodePlain field v = some bytes → bytes = stored) :
    ((encodePlain field v).elim true fun bytes => sbbfCheck xxh64 bytes sbbf) = true := by
  cases he : encodePlain field v with
  | none => rfl
  | some bytes =>
    rw [← h bytes he] at hs
    exact hs

/-- A filter that holds a value does not deny a literal that is equal to it. -/
theorem bloomCheckVal_finds {v : PValue} {stored : List UInt8} {x : Scalar}
    (hs : sbbfCheck xxh64 stored sbbf = true) (hm : meaning field stored = some x) (hv : v.meaning = some x) :
    bloomCheckVal xxh64 field sbbf v = true := by
  have finds : ¬IsZero v → ((encodePlain field v).elim true fun bytes => sbbfCheck xxh64 bytes sbbf) = true :=
    fun hz => check_of_finds hs fun bytes he => (encodePlain_finds hm hv he).resolve_right hz
  unfold bloomCheckVal
  dsimp only
  split
  case h_1 f =>
    split
    case isFalse hz => exact finds hz
    case isTrue hz =>
      by_cases hty : field.seType = some .float
      · obtain ⟨hlen, hx⟩ := stored_float hty hm
        have hlt := leValue_lt stored
        rw [hlen] at hlt
        rw [Bool.or_eq_true]
        rcases zero_stored hlt hx hv hz with h | h
        · refine Or.inl (check_of_finds hs fun bytes he => ?_)
          rw [(encodePlain_float he).2]
          exact word32LE_of_emod hlen (by rw [h]; rfl)
        · refine Or.inr (check_of_finds hs fun bytes he => ?_)
          rw [(encodePlain_float he).2]
          exact word32LE_of_emod hlen (by rw [h]; rfl)
      · rw [Bool.or_eq_true]
        exact Or.inl (check_of_finds hs fun bytes he => absurd (encodePlain_float he).1 hty)
  case h_2 d =>
    split
    case isFalse hz => exact finds hz
    case isTrue hz =>
      by_cases hty : field.seType = some .double
      · obtain ⟨hlen, hx⟩ := stored_double hty hm
        have hlt := leValue_lt stored
        rw [hlen] at hlt
        rw [Bool.or_eq_true]
        rcases zero_stored hlt hx hv hz with h | h
        · refine Or.inl (check_of_finds hs fun bytes he => ?_)
          rw [(encodePlain_double he).2]
          exact word64LE_of_emod hlen (by rw [h]; rfl)
        · refine Or.inr (check_of_finds hs fun bytes he => ?_)
          rw [(encodePlain_double he).2]
          exact word64LE_of_emod hlen (by rw [h]; rfl)
      · rw [Bool.or_eq_true]
        exact Or.inl (check_of_finds hs fun bytes he => absurd (encodePlain_double he).1 hty)
  case h_3 hf hd =>
    refine finds fun hz => ?_
    cases v with
    | float f => exact hf f rfl
    | double d => exact hd d rfl
    | _ => exact hz

/-- **A filter never loses a value.** -/
theorem evalBloomChunk_keeps (start : Sbbf) {values : List (List UInt8)} {cells : List (Option (List UInt8))}
    (hall : ∀ bytes, some bytes ∈ cells → bytes ∈ values) {cell : Option (List UInt8)} (hc : cell ∈ cells)
    {cp : PColPredicate} (h : cp.holds (meaning field) true cell) :
    evalBloomChunk xxh64 field (insertAll xxh64 start values) cp = .maybeKeep := by
  have finds : ∀ v, Compares (meaning field) (· = ·) true cell v →
      bloomCheckVal xxh64 field (insertAll xxh64 start values) v = true := by
    rintro v ⟨stored, x, y, rfl, hm, hv, -, hrel⟩
    obtain rfl := hrel.2 rfl
    exact bloomCheckVal_finds (sbbfCheck_insertAll xxh64 start (hall stored hc)) hm hv
  cases cp with
  | eq v => exact if_pos (finds v h)
  | isIn vs =>
    obtain ⟨v, hv, hcmp⟩ : ∃ v ∈ vs, Compares (meaning field) (· = ·) true cell v := h
    refine if_neg fun hnone => ?_
    have hdeny := List.all_eq_true.1 hnone v hv
    rw [finds v hcmp] at hdeny
    cases hdeny
  | _ => rfl

end

end Wireform.Parquet

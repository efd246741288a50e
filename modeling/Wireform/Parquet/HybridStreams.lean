/-
  What the writer writes is a stream of runs.

  * `packValues_eq`: the payload of a packed run, word by word;
  * `Streams`: bytes that are a stream for some values;
  * `encodeRepeatedRuns_streams`, `encodePackedRuns_streams`, `encodeMixedRuns_streams`: each
    writer, for its part of the values;
  * `withRepeatedSize_eq`, `withPackedSize_eq`, `measureMixedHybrid_eq`: the sizes that were
    measured are those of the bytes.
-/
import Wireform.Parquet.Hybrid

namespace Wireform.Parquet

/-! ## Stores -/

theorem dWordLE_eq (order : ByteOrder) (k n : Nat) : dWordLE order k n = leBytes k n := by
  cases order with
  | littleEndian => rfl
  | bigEndian =>
    have hl : (leBytes k n).reverse.length = k := by rw [List.length_reverse, length_leBytes]
    have hswap := leBytes_leValue (leBytes k n).reverse
    rw [hl] at hswap
    change (leBytes k (leValue (leBytes k n).reverse)).reverse = leBytes k n
    rw [hswap, List.reverse_reverse]

theorem toNat_shiftRight_seven (n : UInt64) : (n >>> 7).toNat = n.toNat / 128 := by
  rw [UInt64.toNat_shiftRight, Nat.shiftRight_eq_div_pow]
  rfl

theorem toNat_marked (n : UInt64) : (n &&& 0x7F ||| 0x80).toUInt8 = UInt8.ofNat (n.toNat % 128 + 128) := by
  have hlow : (n &&& 0x7F).toNat = n.toNat % 128 := Nat.and_two_pow_sub_one_eq_mod n.toNat 7
  have hlt : n.toNat % 128 < 2 ^ 7 := Nat.mod_lt _ (by decide)
  have hor : (n &&& 0x7F ||| 0x80).toNat = n.toNat % 128 + 128 := by
    rw [UInt64.toNat_or, hlow, Nat.or_comm]
    exact (Nat.two_pow_add_eq_or_of_lt hlt 1).symm.trans (by omega)
  apply UInt8.toNat_inj.1
  rw [UInt64.toNat_toUInt8, hor, UInt8.toNat_ofNat']

theorem toUInt8_eq (n : UInt64) : n.toUInt8 = UInt8.ofNat n.toNat := by
  apply UInt8.toNat_inj.1
  rw [UInt64.toNat_toUInt8, UInt8.toNat_ofNat']

theorem dVarint_go_eq (n : UInt64) : dVarint.go n = leb128 n.toNat := by
  induction h : n.toNat using Nat.strong_induction_on generalizing n with
  | _ m ih =>
    subst h
    rw [dVarint.go]
    by_cases hs : n < 0x80
    · have hs' : n.toNat < 128 := hs
      rw [if_pos hs, leb128_small hs', toUInt8_eq]
    · have hs' : 128 ≤ n.toNat := Nat.not_lt.1 hs
      rw [if_neg hs, leb128_large hs', toNat_marked, ih (n >>> 7).toNat (by rw [toNat_shiftRight_seven]; omega) _ rfl,
        toNat_shiftRight_seven]

theorem dVarint_eq (n : UInt64) : dVarint n = leb128 n.toNat := by
  unfold dVarint
  by_cases h1 : n < 0x80
  · have h1' : n.toNat < 128 := h1
    rw [if_pos h1, leb128_small h1', toUInt8_eq]
  have h1' : 128 ≤ n.toNat := Nat.not_lt.1 h1
  rw [if_neg h1, leb128_large h1']
  by_cases h2 : n < 0x4000
  · have h2' : n.toNat < 16384 := h2
    rw [if_pos h2, leb128_small (by omega), toNat_marked, toUInt8_eq, toNat_shiftRight_seven]
  have h2' : 16384 ≤ n.toNat := Nat.not_lt.1 h2
  rw [if_neg h2, leb128_large (by omega)]
  by_cases h3 : n < 0x200000
  · have h3' : n.toNat < 2097152 := h3
    have h14 : (n >>> 14).toNat = n.toNat / 128 / 128 := by
      rw [UInt64.toNat_shiftRight, Nat.shiftRight_eq_div_pow, Nat.div_div_eq_div_mul]
      rfl
    rw [if_pos h3, leb128_small (by omega), toNat_marked, toNat_marked, toUInt8_eq, toNat_shiftRight_seven, h14]
  · rw [if_neg h3, dVarint_go_eq, leb128_large h1', leb128_large (by omega)]

theorem varintSize_go_eq (k : Nat) (n : UInt64) : varintSize.go k n + 1 = k + (leb128 n.toNat).length := by
  induction h : n.toNat using Nat.strong_induction_on generalizing n k with
  | _ m ih =>
    subst h
    rw [varintSize.go]
    by_cases hs : n < 128
    · have hs' : n.toNat < 128 := hs
      rw [if_pos hs, leb128_small hs', List.length_singleton]
    · have hs' : 128 ≤ n.toNat := Nat.not_lt.1 hs
      rw [if_neg hs, leb128_large hs', ih (n >>> 7).toNat (by rw [toNat_shiftRight_seven]; omega) _ _ rfl,
        toNat_shiftRight_seven, List.length_cons]
      omega

theorem varintSize_eq (n : UInt64) : varintSize n = (leb128 n.toNat).length := by
  have h := varintSize_go_eq 1 n
  unfold varintSize
  omega

theorem toNat_repeatedHeader {count : Nat} (h : count < 2 ^ 63) : (repeatedHeader count).toNat = 2 * count := by
  unfold repeatedHeader
  have hc : (UInt64.ofNat count).toNat = count := UInt64.toNat_ofNat_of_lt' (by change count < 2 ^ 64; omega)
  rw [UInt64.toNat_shiftLeft, hc, Nat.shiftLeft_eq]
  change count * 2 % 2 ^ 64 = _
  omega

theorem toNat_packedHeader {groups : Nat} (h : groups < 2 ^ 63) : (packedHeader groups).toNat = 2 * groups + 1 := by
  have hshift : (UInt64.ofNat groups <<< 1).toNat = 2 * groups := toNat_repeatedHeader h
  unfold packedHeader
  rw [UInt64.toNat_or, hshift]
  exact (Nat.two_pow_add_eq_or_of_lt (i := 1) (b := 1) (by decide) groups).symm

theorem writeValue_eq (order : ByteOrder) {width : Nat} (hw : width ≤ 32) (v : Int32) :
    writeValue order width v.toUInt32 = leBytes ((width + 7) / 8) (bits v) := by
  have hle : (width + 7) / 8 ≤ 4 := by omega
  have hbyte (k : UInt32) (i : Nat) (hk : k.toNat % 32 = i) : (v.toUInt32 >>> k).toUInt8 = UInt8.ofNat (bits v / 2 ^ i) := by
    apply UInt8.toNat_inj.1
    rw [UInt32.toNat_toUInt8, UInt32.toNat_shiftRight, hk, Nat.shiftRight_eq_div_pow, UInt8.toNat_ofNat']
    rfl
  have hlow : v.toUInt32.toUInt8 = UInt8.ofNat (bits v) := by
    apply UInt8.toNat_inj.1
    rw [UInt32.toNat_toUInt8, UInt8.toNat_ofNat']
    rfl
  have h8 := hbyte 8 8 rfl
  have h16 := hbyte 16 16 rfl
  unfold writeValue
  split
  · rename_i h; rw [h]; rfl
  · rename_i h; rw [h, hlow]; rfl
  · rename_i h; rw [h, hlow, h8]; rfl
  · rename_i h
    rw [h, hlow, h8, h16]
    simp only [leBytes, Nat.div_div_eq_div_mul]
    rfl
  · rename_i h0 h1 h2 h3
    have h4 : (width + 7) / 8 = 4 := by
      rw [imp_false] at h0 h1 h2 h3
      omega
    rw [h4, dWordLE_eq]
    rfl

/-! ## Payloads -/

theorem zeroPad_eq {byteCount : Nat} {written : List UInt8} (h : written.length ≤ byteCount) :
    zeroPad byteCount written = some (leBytes byteCount (leValue written)) := by
  unfold zeroPad
  rw [if_pos h]
  refine congrArg some (eq_leBytes ?_ ?_)
  · rw [List.length_append, List.length_replicate]
    omega
  · rw [leValue_append, leValue_replicate_zero, Nat.mul_zero, Nat.add_zero]

/-- The bits that are left are written byte by byte. -/
theorem tailBytes_eq {byteCount : Nat} {written : List UInt8} {nbits : Nat} {acc : UInt64} (hacc : acc.toNat < 2 ^ nbits)
    (hroom : 8 * written.length + nbits ≤ 8 * byteCount) :
    tailBytes byteCount written nbits acc =
      some (leBytes byteCount (leValue written + 256 ^ written.length * acc.toNat)) := by
  induction nbits using Nat.strong_induction_on generalizing written acc with
  | _ nbits ih =>
    rw [tailBytes]
    split
    · rename_i h0
      subst h0
      rw [Nat.lt_one_iff.1 hacc, Nat.mul_zero, Nat.add_zero]
      exact zeroPad_eq (by omega)
    · rename_i h0
      have hshift : (acc >>> 8).toNat = acc.toNat / 256 := by
        rw [UInt64.toNat_shiftRight, Nat.shiftRight_eq_div_pow]
        rfl
      have hbyte : acc.toUInt8.toNat = acc.toNat % 256 := UInt64.toNat_toUInt8 acc
      have hacc' : (acc >>> 8).toNat < 2 ^ (nbits - 8) := by
        rw [hshift]
        by_cases h8 : nbits ≤ 8
        · have : 2 ^ nbits ≤ 2 ^ 8 := Nat.pow_le_pow_right (by decide) h8
          rw [Nat.sub_eq_zero_of_le h8]
          omega
        · rw [Nat.div_lt_iff_lt_mul (by decide), show (256 : Nat) = 2 ^ 8 from rfl, ← pow_add,
            Nat.sub_add_cancel (by omega)]
          exact hacc
      have hroom' : 8 * (written ++ [acc.toUInt8]).length + (nbits - 8) ≤ 8 * byteCount := by
        rw [List.length_append, List.length_singleton]
        omega
      rw [ih (nbits - 8) (by omega) hacc' hroom', leValue_append, hshift, List.length_append, List.length_singleton,
        leValue_cons, leValue_nil, hbyte, pow_succ]
      congr 2
      have hdiv := Nat.mod_add_div acc.toNat 256
      calc leValue written + 256 ^ written.length * (acc.toNat % 256 + 256 * 0) +
            256 ^ written.length * 256 * (acc.toNat / 256)
          = leValue written + 256 ^ written.length * (acc.toNat % 256 + 256 * (acc.toNat / 256)) := by ring
        _ = leValue written + 256 ^ written.length * acc.toNat := by rw [hdiv]

/-- The words that are written and the bits that are kept are the values so far. -/
theorem consume_eq (order : ByteOrder) {width byteCount : Nat} (hw : width ≤ 32) {vs : List Int32} {written : List UInt8}
    {nbits : Nat} {acc : UInt64} (hfits : ∀ v ∈ vs, bits v < 2 ^ width) (hbits : nbits < 64)
    (hacc : acc.toNat < 2 ^ nbits) (hroom : 8 * written.length + nbits + vs.length * width ≤ 8 * byteCount) :
    consume order width byteCount vs written nbits acc =
      some (leBytes byteCount (leValue written + 256 ^ written.length *
        (acc.toNat + 2 ^ nbits * Nat.ofDigits (2 ^ width) (vs.map bits)))) := by
  induction vs generalizing written nbits acc with
  | nil =>
    rw [consume, tailBytes_eq hacc (by simpa using hroom)]
    simp
  | cons v vs ih =>
    have hv : bits v < 2 ^ width := hfits v (by simp)
    have hvs : ∀ v ∈ vs, bits v < 2 ^ width := fun u hu => hfits u (List.mem_cons_of_mem _ hu)
    rw [List.length_cons, Nat.add_one_mul vs.length width] at hroom
    have hword : v.toUInt32.toUInt64.toNat = bits v := UInt32.toNat_toUInt64 _
    have hshift : (UInt64.ofNat nbits).toNat % 64 = nbits := by
      rw [UInt64.toNat_ofNat']
      omega
    rw [consume, List.map_cons, Nat.ofDigits_cons]
    by_cases hnext : nbits + width < 64
    · have hfit : bits v * 2 ^ nbits < 2 ^ 64 := by
        calc bits v * 2 ^ nbits < 2 ^ width * 2 ^ nbits := Nat.mul_lt_mul_of_pos_right hv (Nat.two_pow_pos _)
          _ = 2 ^ (width + nbits) := (pow_add _ _ _).symm
          _ ≤ 2 ^ 64 := Nat.pow_le_pow_right (by decide) (by omega)
      have hcombined := toNat_or_shift hbits hacc (by rwa [hword])
      rw [hword] at hcombined
      have hlt : acc.toNat + bits v * 2 ^ nbits < 2 ^ (nbits + width) := by
        rw [pow_add]
        nlinarith
      simp only [hnext, if_true]
      rw [ih hvs hnext (by rw [hcombined]; exact hlt) (by omega), hcombined, pow_add]
      congr 2
      ring
    · -- the word is full, and the value's high bits are kept
      have hdown : (UInt64.ofNat (64 - nbits)).toNat % 64 = 64 - nbits := by
        rw [UInt64.toNat_ofNat']
        omega
      have h64 : 2 ^ 64 = 2 ^ (64 - nbits) * 2 ^ nbits := by rw [← pow_add, Nat.sub_add_cancel hbits.le]
      have hkept : (v.toUInt32.toUInt64 >>> UInt64.ofNat (64 - nbits)).toNat = bits v / 2 ^ (64 - nbits) := by
        rw [UInt64.toNat_shiftRight, hdown, hword, Nat.shiftRight_eq_div_pow]
      have hcombined : (acc ||| v.toUInt32.toUInt64 <<< UInt64.ofNat nbits).toNat =
          acc.toNat + bits v % 2 ^ (64 - nbits) * 2 ^ nbits := by
        rw [UInt64.toNat_or, UInt64.toNat_shiftLeft, hshift, hword, Nat.shiftLeft_eq, h64, Nat.mul_mod_mul_right,
          Nat.or_comm, Nat.mul_comm _ (2 ^ nbits), ← Nat.two_pow_add_eq_or_of_lt hacc, Nat.add_comm]
      have hwordlt := UInt64.toNat_lt (acc ||| v.toUInt32.toUInt64 <<< UInt64.ofNat nbits)
      have hkeptlt : bits v / 2 ^ (64 - nbits) < 2 ^ (nbits + width - 64) := by
        rw [Nat.div_lt_iff_lt_mul (Nat.two_pow_pos _), ← pow_add,
          show nbits + width - 64 + (64 - nbits) = width by omega]
        exact hv
      have hsplit : 2 ^ 64 * 2 ^ (nbits + width - 64) = 2 ^ nbits * 2 ^ width := by
        rw [← pow_add, ← pow_add]
        congr 1
        omega
      have hdiv := Nat.mod_add_div (bits v) (2 ^ (64 - nbits))
      simp only [hnext, if_false]
      rw [ih hvs (by omega) (by rw [hkept]; exact hkeptlt) (by rw [List.length_append, dWordLE_eq, length_leBytes]; omega),
        hkept, dWordLE_eq, leValue_append, leValue_leBytes, Nat.mod_eq_of_lt (by exact hwordlt), List.length_append,
        length_leBytes, pow_add, hcombined]
      congr 2
      calc leValue written + 256 ^ written.length * (acc.toNat + bits v % 2 ^ (64 - nbits) * 2 ^ nbits) +
            256 ^ written.length * 256 ^ 8 * (bits v / 2 ^ (64 - nbits) +
              2 ^ (nbits + width - 64) * Nat.ofDigits (2 ^ width) (vs.map bits))
          = leValue written + 256 ^ written.length * (acc.toNat + bits v % 2 ^ (64 - nbits) * 2 ^ nbits +
              2 ^ 64 * (bits v / 2 ^ (64 - nbits)) +
              2 ^ 64 * 2 ^ (nbits + width - 64) * Nat.ofDigits (2 ^ width) (vs.map bits)) := by
            rw [show (256 : Nat) ^ 8 = 2 ^ 64 from rfl]
            ring
        _ = leValue written + 256 ^ written.length * (acc.toNat +
              2 ^ nbits * (bits v % 2 ^ (64 - nbits) + 2 ^ (64 - nbits) * (bits v / 2 ^ (64 - nbits))) +
              2 ^ nbits * 2 ^ width * Nat.ofDigits (2 ^ width) (vs.map bits)) := by
            rw [hsplit, h64]
            ring
        _ = leValue written + 256 ^ written.length * (acc.toNat +
              2 ^ nbits * (bits v + 2 ^ width * Nat.ofDigits (2 ^ width) (vs.map bits))) := by
            rw [hdiv]
            ring

theorem leValue_flatMap_words (vs : List Int32) :
    leValue (vs.flatMap fun v => leBytes 4 (bits v)) = Nat.ofDigits (2 ^ 32) (vs.map bits) := by
  induction vs with
  | nil => rfl
  | cons v vs ih =>
    have hv := bits_lt v
    rw [List.flatMap_cons, leValue_append, ih, leValue_leBytes, length_leBytes, List.map_cons, Nat.ofDigits_cons,
      show (256 : Nat) ^ 4 = 2 ^ 32 from rfl, Nat.mod_eq_of_lt hv]

/-- **The payload of a packed run.** -/
theorem packValues_eq (order : ByteOrder) {width byteCount : Nat} (hw : width ≤ 32) {vs : List Int32}
    (hfits : ∀ v ∈ vs, bits v < 2 ^ width) (hroom : vs.length * width ≤ 8 * byteCount) :
    packValues order width byteCount vs = some (leBytes byteCount (Nat.ofDigits (2 ^ width) (vs.map bits))) := by
  unfold packValues
  split
  · rename_i h
    obtain ⟨rfl, rfl⟩ := h
    have hlen : (vs.flatMap fun v => leBytes 4 (bits v)).length = vs.length * 4 := by
      simp [List.length_flatMap]
    have hpad := @zeroPad_eq byteCount (vs.flatMap fun v => leBytes 4 (bits v)) (by omega)
    rw [leValue_flatMap_words] at hpad
    exact hpad
  · rw [consume_eq order hw hfits (by decide) (by decide) (by simpa using hroom)]
    simp

/-! ## Streams -/

/-- The bytes are a stream of runs for the values. -/
def Streams (width : Nat) (bytes : List UInt8) (vs : List Int32) : Prop :=
  ∃ rs : List (Run width), bytesOf rs = bytes ∧ valuesOf rs = vs

variable {width : Nat}

theorem Streams.nil : Streams width [] [] := ⟨[], rfl, rfl⟩

theorem Streams.run (r : Run width) : Streams width r.bytes r.values :=
  ⟨[r], by simp, by simp⟩

theorem Streams.append {bytes bytes' : List UInt8} {vs vs' : List Int32} (h : Streams width bytes vs)
    (h' : Streams width bytes' vs') : Streams width (bytes ++ bytes') (vs ++ vs') := by
  obtain ⟨rs, rfl, rfl⟩ := h
  obtain ⟨rs', rfl, rfl⟩ := h'
  exact ⟨rs ++ rs', bytesOf_append rs rs', valuesOf_append rs rs'⟩

theorem Run.length_bytes_le (hw : width ≤ 32) (r : Run width) : r.bytes.length ≤ 9 * r.values.length := by
  have hheader : (leb128 r.header).length ≤ 5 := @length_leb128_le 4 _ (r.header_lt.trans (by decide))
  rw [Run.bytes, List.length_append]
  cases r with
  | repeated count v pos le fits =>
    simp only [Run.payload, Run.values, length_leBytes, List.length_replicate]
    omega
  | packed groups fs pos le length_eq fits =>
    have hpayload : groups * width ≤ groups * 32 := Nat.mul_le_mul_left _ hw
    simp only [Run.payload, Run.values, length_leBytes, length_eq]
    omega

/-- No stream takes more than nine bytes a value. -/
theorem Streams.length_le (hw : width ≤ 32) {bytes : List UInt8} {vs : List Int32} (h : Streams width bytes vs) :
    bytes.length ≤ 9 * vs.length := by
  obtain ⟨rs, rfl, rfl⟩ := h
  induction rs with
  | nil => exact le_refl 0
  | cons r rs ih =>
    have hr := r.length_bytes_le hw
    rw [bytesOf_cons, valuesOf_cons, List.length_append, List.length_append]
    omega

/-! ### Repeated runs -/

theorem encodeRepeatedRuns_streams (order : ByteOrder) (hw : width ≤ 32) {v : Int32} (hv : bits v < 2 ^ width) (count : Nat) :
    Streams width (encodeRepeatedRuns order width v.toUInt32 count) (List.replicate count v) := by
  have hrun (c : Nat) (hpos : 0 < c) (hle : c ≤ maxRepeatedValues) :
      Streams width (dVarint (repeatedHeader c) ++ writeValue order width v.toUInt32) (List.replicate c v) := by
    have hc : c < 2 ^ 63 := by unfold maxRepeatedValues at hle; omega
    rw [dVarint_eq, toNat_repeatedHeader hc, writeValue_eq order hw]
    exact Streams.run (.repeated c v hpos hle hv)
  induction count using Nat.strong_induction_on with
  | _ count ih =>
    rw [encodeRepeatedRuns]
    split
    · rename_i h0
      rw [h0]
      exact Streams.nil
    · split
      · exact hrun count (by omega) (by assumption)
      · rename_i h0 hmany
        have hpos : 0 < maxRepeatedValues := by decide
        have hsplit : List.replicate count v =
            List.replicate maxRepeatedValues v ++ List.replicate (count - maxRepeatedValues) v := by
          rw [← List.replicate_add, Nat.add_sub_cancel' (by omega)]
        rw [hsplit]
        exact (hrun maxRepeatedValues hpos (le_refl _)).append (ih _ (by omega))

/-- The size of the repeated runs, as it is computed. -/
theorem length_encodeRepeatedRuns (order : ByteOrder) (hw : width ≤ 32) (v : Int32) (count : Nat) :
    (encodeRepeatedRuns order width v.toUInt32 count).length =
      count / maxRepeatedValues * (5 + (width + 7) / 8) +
        if count % maxRepeatedValues = 0 then 0
        else varintSize (repeatedHeader (count % maxRepeatedValues)) + (width + 7) / 8 := by
  have hpos : 0 < maxRepeatedValues := by decide
  have hvalue : (writeValue order width v.toUInt32).length = (width + 7) / 8 := by
    rw [writeValue_eq order hw, length_leBytes]
  have hfull : (dVarint (repeatedHeader maxRepeatedValues)).length = 5 := by
    rw [dVarint_eq, toNat_repeatedHeader (by decide)]
    exact le_antisymm (length_leb128_le (by decide)) (@le_length_leb128 4 _ (by decide))
  induction count using Nat.strong_induction_on with
  | _ count ih =>
    rw [encodeRepeatedRuns]
    by_cases h0 : count = 0
    · simp [h0]
    · rw [if_neg h0]
      by_cases hfew : count ≤ maxRepeatedValues
      · rw [if_pos hfew, List.length_append, hvalue]
        rcases Nat.lt_or_eq_of_le hfew with hlt | heq
        · rw [Nat.div_eq_of_lt hlt, Nat.mod_eq_of_lt hlt, if_neg h0, dVarint_eq, varintSize_eq]
          omega
        · rw [heq, hfull, Nat.div_self hpos, Nat.mod_self, if_pos rfl]
          omega
      · have hdiv : count / maxRepeatedValues = (count - maxRepeatedValues) / maxRepeatedValues + 1 :=
          Nat.div_eq_sub_div hpos (by omega)
        have hmod : count % maxRepeatedValues = (count - maxRepeatedValues) % maxRepeatedValues :=
          Nat.mod_eq_sub_mod (by omega)
        rw [if_neg hfew, List.length_append, List.length_append, hfull, hvalue, ih _ (by omega), hdiv, hmod,
          Nat.add_one_mul]
        omega

theorem withRepeatedSize_eq (order : ByteOrder) (hw : width ≤ 32) (v : Int32) (count total : Nat) :
    withRepeatedSize width count total =
      if maxBound < total + (encodeRepeatedRuns order width v.toUInt32 count).length then .error exceedsAddressable
      else .ok (total + (encodeRepeatedRuns order width v.toUInt32 count).length) := by
  have hsize : (if count = 0 then 0
      else if count ≤ maxRepeatedValues then varintSize (repeatedHeader count) + (width + 7) / 8
      else
        count / maxRepeatedValues * (5 + (width + 7) / 8) +
          if count % maxRepeatedValues = 0 then 0
          else varintSize (repeatedHeader (count % maxRepeatedValues)) + (width + 7) / 8) =
      (encodeRepeatedRuns order width v.toUInt32 count).length := by
    split
    · rename_i h0
      rw [h0, encodeRepeatedRuns, if_pos rfl]
      rfl
    · rename_i h0
      split
      · rename_i hfew
        rw [encodeRepeatedRuns, if_neg h0, if_pos hfew, List.length_append, dVarint_eq, varintSize_eq,
          writeValue_eq order hw, length_leBytes]
      · exact (length_encodeRepeatedRuns order hw v count).symm
  unfold withRepeatedSize
  simp only [hsize]
  by_cases h : maxBound < total + (encodeRepeatedRuns order width v.toUInt32 count).length
  · rw [if_pos h, if_pos (by omega)]
  · rw [if_neg h, if_neg (by omega)]

/-! ### Packed runs -/

/-- The zeros that fill the last group. -/
def padding (n : Nat) : Nat := (8 - n % 8) % 8

/-- The groups that hold `n` values. -/
def groupsOf (n : Nat) : Nat := n / 8 + if n % 8 = 0 then 0 else 1

theorem groupsOf_mul (n : Nat) : groupsOf n * 8 = n + padding n := by
  unfold groupsOf padding
  split <;> omega

theorem bits_zero : bits 0 = 0 := rfl

/-- One packed run, with its padding. -/
theorem packedRun_streams (order : ByteOrder) (hw : width ≤ 32) {groups : Nat} (hpos : 0 < groups) (hle : groups ≤ maxPackedGroups)
    {vs : List Int32} (hfits : ∀ v ∈ vs, bits v < 2 ^ width) {pad : Nat} (hpad : vs.length + pad = groups * 8) :
    ∃ payload, packValues order width (groups * width) vs = some payload ∧
      (dVarint (packedHeader groups) ++ payload).length = varintSize (packedHeader groups) + groups * width ∧
      Streams width (dVarint (packedHeader groups) ++ payload) (vs ++ List.replicate pad 0) := by
  have hg : groups < 2 ^ 63 := by unfold maxPackedGroups at hle; omega
  have hroom : vs.length * width ≤ 8 * (groups * width) := by
    calc vs.length * width ≤ groups * 8 * width := Nat.mul_le_mul_right _ (by omega)
      _ = 8 * (groups * width) := by ring
  refine ⟨_, packValues_eq order hw hfits hroom, ?_, ?_⟩
  · rw [List.length_append, dVarint_eq, varintSize_eq, length_leBytes]
  · have hlen : (vs ++ List.replicate pad (0 : Int32)).length = groups * 8 := by
      rw [List.length_append, List.length_replicate, hpad]
    have hall : ∀ v ∈ vs ++ List.replicate pad (0 : Int32), bits v < 2 ^ width := by
      intro v hv
      rcases List.mem_append.1 hv with hv | hv
      · exact hfits v hv
      · rw [List.eq_of_mem_replicate hv, bits_zero]
        exact Nat.two_pow_pos _
    have hdigits : Nat.ofDigits (2 ^ width) ((vs ++ List.replicate pad (0 : Int32)).map bits) =
        Nat.ofDigits (2 ^ width) (vs.map bits) := by
      rw [List.map_append, List.map_replicate, bits_zero, Nat.ofDigits_append_replicate_zero]
    have hrun := Streams.run (.packed groups _ hpos hle hlen hall)
    rw [Run.bytes, Run.payload, Run.header, Run.values, hdigits] at hrun
    rwa [dVarint_eq, toNat_packedHeader hg]

/-- The size of packed runs of `groups` groups, as it is computed. -/
def packedSize (width groups : Nat) : Nat :=
  groups / maxPackedGroups * 5 +
    (if groups % maxPackedGroups = 0 then 0 else varintSize (packedHeader (groups % maxPackedGroups))) + groups * width

theorem varintSize_maxPackedGroups : varintSize (packedHeader maxPackedGroups) = 5 := by
  rw [varintSize_eq, toNat_packedHeader (by decide)]
  exact le_antisymm (length_leb128_le (by decide)) (@le_length_leb128 4 _ (by decide))

theorem packedSize_small {groups : Nat} (hpos : 0 < groups) (hle : groups ≤ maxPackedGroups) :
    packedSize width groups = varintSize (packedHeader groups) + groups * width := by
  unfold packedSize
  rcases Nat.lt_or_eq_of_le hle with hlt | heq
  · rw [Nat.div_eq_of_lt hlt, Nat.mod_eq_of_lt hlt, if_neg (Nat.pos_iff_ne_zero.1 hpos), Nat.zero_mul, Nat.zero_add]
  · rw [heq, Nat.div_self (by decide), Nat.mod_self, if_pos rfl, varintSize_maxPackedGroups]

theorem packedSize_large {groups : Nat} (h : maxPackedGroups ≤ groups) :
    packedSize width groups = 5 + maxPackedGroups * width + packedSize width (groups - maxPackedGroups) := by
  unfold packedSize
  obtain ⟨g, rfl⟩ := Nat.exists_eq_add_of_le h
  rw [Nat.add_sub_cancel_left, Nat.add_div_left _ (by decide), Nat.add_mod_left, Nat.add_mul maxPackedGroups g width]
  omega

theorem encodePackedRuns_streams (order : ByteOrder) (hw : width ≤ 32) {vs : List Int32} (hfits : ∀ v ∈ vs, bits v < 2 ^ width) :
    ∃ bytes, encodePackedRuns order width vs = some bytes ∧ bytes.length = packedSize width (groupsOf vs.length) ∧
      Streams width bytes (vs ++ List.replicate (padding vs.length) 0) := by
  induction h : vs.length using Nat.strong_induction_on generalizing vs with
  | _ n ih =>
    subst h
    rw [encodePackedRuns]
    by_cases h0 : vs.length = 0
    · obtain rfl := List.length_eq_zero_iff.1 h0
      refine ⟨[], if_pos h0, ?_, Streams.nil⟩
      rw [List.length_nil]
      unfold packedSize groupsOf
      simp
    · have hmul := groupsOf_mul vs.length
      have hpos : 0 < groupsOf vs.length := by omega
      rw [if_neg h0]
      change ∃ bytes, (do
        let payload ← packValues order width (min maxPackedGroups (groupsOf vs.length) * width)
          (vs.take (min vs.length (min maxPackedGroups (groupsOf vs.length) * 8)))
        let rest ← encodePackedRuns order width (vs.drop (min vs.length (min maxPackedGroups (groupsOf vs.length) * 8)))
        some (dVarint (packedHeader (min maxPackedGroups (groupsOf vs.length))) ++ payload ++ rest)) = some bytes ∧ _
      by_cases hfew : groupsOf vs.length ≤ maxPackedGroups
      · rw [Nat.min_eq_right hfew, Nat.min_eq_left (by omega), List.take_length, List.drop_length]
        obtain ⟨payload, hpayload, hlen, hstreams⟩ :=
          packedRun_streams order hw hpos hfew hfits hmul.symm
        rw [hpayload, encodePackedRuns]
        refine ⟨dVarint (packedHeader (groupsOf vs.length)) ++ payload ++ [], rfl, ?_, ?_⟩
        · rw [List.append_nil, hlen, packedSize_small hpos hfew]
        · rwa [List.append_nil]
      · have hmany : maxPackedGroups ≤ groupsOf vs.length := by omega
        have hmax : 0 < maxPackedGroups := by decide
        have hpadlt : padding vs.length < 8 := Nat.mod_lt _ (by decide)
        have hle : maxPackedGroups * 8 ≤ vs.length := by omega
        rw [Nat.min_eq_left hmany, Nat.min_eq_right hle]
        have htake : (vs.take (maxPackedGroups * 8)).length + 0 = maxPackedGroups * 8 := by
          rw [List.length_take, Nat.min_eq_left hle, Nat.add_zero]
        obtain ⟨payload, hpayload, hlen, hstreams⟩ := packedRun_streams order hw hmax (le_refl _)
          (fun v hv => hfits v (List.mem_of_mem_take hv)) htake
        have hdrop : (vs.drop (maxPackedGroups * 8)).length = vs.length - maxPackedGroups * 8 := List.length_drop
        have hpadding : padding (vs.length - maxPackedGroups * 8) = padding vs.length := by
          unfold padding
          omega
        have hgroups : groupsOf (vs.length - maxPackedGroups * 8) = groupsOf vs.length - maxPackedGroups := by
          have := groupsOf_mul (vs.length - maxPackedGroups * 8)
          omega
        obtain ⟨rest, hrest, hrestlen, hreststreams⟩ := ih _ (by rw [hdrop]; omega)
          (fun v hv => hfits v (List.mem_of_mem_drop hv)) rfl
        rw [hpayload, hrest]
        refine ⟨dVarint (packedHeader maxPackedGroups) ++ payload ++ rest, rfl, ?_, ?_⟩
        · rw [List.length_append, hlen, hrestlen, hdrop, hgroups, packedSize_large hmany, varintSize_maxPackedGroups]
        · rw [hdrop, hpadding] at hreststreams
          have happ := hstreams.append hreststreams
          rwa [List.replicate_zero, List.append_nil, ← List.append_assoc, List.take_append_drop] at happ

theorem withPackedSize_eq (width count : Nat) {total : Nat} (htotal : total ≤ maxBound) :
    withPackedSize width count total =
      if maxBound < total + packedSize width (groupsOf count) then .error exceedsAddressable
      else .ok (total + packedSize width (groupsOf count)) := by
  unfold withPackedSize
  by_cases h0 : count = 0
  · subst h0
    have hzero : packedSize width (groupsOf 0) = 0 := by unfold packedSize groupsOf; simp
    rw [if_pos rfl, hzero, Nat.add_zero, if_neg (Nat.not_lt.2 htotal)]
  · rw [if_neg h0]
    have hcond (headers groups : Nat) : ((maxBound : Int) - total - headers < 0 ∨
        (width ≠ 0 ∧ (groups : Int) > ((maxBound : Int) - total - headers) / width)) ↔
        maxBound < total + (headers + groups * width) := by
      by_cases hw : width = 0
      · subst hw
        simp only [ne_eq, not_true_eq_false, false_and, or_false, Nat.mul_zero]
        omega
      · have hpos : (0 : Int) < width := by omega
        rw [gt_iff_lt, Int.ediv_lt_iff_lt_mul hpos, ← Int.natCast_mul]
        simp only [ne_eq, hw, not_false_eq_true, true_and]
        omega
    unfold packedSize groupsOf
    simp only [hcond, Nat.add_assoc]

/-! ### Mixed runs -/

theorem ok_bind {ε α β : Type} (a : α) (f : α → Except ε β) : (Except.ok a >>= f) = f a := rfl

theorem findRepeatedEnd.stop_eq (width start row : Nat) (atEnd : Bool) :
    stop width start row atEnd = 0 ∨ stop width start row atEnd = row := by
  unfold stop
  by_cases h : minimumRepeatedValues width ≤ row - start ∨ (atEnd ∧ (width ≠ 1 ∨ 9 ≤ row - start))
  · exact Or.inr (if_pos h)
  · exact Or.inl (if_neg h)

theorem findRepeatedEnd.go_eq (width start : Nat) (first : Int32) (row : Nat) (vs : List Int32) :
    go width start first row vs = 0 ∨
      ∃ n ≤ vs.length, go width start first row vs = row + n ∧ vs.take n = List.replicate n first := by
  induction vs generalizing row with
  | nil => exact (stop_eq width start row true).imp_right fun h => ⟨0, le_refl 0, h, rfl⟩
  | cons v vs ih =>
    unfold go
    by_cases hv : v = first
    · rw [if_neg (not_not.2 hv)]
      refine (ih (row + 1)).imp_right ?_
      rintro ⟨n, hn, hgo, htake⟩
      exact ⟨n + 1, Nat.succ_le_succ hn, by rw [hgo]; omega, by rw [List.take_succ_cons, htake, hv, List.replicate_succ]⟩
    · rw [if_pos hv]
      exact (stop_eq width start row false).imp_right fun h => ⟨0, Nat.zero_le _, h, rfl⟩

/-- A repeated run that is found is one. -/
theorem findRepeatedEnd_spec {values : List Int32} {row : Nat} (hrow : row < values.length)
    (h0 : findRepeatedEnd values row width ≠ 0) : findRepeatedEnd values row width ≤ values.length ∧
      values.drop row = List.replicate (findRepeatedEnd values row width - row) (values[row]?.getD 0) ++
        values.drop (findRepeatedEnd values row width) := by
  have hdrop := List.drop_eq_getElem_cons hrow
  have hget : values[row]?.getD 0 = values[row] := by rw [List.getElem?_eq_getElem hrow, Option.getD_some]
  rw [hget]
  unfold findRepeatedEnd at h0 ⊢
  rw [hdrop] at h0 ⊢
  simp only at h0 ⊢
  split at h0
  · exact absurd rfl h0
  · rename_i hno
    rw [if_neg hno]
    rcases findRepeatedEnd.go_eq width row values[row] (row + 1) (values.drop (row + 1)) with hzero | ⟨n, hn, hgo, htake⟩
    · exact absurd hzero h0
    · rw [List.length_drop] at hn
      have hrest : values.drop (row + 1) = List.replicate n values[row] ++ values.drop (row + 1 + n) := by
        rw [← htake, ← @List.drop_drop _ n (row + 1), List.take_append_drop]
      rw [hgo, show row + 1 + n - row = n + 1 by omega, List.replicate_succ, List.cons_append, ← hrest]
      exact ⟨by omega, rfl⟩

/-- What the writer writes from a row on, and what has been measured from there. -/
structure MixedRuns (order : ByteOrder) (width : Nat) (values : List Int32) (row packedStart : Nat) (bytes : List UInt8) :
    Prop where
  written : encodeMixedRuns.go order width values row packedStart = some bytes
  streams : ∃ pad, Streams width bytes (values.drop packedStart ++ List.replicate pad 0) ∧ pad < 8
  measured : ∀ (firstRepeated total : Nat) (hasRepeated : Bool), total ≤ maxBound → ∃ body,
    (body = .mixed values firstRepeated ∨
      body = .packed values ∧ hasRepeated = false ∧ encodePackedRuns order width (values.drop packedStart) = some bytes) ∧
    measureMixedHybrid.go width values firstRepeated row packedStart total hasRepeated =
      if maxBound < total + bytes.length then .error exceedsAddressable
      else .ok ⟨width, total + bytes.length, body⟩

theorem mixedRuns (order : ByteOrder) (hw : width ≤ 32) {values : List Int32} (hfits : ∀ v ∈ values, bits v < 2 ^ width)
    {row packedStart : Nat} (hstart : packedStart ≤ row) (hrow : row ≤ values.length)
    (haligned : (row - packedStart) % 8 = 0 ∨ row = values.length) : ∃ bytes, MixedRuns order width values row packedStart bytes := by
  induction h : values.length - row using Nat.strong_induction_on generalizing row packedStart with
  | _ n ih =>
    subst h
    by_cases hend : values.length ≤ row
    · obtain rfl : row = values.length := le_antisymm hrow hend
      have hslice : (values.drop packedStart).take (values.length - packedStart) = values.drop packedStart :=
        List.take_of_length_le (by rw [List.length_drop])
      obtain ⟨bytes, hbytes, hlen, hstreams⟩ :=
        @encodePackedRuns_streams width order hw (values.drop packedStart) fun v hv => hfits v (List.mem_of_mem_drop hv)
      refine ⟨bytes, ?_, ⟨_, hstreams, Nat.mod_lt _ (by decide)⟩, fun firstRepeated total hasRepeated htotal => ?_⟩
      · rw [encodeMixedRuns.go, if_pos hend, hslice, hbytes]
      · refine ⟨if hasRepeated then .mixed values firstRepeated else .packed values, ?_, ?_⟩
        · cases hasRepeated with
          | true => exact Or.inl rfl
          | false => exact Or.inr ⟨rfl, rfl, hbytes⟩
        · rw [measureMixedHybrid.go, if_pos hend, withPackedSize_eq width _ htotal, ← List.length_drop, ← hlen]
          split <;> rfl
    · have hlt : row < values.length := Nat.lt_of_not_le hend
      have hmod : (row - packedStart) % 8 = 0 := haligned.resolve_right (by omega)
      by_cases hfind : findRepeatedEnd values row width = 0
      · -- the packed part goes on for a group, or to the end
        obtain ⟨bytes, hbytes⟩ := @ih (values.length - (row + min 8 (values.length - row))) (by omega)
          (row + min 8 (values.length - row)) packedStart (by omega) (by omega) (by omega) rfl
        refine ⟨bytes, ?_, hbytes.streams, fun firstRepeated total hasRepeated htotal => ?_⟩
        · rw [encodeMixedRuns.go, if_neg hend, if_pos hfind]
          exact hbytes.written
        · obtain ⟨body, hbody, hmeasure⟩ := hbytes.measured firstRepeated total hasRepeated htotal
          refine ⟨body, hbody, ?_⟩
          rw [measureMixedHybrid.go, if_neg hend, if_pos hfind]
          exact hmeasure
      · -- the packed part ends here, with whole groups
        have hlater := lt_findRepeatedEnd hfind
        obtain ⟨hle, hrun⟩ := findRepeatedEnd_spec hlt hfind
        obtain ⟨rest, hrest⟩ := ih (values.length - findRepeatedEnd values row width) (by omega)
          (le_refl (findRepeatedEnd values row width)) hle (Or.inl (by rw [Nat.sub_self])) rfl
        obtain ⟨pad, hreststreams, hpad⟩ := hrest.streams
        have hslicelen : ((values.drop packedStart).take (row - packedStart)).length = row - packedStart := by
          rw [List.length_take, List.length_drop]
          omega
        obtain ⟨packed, hpacked, hpackedlen, hpackedstreams⟩ := @encodePackedRuns_streams width order hw
          ((values.drop packedStart).take (row - packedStart))
          fun v hv => hfits v (List.mem_of_mem_drop (List.mem_of_mem_take hv))
        have hnopad : padding (row - packedStart) = 0 := by unfold padding; omega
        rw [hslicelen] at hpackedlen hpackedstreams
        rw [hnopad, List.replicate_zero, List.append_nil] at hpackedstreams
        have hv : bits (values[row]?.getD 0) < 2 ^ width := by
          rw [List.getElem?_eq_getElem hlt, Option.getD_some]
          exact hfits _ (List.getElem_mem hlt)
        have hrepeated := encodeRepeatedRuns_streams order hw hv (findRepeatedEnd values row width - row)
        have hsplit : values.drop packedStart = (values.drop packedStart).take (row - packedStart) ++
            (List.replicate (findRepeatedEnd values row width - row) (values[row]?.getD 0) ++
              values.drop (findRepeatedEnd values row width)) := by
          rw [← hrun, show values.drop row = (values.drop packedStart).drop (row - packedStart) by
            rw [List.drop_drop, Nat.add_sub_cancel' hstart], List.take_append_drop]
        refine ⟨packed ++ encodeRepeatedRuns order width (values[row]?.getD 0).toUInt32
          (findRepeatedEnd values row width - row) ++ rest, ?_, ⟨pad, ?_, hpad⟩, fun firstRepeated total hasRepeated htotal => ?_⟩
        · rw [encodeMixedRuns.go, if_neg hend, if_neg hfind, hpacked, hrest.written]
          rfl
        · have happ := (hpackedstreams.append hrepeated).append hreststreams
          rw [hsplit]
          simpa only [List.append_assoc] using happ
        · rw [measureMixedHybrid.go, if_neg hend, if_neg hfind, withPackedSize_eq width _ htotal, ← hpackedlen,
            List.length_append, List.length_append]
          by_cases h1 : maxBound < total + packed.length
          · refine ⟨.mixed values firstRepeated, Or.inl rfl, ?_⟩
            rw [if_pos h1, if_pos (by omega)]
            rfl
          · rw [if_neg h1]
            simp only [ok_bind, withRepeatedSize_eq order hw (values[row]?.getD 0)]
            by_cases h2 : maxBound < total + packed.length + (encodeRepeatedRuns order width (values[row]?.getD 0).toUInt32
                (findRepeatedEnd values row width - row)).length
            · refine ⟨.mixed values firstRepeated, Or.inl rfl, ?_⟩
              rw [if_pos h2, if_pos (by omega)]
              rfl
            · obtain ⟨body, hbody, hmeasure⟩ := hrest.measured firstRepeated _ true (Nat.not_lt.1 h2)
              refine ⟨body, ?_, ?_⟩
              · rcases hbody with rfl | ⟨-, hfalse, -⟩
                · exact Or.inl rfl
                · cases hfalse
              · rw [if_neg h2]
                simp only [ok_bind]
                rw [hmeasure]
                simp only [Nat.add_assoc]

end Wireform.Parquet

/-
  Varint encoders, and the five decoders on what they write
  (`Proto.Internal.Wire.Encode`, `hs_proto_encode_varint`,
  `hs_proto_decode_varint_fast`).

  Both encoders, with their unrolled cases, write the number in groups of seven
  bits (`leb128`), and `varintSize` counts the groups.

  * `putVarint_eq`, `encodeVarint_eq`, `varintSize_eq`: the encoders;
  * `getVarintLazy_leb128`: what a decoder reads of it;
  * `decodeVarintFast_eq`: the decoder with five unrolled bytes reads any window as
    `getVarintLazy` does;
  * `varint_codecs_agree`: the round trips.
-/
import Wireform.Numerals
import Wireform.Proto.Packed

namespace Wireform.Proto

/-! ## Encoders -/

/-- The low seven bits, with a continuation bit. -/
def moreByte (n : UInt64) : UInt8 := (n &&& 0x7F).toUInt8 ||| 0x80

theorem shiftRight_lt {n : UInt64} (h : ¬ n < 0x80) : (n >>> 7).toNat < n.toNat := by
  have hn : 128 ≤ n.toNat := UInt64.not_lt.1 h
  rw [UInt64.toNat_shiftRight, show (7 : UInt64).toNat % 64 = 7 from rfl, Nat.shiftRight_eq_div_pow]
  omega

def putVarintSlow (n : UInt64) : ByteString :=
  if n < 0x80 then [n.toUInt8] else moreByte n :: putVarintSlow (n >>> 7)
termination_by n.toNat
decreasing_by exact shiftRight_lt ‹_›

def putVarint (n : UInt64) : ByteString :=
  if n < 0x80 then [n.toUInt8]
  else if n < 0x4000 then [moreByte n, (n >>> 7).toUInt8]
  else if n < 0x200000 then [moreByte n, ((n >>> 7) &&& 0x7F).toUInt8 ||| 0x80, (n >>> 14).toUInt8]
  else putVarintSlow n

/-- `countLeadingZeros`. -/
def countLeadingZeros (w : UInt64) : Nat := if w = 0 then 64 else 63 - w.toNat.log2

def varintSize (n : UInt64) : Nat := (64 - countLeadingZeros (n ||| 1) + 6) / 7

/-- The loop of `hs_proto_encode_varint`, with the count `n` so far: the bytes it
    writes, and the count at its end. -/
def encodeVarint.go (value : UInt64) (n : Nat) : ByteString × Nat :=
  if value < 0x80 then ([value.toUInt8], n + 1)
  else
    let r := go (value >>> 7) (n + 1)
    (((value &&& 0x7F) ||| 0x80).toUInt8 :: r.1, r.2)
termination_by value.toNat
decreasing_by exact shiftRight_lt ‹_›

/-- `hs_proto_encode_varint`: the bytes written, and the count returned. -/
def encodeVarint (value : UInt64) : ByteString × Nat :=
  if value < 0x80 then ([value.toUInt8], 1)
  else if value < 0x4000 then ([((value &&& 0x7F) ||| 0x80).toUInt8, (value >>> 7).toUInt8], 2)
  else if value < 0x200000 then
    ([((value &&& 0x7F) ||| 0x80).toUInt8, (((value >>> 7) &&& 0x7F) ||| 0x80).toUInt8,
      (value >>> 14).toUInt8], 3)
  else if value < 0x10000000 then
    ([((value &&& 0x7F) ||| 0x80).toUInt8, (((value >>> 7) &&& 0x7F) ||| 0x80).toUInt8,
      (((value >>> 14) &&& 0x7F) ||| 0x80).toUInt8, (value >>> 21).toUInt8], 4)
  else if value < 0x800000000 then
    ([((value &&& 0x7F) ||| 0x80).toUInt8, (((value >>> 7) &&& 0x7F) ||| 0x80).toUInt8,
      (((value >>> 14) &&& 0x7F) ||| 0x80).toUInt8, (((value >>> 21) &&& 0x7F) ||| 0x80).toUInt8,
      (value >>> 28).toUInt8], 5)
  else encodeVarint.go value 0

/-! ## Groups of seven bits -/

theorem toNat_shiftRight_div {n s : UInt64} (hs : s.toNat < 64) : (n >>> s).toNat = n.toNat / 2 ^ s.toNat := by
  rw [UInt64.toNat_shiftRight, Nat.mod_eq_of_lt hs, Nat.shiftRight_eq_div_pow]

theorem toNat_low7 (n : UInt64) : (n &&& 0x7F).toNat = n.toNat % 128 := by
  rw [UInt64.toNat_and]
  exact Nat.and_two_pow_sub_one_eq_mod n.toNat 7

/-- A byte with a continuation bit. -/
theorem moreByte_eq (n : UInt64) : moreByte n = UInt8.ofNat (n.toNat % 128 + 128) := by
  have hlow : ((n &&& 0x7F).toUInt8).toNat = n.toNat % 128 := by
    rw [UInt64.toNat_toUInt8, toNat_low7]
    omega
  apply UInt8.toNat_inj.1
  rw [moreByte, UInt8.toNat_or, hlow, Nat.or_comm, show (0x80 : UInt8).toNat = 2 ^ 7 * 1 from rfl,
    ← Nat.two_pow_add_eq_or_of_lt (show n.toNat % 128 < 2 ^ 7 by omega), UInt8.toNat_ofNat']
  omega

/-- The cast after the continuation bit is set. -/
theorem moreByte_cast (n : UInt64) : ((n &&& 0x7F) ||| 0x80).toUInt8 = moreByte n := by
  apply UInt8.toNat_inj.1
  rw [moreByte, UInt64.toUInt8_or]
  rfl

theorem lastByte_eq {n : UInt64} : n.toUInt8 = UInt8.ofNat n.toNat := by
  apply UInt8.toNat_inj.1
  rw [UInt64.toNat_toUInt8, UInt8.toNat_ofNat']

theorem leb128_last {n : UInt64} (h : n < 0x80) : leb128 n.toNat = [n.toUInt8] := by
  rw [leb128_small (show n.toNat < 128 from h), lastByte_eq]

theorem leb128_more {n : UInt64} (h : ¬ n < 0x80) : leb128 n.toNat = moreByte n :: leb128 (n >>> 7).toNat := by
  rw [leb128_large (show 128 ≤ n.toNat from UInt64.not_lt.1 h), moreByte_eq]
  congr 2
  exact (toNat_shiftRight_div (show (7 : UInt64).toNat < 64 by decide)).symm

theorem putVarintSlow_eq (n : UInt64) : putVarintSlow n = leb128 n.toNat := by
  fun_induction putVarintSlow n with
  | case1 n h => rw [leb128_last h]
  | case2 n h ih => rw [leb128_more h, ih]

/-- The group at a shift, with more behind it. -/
theorem leb128_step (n s s' : UInt64) (hs : s.toNat + 7 = s'.toNat) (h : s'.toNat < 64)
    (hn : 128 * 2 ^ s.toNat ≤ n.toNat) :
    leb128 (n >>> s).toNat = moreByte (n >>> s) :: leb128 (n >>> s').toNat := by
  have hge : ¬ n >>> s < 0x80 := by
    refine UInt64.not_lt.2 ?_
    show 128 ≤ (n >>> s).toNat
    rw [toNat_shiftRight_div (by omega)]
    exact (Nat.le_div_iff_mul_le (Nat.two_pow_pos _)).2 hn
  have hnext : ((n >>> s) >>> 7).toNat = (n >>> s').toNat := by
    rw [toNat_shiftRight_div (show (7 : UInt64).toNat < 64 by decide), toNat_shiftRight_div (by omega),
      toNat_shiftRight_div h, Nat.div_div_eq_div_mul, ← hs, pow_add]
    rfl
  rw [leb128_more hge, hnext]

/-- The last group. -/
theorem leb128_stop (n s : UInt64) (h : s.toNat < 64) (hn : n.toNat < 128 * 2 ^ s.toNat) :
    leb128 (n >>> s).toNat = [(n >>> s).toUInt8] := by
  refine leb128_last ?_
  show (n >>> s).toNat < 128
  rw [toNat_shiftRight_div h]
  exact (Nat.div_lt_iff_lt_mul (Nat.two_pow_pos _)).2 hn

theorem putVarint_eq (n : UInt64) : putVarint n = leb128 n.toNat := by
  unfold putVarint
  split
  · exact (leb128_last ‹_›).symm
  · rename_i h1
    split
    · rename_i h2
      rw [leb128_more h1, leb128_stop n 7 (by decide) h2]
    · rename_i h2
      split
      · rename_i h3
        rw [leb128_more h1, leb128_step n 7 14 rfl (by decide) (UInt64.not_lt.1 h2), leb128_stop n 14 (by decide) h3]
        rfl
      · exact putVarintSlow_eq n

theorem encodeVarint_go_eq (value : UInt64) (n : Nat) :
    encodeVarint.go value n = (leb128 value.toNat, n + (leb128 value.toNat).length) := by
  fun_induction encodeVarint.go value n with
  | case1 value n h => rw [leb128_last h, List.length_singleton]
  | case2 value n h r ih =>
    rw [leb128_more h, moreByte_cast]
    simp only [r, ih, List.length_cons]
    congr 1
    omega

/-- **The C encoder writes the same bytes**, and returns their number. -/
theorem encodeVarint_eq (n : UInt64) : encodeVarint n = (leb128 n.toNat, (leb128 n.toNat).length) := by
  unfold encodeVarint
  simp only [moreByte_cast]
  split
  · rw [leb128_last ‹_›]
    rfl
  · rename_i h1
    split
    · rename_i h2
      rw [leb128_more h1, leb128_stop n 7 (by decide) h2]
      rfl
    · rename_i h2
      have h2' := UInt64.not_lt.1 h2
      split
      · rename_i h3
        rw [leb128_more h1, leb128_step n 7 14 rfl (by decide) h2', leb128_stop n 14 (by decide) h3]
        rfl
      · rename_i h3
        have h3' := UInt64.not_lt.1 h3
        split
        · rename_i h4
          rw [leb128_more h1, leb128_step n 7 14 rfl (by decide) h2', leb128_step n 14 21 rfl (by decide) h3',
            leb128_stop n 21 (by decide) h4]
          rfl
        · rename_i h4
          have h4' := UInt64.not_lt.1 h4
          split
          · rename_i h5
            rw [leb128_more h1, leb128_step n 7 14 rfl (by decide) h2', leb128_step n 14 21 rfl (by decide) h3',
              leb128_step n 21 28 rfl (by decide) h4', leb128_stop n 28 (by decide) h5]
            rfl
          · rw [encodeVarint_go_eq, Nat.zero_add]

/-! ## Sizes -/

theorem toNat_or_one (n : UInt64) : (n ||| 1).toNat = n.toNat ||| 1 := by rw [UInt64.toNat_or]; rfl

theorem varintSize_log2 (n : UInt64) : varintSize n = (n.toNat ||| 1).log2 / 7 + 1 := by
  have hne : n ||| 1 ≠ 0 := by
    intro h
    have h1 : (n ||| 1).toNat = 0 := by rw [h]; rfl
    rw [toNat_or_one] at h1
    have := @Nat.right_le_or n.toNat 1
    omega
  have hlt : (n.toNat ||| 1).log2 < 64 := by
    rw [← toNat_or_one]
    exact (Nat.log2_lt (by rw [toNat_or_one]; have := @Nat.right_le_or n.toNat 1; omega)).2 (UInt64.toNat_lt _)
  rw [varintSize, countLeadingZeros, if_neg hne, toNat_or_one]
  omega

/-- **The size is the number of groups.** -/
theorem varintSize_eq (n : UInt64) : varintSize n = (leb128 n.toNat).length := by
  rw [varintSize_log2]
  have hm0 : n.toNat ||| 1 ≠ 0 := by have := @Nat.right_le_or n.toNat 1; omega
  generalize hk : (n.toNat ||| 1).log2 / 7 = k
  have hpow (i : Nat) : 128 ^ i = 2 ^ (7 * i) := by rw [Nat.pow_mul]
  apply le_antisymm
  · rcases Nat.eq_zero_or_pos k with rfl | hpos
    · exact length_leb128_pos _
    · refine le_length_leb128 ?_
      have hle : 2 ^ (7 * k) ≤ n.toNat ||| 1 :=
        (Nat.pow_le_pow_right (by decide) (by omega)).trans (Nat.log2_self_le hm0)
      -- the last bit does not matter: the power is even
      have hhalf : (n.toNat ||| 1) / 2 = n.toNat / 2 := by rw [Nat.or_div_two, show 1 / 2 = 0 from rfl, Nat.or_zero]
      have heven : 2 ^ (7 * k) = 2 * 2 ^ (7 * k - 1) := by
        rw [← Nat.pow_succ']
        congr 1
        omega
      rw [hpow, heven]
      omega
  · refine length_leb128_le ?_
    have hlt : n.toNat ||| 1 < 2 ^ ((n.toNat ||| 1).log2 + 1) := Nat.lt_log2_self
    have hn : n.toNat ≤ n.toNat ||| 1 := Nat.left_le_or
    calc n.toNat < 2 ^ ((n.toNat ||| 1).log2 + 1) := hn.trans_lt hlt
      _ ≤ 2 ^ (7 * (k + 1)) := Nat.pow_le_pow_right (by decide) (by omega)
      _ = 128 ^ (k + 1) := (hpow (k + 1)).symm

theorem varintSize_range (n : UInt64) : 1 ≤ varintSize n ∧ varintSize n ≤ 10 := by
  have hlt := n.toNat_lt
  rw [varintSize_eq]
  exact ⟨length_leb128_pos _, length_leb128_le (k := 9) (by omega)⟩

/-! ## Decoders -/

theorem varintBits_toNat {b : UInt8} : (b.toUInt64 &&& 0x7F).toNat = b.toNat % 128 := by
  rw [toNat_low7, UInt8.toNat_toUInt64]

/-- The loop of a decoder, behind `k` bytes. -/
theorem getVarintLazy_go_leb128 {rest : ByteString} {n k : Nat} {acc : UInt64} (hk : k ≤ 9)
    (hacc : acc.toNat < 2 ^ (7 * k)) (hn : n * 2 ^ (7 * k) < 2 ^ 64) :
    getVarintLazy.go acc (7 * k) (leb128 n ++ rest) = .ok (UInt64.ofNat (acc.toNat + n * 2 ^ (7 * k)), rest) := by
  induction n using Nat.strong_induction_on generalizing k acc with
  | _ n ih =>
    by_cases hs : n < 128
    · have hb : (UInt8.ofNat n).toNat = n := UInt8.toNat_ofNat_of_lt' (by change n < 256; omega)
      have hlow : ((UInt8.ofNat n).toUInt64 &&& 0x7F).toNat = n := by
        rw [varintBits_toNat, hb, Nat.mod_eq_of_lt hs]
      have hlast : UInt8.ofNat n < 0x80 := by
        show (UInt8.ofNat n).toNat < 128
        rwa [hb]
      have hsum := toNat_or_shift (by omega : 7 * k < 64) hacc (show ((UInt8.ofNat n).toUInt64 &&& 0x7F).toNat * _ < _ by
        rwa [hlow])
      rw [hlow] at hsum
      rw [leb128_small hs, List.singleton_append, getVarintLazy_go_cons (by omega), if_pos hlast, ← hsum,
        UInt64.ofNat_toNat]
      rfl
    · have hb : (UInt8.ofNat (n % 128 + 128)).toNat = n % 128 + 128 :=
        UInt8.toNat_ofNat_of_lt' (by change n % 128 + 128 < 256; omega)
      have hlow : ((UInt8.ofNat (n % 128 + 128)).toUInt64 &&& 0x7F).toNat = n % 128 := by
        rw [varintBits_toNat, hb]
        omega
      have hmore : ¬ UInt8.ofNat (n % 128 + 128) < 0x80 := by
        show ¬ (UInt8.ofNat (n % 128 + 128)).toNat < 128
        rw [hb]
        omega
      have hpow : 2 ^ (7 * (k + 1)) = 128 * 2 ^ (7 * k) := by
        rw [Nat.mul_succ, pow_add]
        omega
      have hdiv : n / 128 * 2 ^ (7 * (k + 1)) + n % 128 * 2 ^ (7 * k) = n * 2 ^ (7 * k) := by
        rw [hpow, ← Nat.mul_assoc, ← Nat.add_mul]
        congr 1
        omega
      have hk' : k + 1 ≤ 9 := by
        by_contra hno
        obtain rfl : k = 9 := by omega
        have : 128 * 2 ^ 63 ≤ n * 2 ^ 63 := Nat.mul_le_mul_right _ (by omega)
        omega
      have hsum := toNat_or_shift (by omega : 7 * k < 64) hacc
        (show ((UInt8.ofNat (n % 128 + 128)).toUInt64 &&& 0x7F).toNat * _ < _ by rw [hlow]; omega)
      rw [hlow] at hsum
      have hacc' : acc.toNat + n % 128 * 2 ^ (7 * k) < 2 ^ (7 * (k + 1)) := by
        have : n % 128 * 2 ^ (7 * k) ≤ 127 * 2 ^ (7 * k) := Nat.mul_le_mul_right _ (by omega)
        omega
      rw [leb128_large (by omega), List.cons_append, getVarintLazy_go_cons (by omega), if_neg hmore,
        show 7 * k + 7 = 7 * (k + 1) by omega]
      have hih := @ih (n / 128) (by omega) (k + 1) (acc ||| varintBits (UInt8.ofNat (n % 128 + 128)) (7 * k)) hk'
        (by rw [varintBits, hsum]; exact hacc') (by omega)
      rw [hih, varintBits, hsum]
      congr 3
      omega

theorem getVarintLazy_leb128 (n : UInt64) (rest : ByteString) :
    getVarintLazy (leb128 n.toNat ++ rest) = .ok (n, rest) := by
  have h := @getVarintLazy_go_leb128 rest n.toNat 0 0 (by decide) (by decide) (by have := n.toNat_lt; omega)
  rw [getVarintLazy, h]
  simp

/-! ## The unrolled C decoder -/

/-- The loop of `hs_proto_decode_varint_fast`, over the shifts still allowed. -/
def decodeVarintFast.go (buf : ByteString) (len offset : Nat) : List Nat → UInt64 → Nat → Option (UInt64 × Nat)
  | [], _, _ => none
  | shift :: shifts, result, pos =>
    if pos < len then
      let b := buf.getD pos 0
      if b < 0x80 then some (result ||| varintBits b shift, pos + 1 - offset)
      else go buf len offset shifts (result ||| varintBits b shift) (pos + 1)
    else none

/-- `hs_proto_decode_varint_fast`: the value and the number of bytes consumed.  The
    caller passes no more than the length of the buffer. -/
def decodeVarintFast (buf : ByteString) (len offset : Nat) : Option (UInt64 × Nat) :=
  if offset ≥ len then none
  else
    let b0 := buf.getD offset 0
    if b0 < 0x80 then some (b0.toUInt64, 1)
    else if len - offset ≤ 1 then none
    else
      let b1 := buf.getD (offset + 1) 0
      if b1 < 0x80 then some (varintBits b0 0 ||| b1.toUInt64 <<< 7, 2)
      else if len - offset ≤ 2 then none
      else
        let b2 := buf.getD (offset + 2) 0
        if b2 < 0x80 then some (varintBits b0 0 ||| varintBits b1 7 ||| b2.toUInt64 <<< 14, 3)
        else if len - offset ≤ 3 then none
        else
          let b3 := buf.getD (offset + 3) 0
          if b3 < 0x80 then
            some (varintBits b0 0 ||| varintBits b1 7 ||| varintBits b2 14 ||| b3.toUInt64 <<< 21, 4)
          else if len - offset ≤ 4 then none
          else
            let b4 := buf.getD (offset + 4) 0
            if b4 < 0x80 then
              some (varintBits b0 0 ||| varintBits b1 7 ||| varintBits b2 14 ||| varintBits b3 21 |||
                b4.toUInt64 <<< 28, 5)
            else
              decodeVarintFast.go buf len offset [35, 42, 49, 56, 63]
                (varintBits b0 0 ||| varintBits b1 7 ||| varintBits b2 14 ||| varintBits b3 21 ||| varintBits b4 28)
                (offset + 5)

section
variable {buf : ByteString} {len offset pos : Nat}

/-- A lazy result, as a count of the bytes before what is left of the window. -/
def counted (len offset : Nat) : Except DecodeError (UInt64 × ByteString) → Option (UInt64 × Nat)
  | .ok (w, rest) => some (w, len - offset - rest.length)
  | .error _ => none

attribute [grind =] counted

theorem window_cons (hl : len ≤ buf.length) (h : pos < len) :
    (buf.take len).drop pos = buf.getD pos 0 :: (buf.take len).drop (pos + 1) := by
  have hlt : pos < (buf.take len).length := by rw [List.length_take]; omega
  rw [List.drop_eq_getElem_cons hlt, List.getElem_take, List.getD_eq_getElem?_getD,
    List.getElem?_eq_getElem (by omega), Option.getD_some]

theorem window_end (h : ¬ pos < len) : (buf.take len).drop pos = [] := by
  rw [List.drop_eq_nil_iff, List.length_take]
  omega

theorem window_length (hl : len ≤ buf.length) : ((buf.take len).drop pos).length = len - pos := by
  rw [List.length_drop, List.length_take, Nat.min_eq_left hl]

/-- One byte of the window. -/
theorem counted_cons (hl : len ≤ buf.length) (h : pos < len) {shift : Nat} (hs : shift ≤ 63) (acc : UInt64) :
    counted len offset (getVarintLazy.go acc shift ((buf.take len).drop pos)) =
      if buf.getD pos 0 < 0x80 then some (acc ||| varintBits (buf.getD pos 0) shift, len - offset - (len - (pos + 1)))
      else counted len offset (getVarintLazy.go (acc ||| varintBits (buf.getD pos 0) shift) (shift + 7)
        ((buf.take len).drop (pos + 1))) := by
  rw [window_cons hl h, getVarintLazy_go_cons hs]
  split
  · rw [counted, window_length hl]
  · rfl

theorem counted_end (h : ¬ pos < len) {shift : Nat} (hs : shift ≤ 63) (acc : UInt64) :
    counted len offset (getVarintLazy.go acc shift ((buf.take len).drop pos)) = none := by
  rw [window_end h, getVarintLazy_go_nil hs]
  rfl

theorem lastBits {b : UInt8} (hb : b < 0x80) (shift : Nat) : varintBits b shift = b.toUInt64 <<< UInt64.ofNat shift := by
  rw [varintBits, varintBits_small hb]

theorem count_of_window {k : Nat} (h : offset + k < len) : len - offset - (len - (offset + k + 1)) = k + 1 := by omega

theorem decodeVarintFast_go_eq (hl : len ≤ buf.length) : ∀ (n k : Nat), n + k = 10 → ∀ (acc : UInt64) (pos : Nat),
    offset ≤ pos → decodeVarintFast.go buf len offset (varintShifts.drop k) acc pos =
      counted len offset (getVarintLazy.go acc (7 * k) ((buf.take len).drop pos))
  | 0, k, hk, acc, pos, _ => by
    obtain rfl : k = 10 := by omega
    rw [getVarintLazy_go_stop (by omega)]
    rfl
  | n + 1, k, hk, acc, pos, hp => by
    rw [varintShifts_drop k (by omega), decodeVarintFast.go]
    by_cases h : pos < len
    · rw [if_pos h, counted_cons hl h (by omega)]
      simp only
      split
      · congr 2
        omega
      · exact decodeVarintFast_go_eq hl n (k + 1) (by omega) _ _ (by omega)
    · rw [if_neg h, counted_end h (by omega)]

/-- **The unrolled decoder reads its window as the byte-at-a-time one does.** -/
theorem decodeVarintFast_eq (hl : len ≤ buf.length) :
    decodeVarintFast buf len offset = counted len offset (getVarintLazy ((buf.take len).drop offset)) := by
  unfold decodeVarintFast getVarintLazy
  by_cases l0 : offset < len
  swap
  · rw [if_pos (by omega), counted_end l0 (by omega)]
  rw [if_neg (by omega), counted_cons hl l0 (by omega), UInt64.zero_or]
  simp only
  by_cases s0 : buf.getD offset 0 < 0x80
  · rw [if_pos s0, if_pos s0, lastBits s0, show len - offset - (len - (offset + 1)) = 1 by omega]
    simp
  rw [if_neg s0, if_neg s0]
  by_cases l1 : offset + 1 < len
  swap
  · rw [if_pos (by omega), counted_end l1 (by omega)]
  rw [if_neg (by omega), counted_cons hl l1 (by omega)]
  by_cases s1 : buf.getD (offset + 1) 0 < 0x80
  · rw [if_pos s1, if_pos s1, lastBits s1, count_of_window (k := 1) l1]
    rfl
  rw [if_neg s1, if_neg s1]
  by_cases l2 : offset + 1 + 1 < len
  swap
  · rw [if_pos (by omega), counted_end l2 (by omega)]
  rw [if_neg (by omega), counted_cons hl l2 (by omega)]
  by_cases s2 : buf.getD (offset + 1 + 1) 0 < 0x80
  · rw [if_pos s2, if_pos s2, lastBits s2, count_of_window (k := 2) l2]
    rfl
  rw [if_neg s2, if_neg s2]
  by_cases l3 : offset + 1 + 1 + 1 < len
  swap
  · rw [if_pos (by omega), counted_end l3 (by omega)]
  rw [if_neg (by omega), counted_cons hl l3 (by omega)]
  by_cases s3 : buf.getD (offset + 1 + 1 + 1) 0 < 0x80
  · rw [if_pos s3, if_pos s3, lastBits s3, count_of_window (k := 3) l3]
    rfl
  rw [if_neg s3, if_neg s3]
  by_cases l4 : offset + 1 + 1 + 1 + 1 < len
  swap
  · rw [if_pos (by omega), counted_end l4 (by omega)]
  rw [if_neg (by omega), counted_cons hl l4 (by omega)]
  by_cases s4 : buf.getD (offset + 1 + 1 + 1 + 1) 0 < 0x80
  · rw [if_pos s4, if_pos s4, lastBits s4, count_of_window (k := 4) l4]
    rfl
  rw [if_neg s4, if_neg s4]
  exact decodeVarintFast_go_eq hl 5 5 rfl _ _ (by omega)

end

/-! ## ZigZag -/

/-- ZigZag encoding for 32-bit signed integers. -/
def zigZag32 (n : Int32) : UInt32 := ((n <<< 1) ^^^ (n >>> 31)).toUInt32

/-- ZigZag encoding for 64-bit signed integers. -/
def zigZag64 (n : Int64) : UInt64 := ((n <<< 1) ^^^ (n >>> 63)).toUInt64

def putSVarint32 (n : Int32) : ByteString := putVarint (zigZag32 n).toUInt64

def putSVarint64 (n : Int64) : ByteString := putVarint (zigZag64 n)

theorem neg_and_one {w : Nat} (z : BitVec (w + 1)) : -(z &&& 1#(w + 1)) = if z.getLsbD 0 then BitVec.allOnes (w + 1) else 0#(w + 1) := by
  rw [BitVec.and_one_eq_setWidth_ofBool_getLsbD]
  cases z.getLsbD 0
  · simp
  · simp [← BitVec.neg_one_eq_allOnes]

/-- The bits of a zigzag number: the sign first, then the bits, inverted by it. -/
theorem getLsbD_zigzag {w : Nat} (b : BitVec (w + 1)) (i : Nat) :
    ((b <<< 1) ^^^ b.sshiftRight w).getLsbD i =
      (decide (i < w + 1) && ((decide (0 < i) && b.getLsbD (i - 1)) ^^ b.getLsbD w)) := by
  have hmsb : b.msb = b.getLsbD w := BitVec.msb_eq_getLsbD_last b
  rw [BitVec.getLsbD_xor, BitVec.getLsbD_shiftLeft, BitVec.getLsbD_sshiftRight, hmsb]
  by_cases hi : i < w + 1
  · by_cases h0 : 0 < i
    · rw [if_neg (show ¬ w + i < w + 1 by omega), decide_eq_false (show ¬ i < 1 by omega), decide_eq_true h0,
        decide_eq_true hi, decide_eq_false (show ¬ w + 1 ≤ i by omega)]
      simp
    · obtain rfl : i = 0 := by omega
      simp
  · rw [decide_eq_false hi, decide_eq_true (show w + 1 ≤ i by omega)]
    simp

/-- Decoding the zigzag number gives the bits back. -/
theorem unzigzag_zigzag {w : Nat} (b : BitVec (w + 1)) :
    (((b <<< 1) ^^^ b.sshiftRight w) >>> 1) ^^^ -(((b <<< 1) ^^^ b.sshiftRight w) &&& 1#(w + 1)) = b := by
  rw [neg_and_one, getLsbD_zigzag]
  refine BitVec.eq_of_getLsbD_eq fun i hi => ?_
  rw [BitVec.getLsbD_xor, BitVec.getLsbD_ushiftRight, getLsbD_zigzag]
  by_cases hw : i = w
  · subst hw
    rw [decide_eq_false (show ¬ 1 + i < i + 1 by omega)]
    cases hb : b.getLsbD i <;> simp
  · cases hb : b.getLsbD w <;> simp [hi, show i < w by omega, Nat.add_comm 1 i]

theorem unZigZag64_zigZag64 (n : Int64) : unZigZag64 (zigZag64 n) = n := by
  apply Int64.toBitVec_inj.1
  have h := unzigzag_zigzag (w := 63) n.toBitVec
  simp only [unZigZag64, zigZag64]
  exact h

theorem unZigZag32_zigZag32 (n : Int32) : unZigZag32 (zigZag32 n) = n := by
  apply Int32.toBitVec_inj.1
  have h := unzigzag_zigzag (w := 31) n.toBitVec
  simp only [unZigZag32, zigZag32]
  exact h

/-! ## Round trips -/

/-- What the decoders make of the bytes of `n`, with more behind them. -/
structure ReadsBack (n : UInt64) (bs rest : ByteString) : Prop where
  indexed : getVarint bs 0 = .ok n (varintSize n)
  slow : getVarintSlow bs 0 = .ok n (varintSize n)
  lazy : getVarintLazy bs = .ok (n, rest)
  fast : ∀ len, varintSize n ≤ len → len ≤ bs.length → decodeVarintFast bs len 0 = some (n, varintSize n)
  swar : 8 ≤ bs.length → ∀ v c, decodeVarintSwar (loadWord (bs.take 8)) = some (v, c) →
    UInt64.ofBitVec v = n ∧ c = varintSize n

/-- The branch-free decoder, wherever eight bytes are readable. -/
theorem swar_getVarint {bs : ByteString} {off : Int} (h : Inside bs off) (h8 : off + 8 ≤ bsLen bs) {v : BitVec 64}
    {c : Nat} (hs : decodeVarintSwar (loadWord ((bs.drop off.toNat).take 8)) = some (v, c)) :
    getVarint bs off = .ok (UInt64.ofBitVec v) (off + c) := by
  have hlo := h.lo
  have hrest : ((bs.drop off.toNat).length : Int) = bsLen bs - off := h.drop_length
  have hlen : ((bs.drop off.toNat).take 8).length = 8 := by
    rw [List.length_take]
    omega
  obtain ⟨hlazy, hc⟩ := decodeVarintSwar_eq hlen hs ((bs.drop off.toNat).drop 8)
  rw [List.take_append_drop] at hlazy
  rw [h.getVarint_eq, hlazy, ofLazy, List.length_drop]
  congr 1
  omega

theorem putVarint_reads_back (n : UInt64) (rest : ByteString) (h : (putVarint n ++ rest).length < 2 ^ 63) :
    ReadsBack n (putVarint n ++ rest) rest := by
  have hin : Inside (putVarint n ++ rest) 0 := ⟨le_rfl, Int.natCast_nonneg _, by unfold bsLen; omega⟩
  have hlazy : getVarintLazy (putVarint n ++ rest) = .ok (n, rest) := by rw [putVarint_eq, getVarintLazy_leb128]
  have hsize : (putVarint n).length = varintSize n := by rw [putVarint_eq, varintSize_eq]
  have hindexed : getVarint (putVarint n ++ rest) 0 = .ok n (varintSize n) := by
    rw [hin.getVarint_eq]
    show ofLazy _ (getVarintLazy (putVarint n ++ rest)) = _
    rw [hlazy, ofLazy, bsLen, List.length_append, hsize]
    congr 1
    omega
  constructor
  · exact hindexed
  · rw [← getVarint_eq_slow hin, hindexed]
  · exact hlazy
  · intro len h1 h2
    have htake : (putVarint n ++ rest).take len = putVarint n ++ rest.take (len - varintSize n) := by
      rw [List.take_append, hsize, List.take_of_length_le (by omega)]
    rw [decodeVarintFast_eq h2, List.drop_zero, htake, putVarint_eq, getVarintLazy_leb128, counted,
      List.length_take]
    rw [List.length_append, hsize] at h2
    congr 2
    omega
  · intro h8 v c hs
    have hget := swar_getVarint hin (by unfold bsLen; omega) hs
    rw [hindexed] at hget
    injection hget with hv hc
    exact ⟨hv.symm, by omega⟩

/-- **The encoders write the same bytes, and the decoders read them back**, and every
    signed integer with them; and what the branch-free decoder reads anywhere is
    what `getVarint` reads. -/
theorem varint_codecs_agree :
    (∀ n : UInt64, (putVarint n).length = varintSize n ∧ 1 ≤ varintSize n ∧ varintSize n ≤ 10 ∧
      encodeVarint n = (putVarint n, varintSize n)) ∧
    (∀ (n : UInt64) (rest : ByteString), (putVarint n ++ rest).length < 2 ^ 63 →
      ReadsBack n (putVarint n ++ rest) rest) ∧
    (∀ (bs : ByteString) (off : Int), Inside bs off → off + 8 ≤ bsLen bs → ∀ v c,
      decodeVarintSwar (loadWord ((bs.drop off.toNat).take 8)) = some (v, c) →
      getVarint bs off = .ok (UInt64.ofBitVec v) (off + c)) ∧
    (∀ x : Int64, unZigZag64 (zigZag64 x) = x) ∧ (∀ y : Int32, unZigZag32 (zigZag32 y) = y) ∧
    (∀ (x : Int64) (rest : ByteString), (putSVarint64 x ++ rest).length < 2 ^ 63 →
      getSVarint64 (putSVarint64 x ++ rest) 0 = .ok x (varintSize (zigZag64 x))) ∧
    ∀ (y : Int32) (rest : ByteString), (putSVarint32 y ++ rest).length < 2 ^ 63 →
      getSVarint32 (putSVarint32 y ++ rest) 0 = .ok y (varintSize (zigZag32 y).toUInt64) := by
  refine ⟨fun n => ⟨?_, (varintSize_range n).1, (varintSize_range n).2, ?_⟩, putVarint_reads_back,
    fun bs off h h8 v c hs => swar_getVarint h h8 hs, unZigZag64_zigZag64, unZigZag32_zigZag32, ?_, ?_⟩
  · rw [putVarint_eq, varintSize_eq]
  · rw [encodeVarint_eq, putVarint_eq, varintSize_eq]
  · intro x rest h
    have hget : getVarint (putSVarint64 x ++ rest) 0 = _ := (putVarint_reads_back (zigZag64 x) rest h).indexed
    rw [getSVarint64, hget, Result.bind, unZigZag64_zigZag64]
  · intro y rest h
    have hget : getVarint (putSVarint32 y ++ rest) 0 = _ := (putVarint_reads_back (zigZag32 y).toUInt64 rest h).indexed
    rw [getSVarint32, hget, Result.bind, UInt32.toUInt32_toUInt64, unZigZag32_zigZag32]

theorem varint_codecs_agree_300 :
    putVarint 300 = [0xAC, 0x02] ∧ ReadsBack 300 (putVarint 300 ++ [0x07]) [0x07] :=
  ⟨rfl, varint_codecs_agree.2.1 300 [0x07] (by decide)⟩

end Wireform.Proto

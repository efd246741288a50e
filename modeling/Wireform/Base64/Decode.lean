/-
  The base64 decoder (`hs_base64_decode`, `decodeBase64`).

  The main body is read sixteen characters at a time, after a test for a
  high bit, then four at a time; the last quartet may end in padding.  It
  takes the characters of the alphabet, the padding where it belongs, and
  nothing else, but it does not look at the bits of the last quartet that no
  byte uses: `clearUnused` puts them to zero, and

  * `decodeBase64_iff`: `decodeBase64` gives `bytes` exactly on the strings
    whose `clearUnused` is the encoding of `bytes`.
-/
import Mathlib.Tactic.IntervalCases
import Wireform.Base64.Encode

namespace Wireform.Base64

open Simd

/-! ## The decoder -/

/-- `b64_dec_table`. -/
def b64DecTable : List UInt8 :=
  List.replicate 43 255 ++ [62, 255, 255, 255, 63] ++ [52, 53, 54, 55, 56, 57, 58, 59, 60, 61] ++
    List.replicate 7 255 ++
    [0, 1, 2, 3, 4, 5, 6, 7, 8, 9, 10, 11, 12, 13, 14, 15, 16, 17, 18, 19, 20, 21, 22, 23, 24, 25] ++
    List.replicate 6 255 ++
    [26, 27, 28, 29, 30, 31, 32, 33, 34, 35, 36, 37, 38, 39, 40, 41, 42, 43, 44, 45, 46, 47, 48, 49,
      50, 51] ++ List.replicate 133 255

/-- `b64_dec_table[x]`. -/
def decOf (x : UInt8) : UInt8 := b64DecTable.getD x.toNat 0

/-- Four fields as one number. -/
def joinFields (a b c d : UInt8) : UInt32 :=
  a.toUInt32 <<< 18 ||| b.toUInt32 <<< 12 ||| c.toUInt32 <<< 6 ||| d.toUInt32

/-- A quartet of the main body: three bytes, or `none` for -1. -/
def decodeQuartet (x y z w : UInt8) : Option (List UInt8) :=
  if decOf x ||| decOf y ||| decOf z ||| decOf w ≥ 64 then none
  else
    let v := joinFields (decOf x) (decOf y) (decOf z) (decOf w)
    some [(v >>> 16).toUInt8, (v >>> 8).toUInt8, v.toUInt8]

/-- The quartets of a string that is not the last one. -/
def decodeQuartets : List UInt8 → Option (List UInt8)
  | x :: y :: z :: w :: rest => do
    let bytes ← decodeQuartet x y z w
    return bytes ++ (← decodeQuartets rest)
  | _ => some []

/-- `dec_window_high_bits`. -/
def decWindowHighBits (window : List UInt8) : Nat := movemask window

/-- The loop over windows of sixteen, which leaves the last quartet: the bytes
    written and the characters left. -/
def decodeWindows : Nat → List UInt8 → Option (List UInt8 × List UInt8)
  | 0, chars => some ([], chars)
  | fuel + 1, chars =>
    if chars.length - 4 < 16 then some ([], chars)
    else if decWindowHighBits (chars.take 16) ≠ 0 then none
    else do
      let bytes ← decodeQuartets (chars.take 16)
      let (out, rest) ← decodeWindows fuel (chars.drop 16)
      return (bytes ++ out, rest)

/-- The tail quartet. -/
def decodeTail (x y z w : UInt8) : Option (List UInt8) :=
  if decOf x ≥ 64 ∨ decOf y ≥ 64 then none
  else if z = padChar then
    if w ≠ padChar then none
    else
      let v := (decOf x).toUInt32 <<< 18 ||| (decOf y).toUInt32 <<< 12
      some [(v >>> 16).toUInt8]
  else if w = padChar then
    if decOf z ≥ 64 then none
    else
      let v := (decOf x).toUInt32 <<< 18 ||| (decOf y).toUInt32 <<< 12 ||| (decOf z).toUInt32 <<< 6
      some [(v >>> 16).toUInt8, (v >>> 8).toUInt8]
  else if decOf z ≥ 64 ∨ decOf w ≥ 64 then none
  else
    let v := joinFields (decOf x) (decOf y) (decOf z) (decOf w)
    some [(v >>> 16).toUInt8, (v >>> 8).toUInt8, v.toUInt8]

/-- The scalar middle and the tail. -/
def decodeRest : List UInt8 → Option (List UInt8)
  | [x, y, z, w] => decodeTail x y z w
  | x :: y :: z :: w :: rest => do
    let bytes ← decodeQuartet x y z w
    return bytes ++ (← decodeRest rest)
  | _ => some []

attribute [grind =] decodeQuartets decodeWindows decodeRest

/-- `hs_base64_decode`: the bytes written, or `none` for -1. -/
def hsBase64Decode (chars : List UInt8) : Option (List UInt8) :=
  if chars.length % 4 ≠ 0 then none
  else if chars.length = 0 then some []
  else do
    let (out, rest) ← decodeWindows chars.length chars
    return out ++ (← decodeRest rest)

/-- `decodeBase64`. -/
def decodeBase64 (chars : List UInt8) : Option (List UInt8) :=
  if chars = [] then some []
  else if chars.length % 4 ≠ 0 then none
  else if chars.length > intMax then none
  else hsBase64Decode chars

/-! ## The unused bits -/

/-- A character of the alphabet without the bits outside `mask`. -/
def clearBits (mask : UInt8) (x : UInt8) : UInt8 :=
  if decOf x < 64 then b64Alphabet.getD (decOf x &&& mask).toNat 0 else x

/-- The string with the unused bits of its last quartet put to zero: the low
    four of the second character where two are padding, the low two of the
    third where one is. -/
def clearUnused : List UInt8 → List UInt8
  | [x, y, z, w] =>
    if z = padChar ∧ w = padChar then [x, clearBits 0x30 y, z, w]
    else if w = padChar then [x, y, clearBits 0x3C z, w]
    else [x, y, z, w]
  | x :: y :: z :: w :: rest => x :: y :: z :: w :: clearUnused rest
  | chars => chars

attribute [grind =] clearUnused

/-! ## The table and the alphabet -/

theorem decOf_charAt : ∀ v < 64, decOf (charAt v) = UInt8.ofNat v ∧ charAt v ≠ padChar := by
  intro v hv
  have hpieces : ∀ k < 4, ∀ n < 16, decOf (charAt (16 * k + n)) = UInt8.ofNat (16 * k + n) ∧
      charAt (16 * k + n) ≠ padChar := by
    intro k hk
    interval_cases k <;> decide
  have := hpieces (v / 16) (by omega) (v % 16) (Nat.mod_lt _ (by decide))
  rwa [Nat.div_add_mod] at this

theorem toNat_decOf_charAt {v : Nat} (h : v < 64) : (decOf (charAt v)).toNat = v := by
  rw [(decOf_charAt v h).1, UInt8.toNat_ofNat_of_lt' (Nat.lt_trans h (by decide))]

/-- The table inverts the alphabet, which is ASCII. -/
theorem decOf_inv (x : UInt8) (h : decOf x < 64) : charAt (decOf x).toNat = x ∧ x < 0x80 := by
  have : ∀ x : UInt8, decOf x < 64 → charAt (decOf x).toNat = x ∧ x < 0x80 :=
    forall_byte_by_pieces fun k hk => by interval_cases k <;> decide
  exact this x h

theorem charAt_decOf (x : UInt8) (h : decOf x < 64) : charAt (decOf x).toNat = x := (decOf_inv x h).1

theorem charAt_inj {v w : Nat} (hv : v < 64) (hw : w < 64) (h : charAt v = charAt w) : v = w := by
  rw [← toNat_decOf_charAt hv, ← toNat_decOf_charAt hw, h]

/-- `x` is a character of the alphabet exactly when the table knows it. -/
theorem decOf_lt_iff (x : UInt8) : decOf x < 64 ↔ ∃ v < 64, x = charAt v := by
  constructor
  · exact fun h => ⟨(decOf x).toNat, h, (charAt_decOf x h).symm⟩
  · rintro ⟨v, hv, rfl⟩
    show (decOf (charAt v)).toNat < 64
    rw [toNat_decOf_charAt hv]
    exact hv

theorem or_lt_iff (a b : UInt8) : a ||| b < 64 ↔ a < 64 ∧ b < 64 := by
  rw [UInt8.lt_iff_toNat_lt, UInt8.lt_iff_toNat_lt, UInt8.lt_iff_toNat_lt, UInt8.toNat_or]
  constructor
  · exact fun h => ⟨Nat.lt_of_le_of_lt Nat.left_le_or h, Nat.lt_of_le_of_lt Nat.right_le_or h⟩
  · exact fun h => Nat.or_lt_two_pow (n := 6) h.1 h.2

/-! ## Quartets -/

theorem toNat_joinFields {a b c d : UInt8} (ha : a < 64) (hb : b < 64) (hc : c < 64) (hd : d < 64) :
    (joinFields a b c d).toNat =
      a.toNat * 2 ^ 18 + b.toNat * 2 ^ 12 + c.toNat * 2 ^ 6 + d.toNat := by
  rw [UInt8.lt_iff_toNat_lt] at ha hb hc hd
  have h64 : (64 : UInt8).toNat = 64 := rfl
  have hcd : (c.toUInt32 <<< UInt32.ofNat 6 ||| d.toUInt32).toNat = c.toNat * 2 ^ 6 + d.toNat :=
    or_shift (by decide) (by simp; omega) (by simp; omega)
  have hbd : (b.toUInt32 <<< UInt32.ofNat 12 ||| (c.toUInt32 <<< UInt32.ofNat 6 ||| d.toUInt32)).toNat =
      b.toNat * 2 ^ 12 + (c.toNat * 2 ^ 6 + d.toNat) := by
    rw [or_shift (by decide) (by rw [hcd]; omega) (by simp; omega), hcd, UInt8.toNat_toUInt32]
  have hjoin : joinFields a b c d = a.toUInt32 <<< UInt32.ofNat 18 |||
      (b.toUInt32 <<< UInt32.ofNat 12 ||| (c.toUInt32 <<< UInt32.ofNat 6 ||| d.toUInt32)) := by
    rw [← UInt32.or_assoc, ← UInt32.or_assoc]
    rfl
  rw [hjoin, or_shift (by decide) (by rw [hbd]; omega) (by simp; omega), hbd, UInt8.toNat_toUInt32]
  omega

/-- The three bytes of four fields. -/
def bytesOf (a b c d : Nat) : List UInt8 :=
  [UInt8.ofNat (a * 4 + b / 16), UInt8.ofNat (b % 16 * 16 + c / 4), UInt8.ofNat (c % 4 * 64 + d)]

theorem ofNat_congr {m n : Nat} (h : m % 256 = n % 256) : UInt8.ofNat m = UInt8.ofNat n := by
  rw [← UInt8.toNat_inj, UInt8.toNat_ofNat', UInt8.toNat_ofNat']
  exact h

theorem joinFields_bytes {a b c d : UInt8} (ha : a < 64) (hb : b < 64) (hc : c < 64) (hd : d < 64) :
    [(joinFields a b c d >>> 16).toUInt8, (joinFields a b c d >>> 8).toUInt8,
      (joinFields a b c d).toUInt8] = bytesOf a.toNat b.toNat c.toNat d.toNat := by
  have hjoin := toNat_joinFields ha hb hc hd
  rw [UInt8.lt_iff_toNat_lt] at ha hb hc hd
  have h64 : (64 : UInt8).toNat = 64 := rfl
  have hbyte : ∀ v : UInt32, v.toUInt8 = UInt8.ofNat v.toNat := fun v => rfl
  have h16 : (16 : UInt32).toNat % 32 = 16 := rfl
  have h8 : (8 : UInt32).toNat % 32 = 8 := rfl
  simp only [hbyte, UInt32.toNat_shiftRight, h16, h8, Nat.shiftRight_eq_div_pow, hjoin, bytesOf,
    List.cons.injEq, and_true]
  exact ⟨ofNat_congr (by omega), ofNat_congr (by omega), ofNat_congr (by omega)⟩

theorem bytesOf_fields (a b c : UInt8) :
    bytesOf (a.toNat / 4) (a.toNat % 4 * 16 + b.toNat / 16) (b.toNat % 16 * 4 + c.toNat / 64)
      (c.toNat % 64) = [a, b, c] := by
  have ha := a.toNat_lt
  have hb := b.toNat_lt
  have hc := c.toNat_lt
  have hbyte : ∀ {n : Nat} {x : UInt8}, n = x.toNat → UInt8.ofNat n = x := by
    rintro n x rfl
    exact UInt8.ofNat_toNat
  simp only [bytesOf, List.cons.injEq, and_true]
  exact ⟨hbyte (by omega), hbyte (by omega), hbyte (by omega)⟩

variable {bytes : List UInt8} {x y z w : UInt8}

/-- **A full quartet** is read exactly when it is the encoding of three
    bytes. -/
theorem quartet_iff :
    (decOf x < 64 ∧ decOf y < 64 ∧ decOf z < 64 ∧ decOf w < 64 ∧
      bytes = bytesOf (decOf x).toNat (decOf y).toNat (decOf z).toNat (decOf w).toNat) ↔
    ∃ a b c, bytes = [a, b, c] ∧ [x, y, z, w] = (fields a b c).map charAt := by
  constructor
  · rintro ⟨hx, hy, hz, hw, rfl⟩
    refine ⟨_, _, _, rfl, ?_⟩
    have hx' := charAt_decOf x hx
    have hy' := charAt_decOf y hy
    have hz' := charAt_decOf z hz
    have hw' := charAt_decOf w hw
    rw [UInt8.lt_iff_toNat_lt] at hx hy hz hw
    have h64 : (64 : UInt8).toNat = 64 := rfl
    have hfields : fields (UInt8.ofNat ((decOf x).toNat * 4 + (decOf y).toNat / 16))
        (UInt8.ofNat ((decOf y).toNat % 16 * 16 + (decOf z).toNat / 4))
        (UInt8.ofNat ((decOf z).toNat % 4 * 64 + (decOf w).toNat)) =
        [(decOf x).toNat, (decOf y).toNat, (decOf z).toNat, (decOf w).toNat] := by
      simp only [fields, UInt8.toNat_ofNat', List.cons.injEq, and_true]
      omega
    rw [hfields, List.map_cons, List.map_cons, List.map_cons, List.map_cons, hx', hy', hz', hw']
    rfl
  · rintro ⟨a, b, c, rfl, h⟩
    have hlt := @fields_lt a b c
    simp only [fields, List.map_cons, List.map_nil, List.cons.injEq, and_true] at h
    obtain ⟨rfl, rfl, rfl, rfl⟩ := h
    have h1 := hlt (a.toNat / 4) (by simp [fields])
    have h2 := hlt (a.toNat % 4 * 16 + b.toNat / 16) (by simp [fields])
    have h3 := hlt (b.toNat % 16 * 4 + c.toNat / 64) (by simp [fields])
    have h4 := hlt (c.toNat % 64) (by simp [fields])
    refine ⟨(decOf_lt_iff _).2 ⟨_, h1, rfl⟩, (decOf_lt_iff _).2 ⟨_, h2, rfl⟩,
      (decOf_lt_iff _).2 ⟨_, h3, rfl⟩, (decOf_lt_iff _).2 ⟨_, h4, rfl⟩, ?_⟩
    rw [toNat_decOf_charAt h1, toNat_decOf_charAt h2, toNat_decOf_charAt h3, toNat_decOf_charAt h4,
      bytesOf_fields]

theorem decodeQuartet_iff :
    decodeQuartet x y z w = some bytes ↔
      ∃ a b c, bytes = [a, b, c] ∧ [x, y, z, w] = (fields a b c).map charAt := by
  rw [← quartet_iff, decodeQuartet]
  by_cases h : decOf x ||| decOf y ||| decOf z ||| decOf w < 64
  · have hall := h
    rw [or_lt_iff, or_lt_iff, or_lt_iff] at hall
    obtain ⟨⟨⟨hx, hy⟩, hz⟩, hw⟩ := hall
    rw [if_neg (UInt8.not_le.2 h)]
    simp only [joinFields_bytes hx hy hz hw, hx, hy, hz, hw, true_and, Option.some.injEq]
    exact eq_comm
  · rw [if_pos (UInt8.not_lt.1 h)]
    constructor
    · intro hnone
      cases hnone
    · rintro ⟨hx, hy, hz, hw, -⟩
      exact absurd ((or_lt_iff _ _).2 ⟨(or_lt_iff _ _).2 ⟨(or_lt_iff _ _).2 ⟨hx, hy⟩, hz⟩, hw⟩) h

/-! ## The last quartet -/

theorem mask_field : ∀ v < 64, (UInt8.ofNat v &&& 0x30).toNat = v / 16 * 16 ∧
    (UInt8.ofNat v &&& 0x3C).toNat = v / 4 * 4 := by
  intro v hv
  rw [UInt8.toNat_and, UInt8.toNat_and, UInt8.toNat_ofNat_of_lt' (Nat.lt_trans hv (by decide))]
  exact ⟨(and_field v 4 2).trans (by omega), (and_field v 2 4).trans (by omega)⟩

theorem clearBits_of_lt (y : UInt8) (h : decOf y < 64) :
    clearBits 0x30 y = charAt ((decOf y).toNat / 16 * 16) ∧
      clearBits 0x3C y = charAt ((decOf y).toNat / 4 * 4) := by
  have hmask := mask_field (decOf y).toNat h
  rw [UInt8.ofNat_toNat] at hmask
  rw [clearBits, clearBits, if_pos h, if_pos h, hmask.1, hmask.2]
  exact ⟨rfl, rfl⟩

theorem decOf_lt_of_clearBits {mask y : UInt8} {v : Nat} (hv : v < 64) (h : clearBits mask y = charAt v) :
    decOf y < 64 := by
  by_contra hy
  rw [clearBits, if_neg hy] at h
  exact hy ((decOf_lt_iff y).2 ⟨v, hv, h⟩)

/-- The encodings of one quartet. -/
theorem encodeScalar_quartet {p q r s : UInt8} :
    encodeScalar bytes = [p, q, r, s] ↔
      (∃ a, bytes = [a] ∧ [p, q] = ((fields a 0 0).take 2).map charAt ∧ r = padChar ∧ s = padChar) ∨
      (∃ a b, bytes = [a, b] ∧ [p, q, r] = ((fields a b 0).take 3).map charAt ∧ s = padChar) ∨
      ∃ a b c, bytes = [a, b, c] ∧ [p, q, r, s] = (fields a b c).map charAt := by
  constructor
  · intro h
    match bytes with
    | [] => cases h
    | [a] =>
      rw [encodeScalar_one] at h
      obtain ⟨rfl, rfl, rfl, rfl⟩ : charAt _ = p ∧ charAt _ = q ∧ padChar = r ∧ padChar = s := by
        simpa [fields] using h
      exact .inl ⟨a, rfl, rfl, rfl, rfl⟩
    | [a, b] =>
      rw [encodeScalar_two] at h
      obtain ⟨rfl, rfl, rfl, rfl⟩ : charAt _ = p ∧ charAt _ = q ∧ charAt _ = r ∧ padChar = s := by
        simpa [fields] using h
      exact .inr (.inl ⟨a, b, rfl, rfl, rfl⟩)
    | [a, b, c] =>
      rw [encodeScalar_three, encodeScalar, List.append_nil] at h
      exact .inr (.inr ⟨a, b, c, rfl, h.symm⟩)
    | a :: b :: c :: d :: rest =>
      have hlen := length_encodeScalar (a :: b :: c :: d :: rest)
      rw [h] at hlen
      simp only [List.length_cons, List.length_nil] at hlen
      omega
  · rintro (⟨a, rfl, h, rfl, rfl⟩ | ⟨a, b, rfl, h, rfl⟩ | ⟨a, b, c, rfl, h⟩)
    · rw [encodeScalar_one, ← h]
      rfl
    · rw [encodeScalar_two, ← h]
      rfl
    · rw [encodeScalar_three, ← h]
      rfl

theorem guard_iff {c : Prop} [Decidable c] {r : Option (List UInt8)} :
    (if c then none else r) = some bytes ↔ ¬ c ∧ r = some bytes := by
  by_cases h : c
  · simp [h]
  · simp [h]

/-- The three exits of the tail that write bytes, each with the places it
    uses. -/
theorem decodeTail_one {x y : UInt8} :
    decodeTail x y padChar padChar = some bytes ↔ decOf x < 64 ∧ decOf y < 64 ∧
      bytes = [UInt8.ofNat ((decOf x).toNat * 4 + (decOf y).toNat / 16)] := by
  have hzero : (0 : UInt8) < 64 := by decide
  have hv : joinFields (decOf x) (decOf y) 0 0 =
      (decOf x).toUInt32 <<< 18 ||| (decOf y).toUInt32 <<< 12 := by simp [joinFields]
  rw [decodeTail, guard_iff, if_pos rfl, guard_iff, not_or, UInt8.not_le, UInt8.not_le, and_assoc]
  refine and_congr_right fun hx => and_congr_right fun hy => ?_
  have hbytes := joinFields_bytes hx hy hzero hzero
  rw [hv, bytesOf, List.cons.injEq] at hbytes
  dsimp only
  rw [hbytes.1]
  exact ⟨fun h => (Option.some.inj h.2).symm, fun h => ⟨fun hne => hne rfl, congrArg some h.symm⟩⟩

theorem decodeTail_two {x y z : UInt8} (hz : z ≠ padChar) :
    decodeTail x y z padChar = some bytes ↔ decOf x < 64 ∧ decOf y < 64 ∧ decOf z < 64 ∧
      bytes = [UInt8.ofNat ((decOf x).toNat * 4 + (decOf y).toNat / 16),
        UInt8.ofNat ((decOf y).toNat % 16 * 16 + (decOf z).toNat / 4)] := by
  have hzero : (0 : UInt8) < 64 := by decide
  have hv : joinFields (decOf x) (decOf y) (decOf z) 0 = (decOf x).toUInt32 <<< 18 |||
      (decOf y).toUInt32 <<< 12 ||| (decOf z).toUInt32 <<< 6 := by simp [joinFields]
  rw [decodeTail, guard_iff, if_neg hz, if_pos rfl, guard_iff, not_or, UInt8.not_le, UInt8.not_le,
    UInt8.not_le, and_assoc]
  refine and_congr_right fun hx => and_congr_right fun hy => and_congr_right fun hzz => ?_
  have hbytes := joinFields_bytes hx hy hzz hzero
  rw [hv, bytesOf, List.cons.injEq, List.cons.injEq] at hbytes
  dsimp only
  rw [hbytes.1, hbytes.2.1, Option.some.injEq]
  exact eq_comm

theorem decodeTail_three (hz : z ≠ padChar) (hw : w ≠ padChar) :
    decodeTail x y z w = some bytes ↔
      ∃ a b c, bytes = [a, b, c] ∧ [x, y, z, w] = (fields a b c).map charAt := by
  rw [← quartet_iff, decodeTail, guard_iff, if_neg hz, if_neg hw, guard_iff, not_or, not_or,
    UInt8.not_le, UInt8.not_le, UInt8.not_le, UInt8.not_le, and_assoc, and_assoc]
  refine and_congr_right fun hx => and_congr_right fun hy => and_congr_right fun hzz =>
    and_congr_right fun hww => ?_
  dsimp only
  rw [joinFields_bytes hx hy hzz hww, Option.some.injEq]
  exact eq_comm

/-- A character without unused bits, as a field. -/
theorem eq_ofNat {a : UInt8} {n : Nat} (h : n = a.toNat) : a = UInt8.ofNat n := by
  rw [h, UInt8.ofNat_toNat]

theorem one_iff {x y : UInt8} : decodeTail x y padChar padChar = some bytes ↔
    ∃ a, bytes = [a] ∧ [x, clearBits 0x30 y] = ((fields a 0 0).take 2).map charAt := by
  have h64 : (64 : UInt8).toNat = 64 := rfl
  have htake : ∀ a, ((fields a 0 0).take 2).map charAt =
      [charAt (a.toNat / 4), charAt (a.toNat % 4 * 16)] := fun a => rfl
  rw [decodeTail_one]
  constructor
  · rintro ⟨hx, hy, rfl⟩
    refine ⟨_, rfl, ?_⟩
    rw [htake, (clearBits_of_lt y hy).1]
    have hx' := charAt_decOf x hx
    rw [UInt8.lt_iff_toNat_lt, h64] at hx hy
    rw [UInt8.toNat_ofNat', Nat.mod_eq_of_lt (by omega),
      show ((decOf x).toNat * 4 + (decOf y).toNat / 16) / 4 = (decOf x).toNat by omega,
      show ((decOf x).toNat * 4 + (decOf y).toNat / 16) % 4 * 16 = (decOf y).toNat / 16 * 16 by omega,
      hx']
  · rintro ⟨a, rfl, h⟩
    have ha := a.toNat_lt
    rw [htake, List.cons.injEq, List.cons.injEq] at h
    obtain ⟨rfl, hclear, -⟩ := h
    have hy := decOf_lt_of_clearBits (by omega) hclear
    have hy' := hy
    rw [UInt8.lt_iff_toNat_lt, h64] at hy'
    rw [(clearBits_of_lt y hy).1] at hclear
    have hbits := charAt_inj (by omega) (by omega) hclear
    have hlt : a.toNat / 4 < 64 := by omega
    refine ⟨(decOf_lt_iff _).2 ⟨_, hlt, rfl⟩, hy, ?_⟩
    rw [toNat_decOf_charAt hlt, ← eq_ofNat (a := a) (by omega)]

theorem two_iff {x y z : UInt8} (hz : z ≠ padChar) :
    decodeTail x y z padChar = some bytes ↔
      ∃ a b, bytes = [a, b] ∧ [x, y, clearBits 0x3C z] = ((fields a b 0).take 3).map charAt := by
  have h64 : (64 : UInt8).toNat = 64 := rfl
  have htake : ∀ a b, ((fields a b 0).take 3).map charAt = [charAt (a.toNat / 4),
      charAt (a.toNat % 4 * 16 + b.toNat / 16), charAt (b.toNat % 16 * 4)] := fun a b => rfl
  rw [decodeTail_two hz]
  constructor
  · rintro ⟨hx, hy, hzz, rfl⟩
    refine ⟨_, _, rfl, ?_⟩
    rw [htake, (clearBits_of_lt z hzz).2]
    have hx' := charAt_decOf x hx
    have hy' := charAt_decOf y hy
    rw [UInt8.lt_iff_toNat_lt, h64] at hx hy hzz
    generalize (decOf x).toNat = f at *
    generalize (decOf y).toNat = g at *
    generalize (decOf z).toNat = k at *
    rw [UInt8.toNat_ofNat', UInt8.toNat_ofNat', Nat.mod_eq_of_lt (by omega : f * 4 + g / 16 < 256),
      Nat.mod_eq_of_lt (by omega : g % 16 * 16 + k / 4 < 256),
      show (f * 4 + g / 16) / 4 = f by omega,
      show (f * 4 + g / 16) % 4 * 16 + (g % 16 * 16 + k / 4) / 16 = g by omega,
      show (g % 16 * 16 + k / 4) % 16 * 4 = k / 4 * 4 by omega, hx', hy']
  · rintro ⟨a, b, rfl, h⟩
    have ha := a.toNat_lt
    have hb := b.toNat_lt
    rw [htake, List.cons.injEq, List.cons.injEq, List.cons.injEq] at h
    obtain ⟨rfl, rfl, hclear, -⟩ := h
    have hzz := decOf_lt_of_clearBits (by omega) hclear
    have hz' := hzz
    rw [UInt8.lt_iff_toNat_lt, h64] at hz'
    rw [(clearBits_of_lt z hzz).2] at hclear
    have hbits := charAt_inj (by omega) (by omega) hclear
    have hlt : a.toNat / 4 < 64 := by omega
    have hlt' : a.toNat % 4 * 16 + b.toNat / 16 < 64 := by omega
    refine ⟨(decOf_lt_iff _).2 ⟨_, hlt, rfl⟩, (decOf_lt_iff _).2 ⟨_, hlt', rfl⟩, hzz, ?_⟩
    rw [toNat_decOf_charAt hlt, toNat_decOf_charAt hlt', ← eq_ofNat (a := a) (by omega),
      ← eq_ofNat (a := b) (by omega)]

theorem clearBits_ne_pad {z : UInt8} (hz : z ≠ padChar) : clearBits 0x3C z ≠ padChar := by
  by_cases h : decOf z < 64
  · rw [(clearBits_of_lt z h).2]
    rw [UInt8.lt_iff_toNat_lt, show (64 : UInt8).toNat = 64 from rfl] at h
    exact (decOf_charAt _ (by omega)).2
  · rw [clearBits, if_neg h]
    exact hz

/-- **The last quartet** is read exactly when its `clearUnused` is an
    encoding. -/
theorem decodeTail_iff :
    decodeTail x y z w = some bytes ↔ encodeScalar bytes = clearUnused [x, y, z, w] := by
  have hchar : ∀ {a b c v}, v ∈ fields a b c → charAt v ≠ padChar :=
    fun hv => (decOf_charAt _ (fields_lt _ hv)).2
  by_cases hw : w = padChar
  · subst hw
    by_cases hz : z = padChar
    · subst hz
      have h1 : clearUnused [x, y, padChar, padChar] =
          [x, clearBits 0x30 y, padChar, padChar] := by simp [clearUnused]
      rw [h1, one_iff, encodeScalar_quartet]
      constructor
      · rintro ⟨a, rfl, h⟩
        exact .inl ⟨a, rfl, h, rfl, rfl⟩
      · rintro (⟨a, rfl, h, -, -⟩ | ⟨a, b, rfl, h, -⟩ | ⟨a, b, c, rfl, h⟩)
        · exact ⟨a, rfl, h⟩
        · simp only [fields, List.take, List.map_cons, List.map_nil, List.cons.injEq] at h
          exact absurd h.2.2.1.symm (hchar (a := a) (b := b) (c := 0) (by simp [fields]))
        · simp only [fields, List.map_cons, List.map_nil, List.cons.injEq] at h
          exact absurd h.2.2.1.symm (hchar (a := a) (b := b) (c := c) (by simp [fields]))
    · have h2 : clearUnused [x, y, z, padChar] = [x, y, clearBits 0x3C z, padChar] := by
        simp [clearUnused, hz]
      rw [h2, two_iff hz, encodeScalar_quartet]
      constructor
      · rintro ⟨a, b, rfl, h⟩
        exact .inr (.inl ⟨a, b, rfl, h, rfl⟩)
      · rintro (⟨a, rfl, h, hp, -⟩ | ⟨a, b, rfl, h, -⟩ | ⟨a, b, c, rfl, h⟩)
        · exact absurd hp (clearBits_ne_pad hz)
        · exact ⟨a, b, rfl, h⟩
        · simp only [fields, List.map_cons, List.map_nil, List.cons.injEq] at h
          exact absurd h.2.2.2.1.symm (hchar (a := a) (b := b) (c := c) (by simp [fields]))
  · have hclear : clearUnused [x, y, z, w] = [x, y, z, w] := by simp [clearUnused, hw]
    rw [hclear, encodeScalar_quartet]
    by_cases hz : z = padChar
    · subst hz
      have hnone : decodeTail x y padChar w = none := by
        rw [decodeTail, if_pos rfl, if_pos hw]
        exact ite_self none
      rw [hnone]
      constructor
      · intro h
        cases h
      · rintro (⟨a, -, -, -, h⟩ | ⟨a, b, -, -, h⟩ | ⟨a, b, c, -, h⟩)
        · exact absurd h hw
        · exact absurd h hw
        · simp only [fields, List.map_cons, List.map_nil, List.cons.injEq] at h
          exact absurd h.2.2.1.symm (hchar (a := a) (b := b) (c := c) (by simp [fields]))
    · rw [decodeTail_three hz hw]
      constructor
      · exact fun h => .inr (.inr h)
      · rintro (⟨a, -, -, -, h⟩ | ⟨a, b, -, -, h⟩ | h)
        · exact absurd h hw
        · exact absurd h hw
        · exact h

/-! ## The whole string -/

theorem length_clearUnused : ∀ chars : List UInt8, (clearUnused chars).length = chars.length
  | [] | [_] | [_, _] | [_, _, _] => rfl
  | [x, y, z, w] => by
    rw [clearUnused]
    split
    · rfl
    split <;> rfl
  | x :: y :: z :: w :: e :: rest => by
    rw [clearUnused]
    · simp [length_clearUnused (e :: rest)]
    · simp

/-- **The scalar loops** read a string exactly when its `clearUnused` is an
    encoding. -/
theorem decodeRest_iff : ∀ (chars : List UInt8) (bytes : List UInt8),
    chars ≠ [] → chars.length % 4 = 0 →
      (decodeRest chars = some bytes ↔ encodeScalar bytes = clearUnused chars)
  | [], _, h, _ => absurd rfl h
  | [_], _, _, h | [_, _], _, _, h | [_, _, _], _, _, h => by simp at h
  | [x, y, z, w], bytes, _, _ => decodeTail_iff
  | x :: y :: z :: w :: e :: rest, bytes, _, hlen => by
    have hrest : (e :: rest).length % 4 = 0 := by
      simp only [List.length_cons] at hlen ⊢
      omega
    have ih := fun b => decodeRest_iff (e :: rest) b (List.cons_ne_nil _ _) hrest
    rw [decodeRest, clearUnused]
    · simp only [Option.bind_eq_bind, Option.bind_eq_some_iff, Option.pure_def, Option.some.injEq]
      constructor
      · rintro ⟨front, hfront, back, hback, rfl⟩
        obtain ⟨a, b, c, rfl, hchars⟩ := decodeQuartet_iff.1 hfront
        have hsplit : encodeScalar ([a, b, c] ++ back) = [x, y, z, w] ++ encodeScalar back := by
          rw [hchars]
          exact encodeScalar_three a b c back
        rw [hsplit, (ih back).1 hback]
        rfl
      · intro h
        have hlens := congrArg List.length h
        rw [length_encodeScalar] at hlens
        simp only [List.length_cons, length_clearUnused] at hlens hrest
        match bytes with
        | [] | [_] | [_, _] | [_, _, _] =>
          simp only [List.length_cons, List.length_nil] at hlens
          omega
        | a :: b :: c :: d :: back =>
          rw [encodeScalar_three] at h
          have hchars : (fields a b c).map charAt = [x, y, z, w] ∧
              encodeScalar (d :: back) = clearUnused (e :: rest) :=
            List.append_inj h rfl
          exact ⟨[a, b, c], decodeQuartet_iff.2 ⟨a, b, c, rfl, hchars.1.symm⟩, d :: back,
            (ih _).2 hchars.2, rfl⟩
    · simp
    · simp

/-! ## The windows -/

theorem decodeQuartets_ascii : ∀ (n : Nat) (chars : List UInt8) {bytes : List UInt8},
    chars.length = 4 * n → decodeQuartets chars = some bytes → ∀ b ∈ chars, b < 0x80
  | 0, chars, _, hlen, _ => by
    obtain rfl : chars = [] := List.length_eq_zero_iff.1 hlen
    simp
  | n + 1, chars, _, hlen, h => by
    match chars, hlen with
    | x :: y :: z :: w :: rest, hlen =>
      rw [decodeQuartets] at h
      simp only [Option.bind_eq_bind, Option.bind_eq_some_iff] at h
      obtain ⟨front, hfront, back, hback, -⟩ := h
      have hin : ∀ b, decOf b < 64 → b < 0x80 := fun b hb => (decOf_inv b hb).2
      obtain ⟨hx, hy, hz, hw, -⟩ := quartet_iff.2 (decodeQuartet_iff.1 hfront)
      have ih := decodeQuartets_ascii n rest (by simp at hlen; omega) hback
      intro b hb
      simp only [List.mem_cons] at hb
      rcases hb with rfl | rfl | rfl | rfl | hb
      · exact hin _ hx
      · exact hin _ hy
      · exact hin _ hz
      · exact hin _ hw
      · exact ih b hb

theorem decodeRest_append : ∀ (n : Nat) (pre rest : List UInt8), pre.length = 4 * n → rest ≠ [] →
    decodeRest (pre ++ rest) =
      (decodeQuartets pre).bind fun out => (decodeRest rest).map (out ++ ·)
  | 0, pre, rest, hlen, _ => by
    obtain rfl : pre = [] := List.length_eq_zero_iff.1 hlen
    simp [decodeQuartets]
  | n + 1, pre, rest, hlen, hne => by
    match pre, hlen with
    | x :: y :: z :: w :: pre, hlen =>
      have ih := decodeRest_append n pre rest (by simp at hlen; omega) hne
      simp only [List.cons_append]
      rw [decodeRest, ih, decodeQuartets]
      · simp [Option.bind_assoc, Option.map_eq_bind]
      · simp [hne]

/-- The windows decode what the scalar loop decodes. -/
theorem decodeWindows_eq : ∀ (fuel : Nat) (chars : List UInt8), chars ≠ [] → chars.length % 4 = 0 →
    ((decodeWindows fuel chars).bind fun r => (decodeRest r.2).map (r.1 ++ ·)) = decodeRest chars
  | 0, chars, _, _ => by simp [decodeWindows]
  | fuel + 1, chars, hne, hlen => by
    rw [decodeWindows]
    split
    · simp
    · rename_i hlong
      have htake : (chars.take 16).length = 4 * 4 := List.length_take_of_le (by omega)
      have hdrop : (chars.drop 16).length = chars.length - 16 := List.length_drop
      have hsplit := decodeRest_append 4 (chars.take 16) (chars.drop 16) htake
        (List.length_pos_iff.1 (by omega))
      rw [List.take_append_drop] at hsplit
      have ih := decodeWindows_eq fuel (chars.drop 16) (List.length_pos_iff.1 (by omega)) (by omega)
      rw [hsplit]
      cases hq : decodeQuartets (chars.take 16) with
      | none => split <;> simp
      | some out =>
        have hmask : decWindowHighBits (chars.take 16) = 0 :=
          movemask_of_ascii (decodeQuartets_ascii 4 _ htake hq)
        rw [if_neg (not_not.2 hmask), ← ih]
        simp [Option.bind_assoc, Option.map_eq_bind]

theorem hsBase64Decode_iff {chars bytes : List UInt8} (hne : chars ≠ []) :
    hsBase64Decode chars = some bytes ↔
      chars.length % 4 = 0 ∧ encodeScalar bytes = clearUnused chars := by
  rw [hsBase64Decode]
  by_cases hlen : chars.length % 4 = 0
  · have hwin : (do
        let (out, rest) ← decodeWindows chars.length chars
        return out ++ (← decodeRest rest)) = decodeRest chars := by
      rw [← decodeWindows_eq chars.length chars hne hlen]
      simp [Option.map_eq_bind]
    rw [if_neg (by simpa using hlen), if_neg (by simpa using hne), hwin, decodeRest_iff _ _ hne hlen]
    exact (and_iff_right hlen).symm
  · rw [if_pos hlen]
    constructor
    · intro h
      cases h
    · exact fun h => absurd h.1 hlen

/-- The two limits agree. -/
theorem limits {bytes chars : List UInt8} (h : encodeScalar bytes = clearUnused chars) :
    chars.length % 4 = 0 ∧ (chars.length ≤ intMax ↔ bytes.length ≤ maxEncodeInput) := by
  have hlen := congrArg List.length h
  rw [length_encodeScalar, length_clearUnused] at hlen
  rw [maxEncodeInput, intMax]
  omega

/-- **What `decodeBase64` accepts**: the strings that are an encoding once the
    unused bits of the last quartet are put to zero. -/
theorem decodeBase64_iff (chars bytes : List UInt8) :
    decodeBase64 chars = some bytes ↔ encodeBase64 bytes = some (clearUnused chars) := by
  rw [decodeBase64, encodeBase64_eq]
  by_cases hne : chars = []
  · subst hne
    match bytes with
    | [] => simp [encodeScalar, clearUnused]
    | b :: bytes =>
      have hlen := length_encodeScalar (b :: bytes)
      rw [List.length_cons] at hlen
      simp [clearUnused]
      intro _ h
      rw [h, List.length_nil] at hlen
      omega
  · rw [if_neg hne]
    have hrhs : (if bytes.length > maxEncodeInput then none else some (encodeScalar bytes)) =
        some (clearUnused chars) ↔
          bytes.length ≤ maxEncodeInput ∧ encodeScalar bytes = clearUnused chars := by
      by_cases h : bytes.length > maxEncodeInput
      · simp [h, Nat.not_le.2 h]
      · simp [h, Nat.not_lt.1 h]
    rw [hrhs, guard_iff, guard_iff, hsBase64Decode_iff hne, not_not, Nat.not_lt]
    constructor
    · rintro ⟨-, hmax, -, h⟩
      exact ⟨(limits h).2.1 hmax, h⟩
    · rintro ⟨hmax, h⟩
      exact ⟨(limits h).1, (limits h).2.2 hmax, (limits h).1, h⟩

/-- An encoding has no unused bit set. -/
theorem clearUnused_encodeScalar : ∀ bytes : List UInt8,
    clearUnused (encodeScalar bytes) = encodeScalar bytes
  | [] => rfl
  | [a] => by
    have ha := a.toNat_lt
    have hv : a.toNat % 4 * 16 < 64 := by omega
    have hclear := (clearBits_of_lt (charAt (a.toNat % 4 * 16)) ((decOf_lt_iff _).2 ⟨_, hv, rfl⟩)).1
    rw [toNat_decOf_charAt hv, Nat.mul_div_cancel _ (by decide)] at hclear
    rw [encodeScalar_one]
    simp [fields, clearUnused, hclear]
  | [a, b] => by
    have hb := b.toNat_lt
    have hv : b.toNat % 16 * 4 < 64 := by omega
    have hclear := (clearBits_of_lt (charAt (b.toNat % 16 * 4)) ((decOf_lt_iff _).2 ⟨_, hv, rfl⟩)).2
    rw [toNat_decOf_charAt hv, Nat.mul_div_cancel _ (by decide)] at hclear
    rw [encodeScalar_two]
    simp [fields, clearUnused, hclear, (decOf_charAt _ hv).2]
  | a :: b :: c :: rest => by
    have hd : charAt (c.toNat % 64) ≠ padChar := (decOf_charAt _ (Nat.mod_lt _ (by decide))).2
    have ih := clearUnused_encodeScalar rest
    rw [encodeScalar_three]
    simp only [fields, List.map_cons, List.map_nil, List.cons_append, List.nil_append]
    cases h : encodeScalar rest with
    | nil => simp [clearUnused, hd]
    | cons e back =>
      rw [h] at ih
      rw [clearUnused, ih]
      simp

/-- **Base64**: an input within the limit is encoded and read back; a vector
    block writes the characters of the scalar loop; and the decoder accepts
    the encodings, up to the bits of the last quartet that no byte uses. -/
theorem base64_roundtrip :
    (∀ bytes : List UInt8, bytes.length ≤ maxEncodeInput →
      ∃ chars, encodeBase64 bytes = some chars ∧ decodeBase64 chars = some bytes) ∧
    (∀ chunk : List UInt8, chunk.length = 16 →
      encTranslate (encReshuffle chunk) = encodeScalar (chunk.take 12)) ∧
    ∀ chars bytes : List UInt8,
      decodeBase64 chars = some bytes ↔ encodeBase64 bytes = some (clearUnused chars) := by
  refine ⟨fun bytes h => ⟨encodeScalar bytes, ?_, ?_⟩, fun chunk h => encBlock_eq h,
    decodeBase64_iff⟩
  · rw [encodeBase64_eq, if_neg (Nat.not_lt.2 h)]
  · rw [decodeBase64_iff, clearUnused_encodeScalar, encodeBase64_eq, if_neg (Nat.not_lt.2 h)]

theorem base64_roundtrip_foob : (∃ chars, encodeBase64 [0x66, 0x6F, 0x6F, 0x62] = some chars ∧
      decodeBase64 chars = some [0x66, 0x6F, 0x6F, 0x62]) ∧
    encTranslate (encReshuffle (List.replicate 16 0xA5)) =
      encodeScalar ((List.replicate 16 0xA5).take 12) :=
  ⟨base64_roundtrip.1 [0x66, 0x6F, 0x6F, 0x62] (by decide),
    base64_roundtrip.2.1 (List.replicate 16 0xA5) (by decide)⟩

/-- A string that is accepted and is not an encoding: "QR==" is read as "A",
    which is written "QQ==". -/
theorem decode_not_canonical : ¬ ∀ chars bytes : List UInt8, decodeBase64 chars = some bytes →
    encodeBase64 bytes = some chars := fun h =>
  absurd (h [0x51, 0x52, 0x3D, 0x3D] [0x41] (by decide)) (by decide)

end Wireform.Base64

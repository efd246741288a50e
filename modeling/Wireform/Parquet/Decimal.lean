/-
  Decimals as signed big-endian bytes (`Parquet.Decimal`).

  * `compareDecimalBytes`: by sign, significant width and significant bytes;
  * `encodeDecimalInteger`: the bytes of an integer, the inverse of `decodeDecimalInteger`;
  * `decimalPrecisionFits_iff`: the capacity of a width, from the neighbours of the logarithm;
  * `decimal_exact`: all of it is exact.
-/
import Wireform.Parquet.Predicate.Model
import Wireform.Powers
import Wireform.TwosComplement

namespace Wireform.Parquet

/-! ## The code -/

/-- `BSU.unsafeIndex`. -/
def unsafeIndex (bytes : List UInt8) (i : Nat) : UInt8 := bytes.getD i 0

/-- The first byte that is not a repeated sign, from `i` on. -/
def significantFrom (bytes : List UInt8) (i : Nat) : Nat :=
  if bytes.length ≤ i + 1 then i
  else
    let byte := unsafeIndex bytes i
    let nextNegative := highBit (unsafeIndex bytes (i + 1))
    if byte = 0 ∧ nextNegative = false ∨ byte = 255 ∧ nextNegative = true then significantFrom bytes (i + 1) else i
termination_by bytes.length - i

def significantStart (bytes : List UInt8) : Nat := significantFrom bytes 0

/-- The loop over the significant bytes, with the number of those left. -/
def compareBytes (a b : List UInt8) (startA startB : Nat) : Nat → Nat → Ordering
  | 0, _ => .eq
  | left + 1, i =>
    match compare (unsafeIndex a (startA + i)) (unsafeIndex b (startB + i)) with
    | .eq => compareBytes a b startA startB left (i + 1)
    | result => result

def compareDecimalBytes (a b : List UInt8) : Ordering :=
  let negativeA := highBit (unsafeIndex a 0)
  let negativeB := highBit (unsafeIndex b 0)
  let startA := significantStart a
  let startB := significantStart b
  let widthA := a.length - startA
  let widthB := b.length - startB
  if a.isEmpty || b.isEmpty then compare a.length b.length
  else if negativeA ≠ negativeB then if negativeA then .lt else .gt
  else if widthA ≠ widthB then if negativeA then compare widthB widthA else compare widthA widthB
  else compareBytes a b startA startB widthA 0

/-- What is left is the sign of the low byte. -/
theorem done_iff (n : Int) :
    (n >>> (8 : Nat) = 0 ∧ highBit (lowByte n) = false ∨ n >>> (8 : Nat) = -1 ∧ highBit (lowByte n) = true) ↔
      -128 ≤ n ∧ n < 128 := by
  have hrest : n >>> (8 : Nat) = n / 256 := Int.shiftRight_eq_div_pow n 8
  have hhigh := highBit_lowByte n
  rw [hrest]
  cases hb : highBit (lowByte n) with
  | true =>
    have h128 := hhigh.1 hb
    simp only [Bool.true_eq_false, and_false, and_true, false_or]
    omega
  | false =>
    have h128 : ¬128 ≤ n % 256 := fun h => by rw [hhigh.2 h] at hb; cases hb
    simp only [Bool.false_eq_true, and_false, and_true, or_false]
    omega

/-- The bytes that `BS.unfoldr step` yields, the low one first. -/
def encodeSteps (n : Int) : List UInt8 :=
  let byte := lowByte n
  let rest := n >>> (8 : Nat)
  if rest = 0 ∧ highBit byte = false ∨ rest = -1 ∧ highBit byte = true then [byte] else byte :: encodeSteps rest
termination_by n.natAbs
decreasing_by
  have hlarge : ¬(-128 ≤ n ∧ n < 128) := mt (done_iff n).2 ‹_›
  have hrest : n >>> (8 : Nat) = n / 256 := Int.shiftRight_eq_div_pow n 8
  show (n >>> (8 : Nat)).natAbs < n.natAbs
  rw [hrest]
  omega

attribute [grind =] encodeSteps

def encodeDecimalInteger (n : Int) : List UInt8 := (encodeSteps n).reverse

/-! ## Decoding and encoding -/

theorem decode_cons (b : UInt8) (bs : List UInt8) :
    decodeDecimalInteger (b :: bs) = some (signedValue (b :: bs)) := by
  have hfold : ∀ (cs : List UInt8) (n : Int),
      cs.foldl (fun n byte => n * 256 + (byte.toNat : Int)) n = n * 256 ^ cs.length + beValue cs := by
    intro cs
    induction cs with
    | nil => intro n; simp
    | cons c cs ih =>
      intro n
      rw [List.foldl_cons, ih, beValue_cons, List.length_cons]
      push_cast
      ring
  have hsign : b.toNat.testBit 7 = highBit b := rfl
  rw [decodeDecimalInteger, List.foldl_cons, hfold, hsign, signedValue]
  cases hb : highBit b with
  | true =>
    rw [signedByte_of_neg hb, if_pos rfl]
    ring_nf
  | false =>
    rw [signedByte_of_nonneg hb, if_neg Bool.false_ne_true]
    ring_nf

theorem decode_eq_signedValue {bs : List UInt8} (h : bs ≠ []) : decodeDecimalInteger bs = some (signedValue bs) := by
  cases bs with
  | nil => exact absurd rfl h
  | cons b bs => exact decode_cons b bs

theorem encodeSteps_small {n : Int} (h : -128 ≤ n ∧ n < 128) : encodeSteps n = [lowByte n] := by
  rw [encodeSteps]
  exact if_pos ((done_iff n).2 h)

theorem encodeSteps_large {n : Int} (h : ¬(-128 ≤ n ∧ n < 128)) :
    encodeSteps n = lowByte n :: encodeSteps (n / 256) := by
  have hrest : n >>> (8 : Nat) = n / 256 := Int.shiftRight_eq_div_pow n 8
  rw [encodeSteps]
  refine (if_neg (mt (done_iff n).1 h)).trans ?_
  rw [hrest]

/-- By the low byte: either it is all, or what is left comes before it. -/
theorem encode_cases {P : Int → Prop} (small : ∀ n, -128 ≤ n ∧ n < 128 → P n)
    (large : ∀ n, ¬(-128 ≤ n ∧ n < 128) → P (n / 256) → P n) (n : Int) : P n := by
  by_cases h : -128 ≤ n ∧ n < 128
  · exact small n h
  · exact large n h (encode_cases small large (n / 256))
termination_by n.natAbs

theorem encodeDecimalInteger_ne_nil (n : Int) : encodeDecimalInteger n ≠ [] := by
  rw [encodeDecimalInteger, encodeSteps]
  split_ifs <;> simp

theorem signedValue_encode (n : Int) : signedValue (encodeDecimalInteger n) = n := by
  induction n using encode_cases with
  | small n h =>
    rw [encodeDecimalInteger, encodeSteps_small h, List.reverse_singleton, signedValue_singleton, signedByte_lowByte h]
  | large n h ih =>
    have hstep : encodeDecimalInteger n = encodeDecimalInteger (n / 256) ++ [lowByte n] := by
      rw [encodeDecimalInteger, encodeSteps_large h, List.reverse_cons, encodeDecimalInteger]
    rw [hstep, signedValue_snoc (encodeDecimalInteger_ne_nil _), ih, lowByte_toNat]
    omega

theorem decode_encode (n : Int) : decodeDecimalInteger (encodeDecimalInteger n) = some n := by
  rw [decode_eq_signedValue (encodeDecimalInteger_ne_nil n), signedValue_encode]

/-- No bytes for a number are fewer than those of its encoding. -/
theorem encode_shortest {n : Int} {bs : List UInt8} (h : decodeDecimalInteger bs = some n) :
    (encodeDecimalInteger n).length ≤ bs.length := by
  have hne : bs ≠ [] := by
    rintro rfl
    cases h
  rw [decode_eq_signedValue hne, Option.some_inj] at h
  induction n using encode_cases generalizing bs with
  | small n hn =>
    rw [encodeDecimalInteger, encodeSteps_small hn]
    exact List.length_pos_iff.2 hne
  | large n hn ih =>
    obtain ⟨cs, b, rfl⟩ : ∃ cs b, bs = cs ++ [b] := ⟨bs.dropLast, bs.getLast hne, (List.dropLast_append_getLast hne).symm⟩
    have hcs : cs ≠ [] := by
      rintro rfl
      rw [List.nil_append, signedValue_singleton] at h
      exact hn (h ▸ signedByte_bounds b)
    rw [signedValue_snoc hcs] at h
    have hb : (b.toNat : Int) < 256 := by exact_mod_cast b.toNat_lt
    have hlen := @ih cs (by omega) hcs
    rw [encodeDecimalInteger, encodeSteps_large hn]
    simp only [encodeDecimalInteger, List.length_reverse, List.length_cons, List.length_append, List.length_nil] at hlen ⊢
    omega

/-! ## Comparing -/

theorem drop_eq_cons {bytes : List UInt8} {i : Nat} (h : i < bytes.length) :
    bytes.drop i = unsafeIndex bytes i :: bytes.drop (i + 1) := by
  rw [List.drop_eq_getElem_cons h, unsafeIndex, List.getD_eq_getElem?_getD, List.getElem?_eq_getElem h]
  rfl

theorem redundant_drop {bytes : List UInt8} {i : Nat} (h : i + 1 < bytes.length) :
    Redundant (bytes.drop i) ↔
      unsafeIndex bytes i = 0 ∧ highBit (unsafeIndex bytes (i + 1)) = false ∨
      unsafeIndex bytes i = 255 ∧ highBit (unsafeIndex bytes (i + 1)) = true := by
  rw [drop_eq_cons (by omega), drop_eq_cons h, Redundant]

/-- What is skipped does not count, and what is left says more than the sign. -/
theorem significantFrom_spec (bytes : List UInt8) (i : Nat) (h : i < bytes.length) :
    significantFrom bytes i < bytes.length ∧
    signedValue (bytes.drop (significantFrom bytes i)) = signedValue (bytes.drop i) ∧
    ¬Redundant (bytes.drop (significantFrom bytes i)) := by
  induction i using significantFrom.induct bytes with
  | case1 i hlast =>
    rw [significantFrom, if_pos hlast]
    refine ⟨h, rfl, ?_⟩
    rw [drop_eq_cons h, List.drop_eq_nil_of_le hlast]
    exact id
  | case2 i hmore byte nextNegative hskip ih =>
    have hlt : i + 1 < bytes.length := by omega
    obtain ⟨hstart, hvalue, hred⟩ := ih hlt
    rw [significantFrom, if_neg hmore]
    refine (if_pos hskip).symm ▸ ⟨hstart, ?_, hred⟩
    have hsame := (redundant_drop hlt).2 hskip
    rw [hvalue, drop_eq_cons h]
    rw [drop_eq_cons h] at hsame
    exact (signedValue_redundant hsame).symm
  | case3 i hmore byte nextNegative hstay =>
    rw [significantFrom, if_neg hmore]
    exact (if_neg hstay).symm ▸ ⟨h, rfl, fun hred => hstay ((redundant_drop (by omega)).1 hred)⟩

theorem compare_toNat (x y : UInt8) : compare x y = compare x.toNat y.toNat := by
  show compareOfLessAndEq x y = compareOfLessAndEq x.toNat y.toNat
  simp only [compareOfLessAndEq, UInt8.lt_iff_toNat_lt, UInt8.toNat_inj]

theorem compare_add_left (k m n : Nat) : compare (k + m) (k + n) = compare m n := by
  show compareOfLessAndEq (k + m) (k + n) = compareOfLessAndEq m n
  simp only [compareOfLessAndEq, Nat.add_lt_add_iff_left, Nat.add_left_cancel_iff]

theorem compare_sub_right (m n : Nat) (k : Int) : compare ((m : Int) - k) (n - k) = compare m n := by
  show compareOfLessAndEq ((m : Int) - k) (n - k) = compareOfLessAndEq m n
  simp only [compareOfLessAndEq, Int.sub_lt_sub_right_iff, Int.sub_left_inj, Int.ofNat_lt, Int.natCast_inj]

theorem compareBytes_eq (a b : List UInt8) (startA startB left i : Nat) (ha : startA + i + left = a.length)
    (hb : startB + i + left = b.length) :
    compareBytes a b startA startB left i =
      compare (beValue (a.drop (startA + i))) (beValue (b.drop (startB + i))) := by
  induction left generalizing i with
  | zero =>
    rw [List.drop_eq_nil_of_le (by omega), List.drop_eq_nil_of_le (by omega)]
    rfl
  | succ left ih =>
    have hA := drop_eq_cons (show startA + i < a.length by omega)
    have hB := drop_eq_cons (show startB + i < b.length by omega)
    have hla : (a.drop (startA + i + 1)).length = left := by rw [List.length_drop]; omega
    have hlb : (b.drop (startB + i + 1)).length = left := by rw [List.length_drop]; omega
    have hva := beValue_lt (a.drop (startA + i + 1))
    have hvb := beValue_lt (b.drop (startB + i + 1))
    rw [hA, hB, beValue_cons, beValue_cons, hla, hlb, compareBytes]
    rw [hla] at hva
    rw [hlb] at hvb
    rw [compare_toNat]
    rcases lt_trichotomy (unsafeIndex a (startA + i)).toNat (unsafeIndex b (startB + i)).toNat with hlt | heq | hgt
    · rw [compare_lt_iff_lt.2 hlt]
      refine (compare_lt_iff_lt.2 ?_).symm
      nlinarith
    · rw [heq, compare_eq_iff_eq.2 rfl]
      refine (ih (i + 1) (by omega) (by omega)).trans ?_
      exact (compare_add_left _ _ _).symm
    · rw [compare_gt_iff_gt.2 hgt]
      refine (compare_gt_iff_gt.2 ?_).symm
      nlinarith

/-- The significant bytes stand for the same number. -/
theorem significant (bytes : List UInt8) (h : bytes ≠ []) : ∃ c cs,
    bytes.drop (significantStart bytes) = c :: cs ∧ signedValue (c :: cs) = signedValue bytes ∧ ¬Redundant (c :: cs) ∧
    cs.length + 1 = bytes.length - significantStart bytes ∧ significantStart bytes < bytes.length ∧
    highBit (unsafeIndex bytes 0) = highBit c := by
  obtain ⟨hstart, hvalue, hred⟩ := significantFrom_spec bytes 0 (List.length_pos_iff.2 h)
  have hdrop := drop_eq_cons hstart
  rw [hdrop] at hvalue hred
  refine ⟨_, _, hdrop, hvalue, hred, ?_, hstart, ?_⟩
  · rw [List.length_drop, significantStart]
    omega
  · have hfirst := drop_eq_cons (List.length_pos_iff.2 h)
    rw [hfirst] at hvalue
    rw [Bool.eq_iff_iff, ← signedValue_neg_iff _ (bytes.drop (0 + 1)), ← hvalue, signedValue_neg_iff]

/-- **The comparison is that of the numbers.** -/
theorem compareDecimalBytes_eq {a b : List UInt8} (ha : a ≠ []) (hb : b ≠ []) :
    compareDecimalBytes a b = compare (signedValue a) (signedValue b) := by
  obtain ⟨c, cs, hdropA, hvalueA, hredA, hwidthA, hstartA, hsignA⟩ := significant a ha
  obtain ⟨d, ds, hdropB, hvalueB, hredB, hwidthB, hstartB, hsignB⟩ := significant b hb
  have hempty : ¬(a.isEmpty || b.isEmpty) = true := by simp [ha, hb]
  rw [compareDecimalBytes, if_neg hempty, hsignA, hsignB, ← hwidthA, ← hwidthB, ← hvalueA, ← hvalueB]
  by_cases hsign : highBit c = highBit d
  · rw [if_neg (not_not.2 hsign)]
    rcases lt_trichotomy cs.length ds.length with hlt | heq | hgt
    · obtain ⟨hneg, hnn⟩ := signedValue_longer (d := c) hredB hlt
      rw [if_pos (by omega)]
      cases hc : highBit c with
      | true =>
        rw [compare_gt_iff_gt.2 (hneg (hsign.symm.trans hc)), if_pos rfl]
        exact compare_gt_iff_gt.2 (Nat.succ_lt_succ hlt)
      | false =>
        rw [compare_lt_iff_lt.2 (hnn (hsign.symm.trans hc)), if_neg Bool.false_ne_true]
        exact compare_lt_iff_lt.2 (Nat.succ_lt_succ hlt)
    · rw [if_neg (by omega), compareBytes_eq a b _ _ _ 0 (by omega) (by omega), Nat.add_zero, Nat.add_zero, hdropA, hdropB,
        signedValue_eq_beValue, signedValue_eq_beValue, hsign, heq]
      exact (compare_sub_right _ _ _).symm
    · obtain ⟨hneg, hnn⟩ := signedValue_longer (d := d) hredA hgt
      rw [if_pos (by omega)]
      cases hc : highBit c with
      | true =>
        rw [compare_lt_iff_lt.2 (hneg hc), if_pos rfl]
        exact compare_lt_iff_lt.2 (Nat.succ_lt_succ hgt)
      | false =>
        rw [compare_gt_iff_gt.2 (hnn hc), if_neg Bool.false_ne_true]
        exact compare_gt_iff_gt.2 (Nat.succ_lt_succ hgt)
  · rw [if_pos hsign]
    cases hc : highBit c with
    | true =>
      have hd : highBit d = false := by
        rw [hc] at hsign
        simpa using hsign
      rw [if_pos rfl]
      exact (compare_lt_iff_lt.2 ((signedValue_neg hc cs).trans_le (signedValue_nonneg hd ds))).symm
    | false =>
      have hd : highBit d = true := by
        rw [hc] at hsign
        simpa using hsign
      rw [if_neg Bool.false_ne_true]
      exact (compare_gt_iff_gt.2 ((signedValue_neg hd ds).trans_le (signedValue_nonneg hc cs))).symm

/-! ## Precisions -/

/-- The lower neighbour of the capacity of a bit. -/
theorem ten_pow_le_two_pow : 10 ^ 5107137094 ≤ 2 ^ 16965542197 := by
  refine Powers.le_two_pow_of_highPow (g := 10) (w := 128) (k := 33) (by decide) ?_ ?_
  · decide
  · decide

/-- The upper one. -/
theorem two_pow_lt_ten_pow : 2 ^ 1923400330 < 10 ^ 579001193 := by
  refine Powers.two_pow_lt_of_lowPow (g := 10) (w := 128) (k := 30) (by decide) ?_ ?_
  · decide
  · decide

theorem ten_pow_le_iff {p n : Nat} (h0 : 0 < n) (hn : n ≤ 17179869175) :
    10 ^ p ≤ 2 ^ n ↔ p * 100000000000000000000000000000000000000000000000000 ≤
      n * 30102999566398119521373889472449302676818988146210 :=
  Powers.pow_le_pow_iff (by decide) ten_pow_le_two_pow two_pow_lt_ten_pow (by decide) (by decide) h0 (by omega)

/-- A number of bytes has room for a number. -/
def FitsIn (width : Nat) (z : Int) : Prop := ∃ bytes, bytes.length = width ∧ decodeDecimalInteger bytes = some z

theorem fitsIn_iff (k : Nat) (z : Int) : FitsIn (k + 1) z ↔ -(128 * 256 ^ k) ≤ z ∧ z < 128 * 256 ^ k := by
  constructor
  · rintro ⟨bytes, hlen, hz⟩
    cases bytes with
    | nil => cases hlen
    | cons b bs =>
      rw [decode_cons, Option.some_inj] at hz
      have hk : bs.length = k := Nat.succ_inj.1 hlen
      rw [← hz, ← hk]
      exact signedValue_bounds b bs
  · intro h
    induction k generalizing z with
    | zero =>
      refine ⟨[lowByte z], rfl, ?_⟩
      rw [decode_cons, signedValue_singleton, signedByte_lowByte (by simpa using h)]
    | succ k ih =>
      rw [pow_succ] at h
      obtain ⟨bytes, hlen, hz⟩ := ih (z / 256) ⟨by omega, by omega⟩
      have hne : bytes ≠ [] := by
        rintro rfl
        cases hlen
      rw [decode_eq_signedValue hne, Option.some_inj] at hz
      refine ⟨bytes ++ [lowByte z], by rw [List.length_append, hlen]; rfl, ?_⟩
      rw [decode_eq_signedValue (by simp), signedValue_snoc hne, hz, lowByte_toNat]
      congr 1
      omega

/-- The capacity counts the powers of ten, for all widths of a 32-bit integer. -/
theorem decimalPrecisionFits_iff {p w : Nat} (hp : 0 < p) (hw : 0 < w) (hmax : w < 2 ^ 31) :
    decimalPrecisionFits p w = true ↔ 10 ^ p ≤ 2 ^ (8 * w - 1) := by
  have hsome : ¬((p : Int) ≤ 0 ∨ (w : Int) ≤ 0) := by omega
  rw [decimalPrecisionFits, if_neg (by simpa using hsome), decide_eq_true_eq, ten_pow_le_iff (by omega) (by omega),
    log10TwoLowerNumerator, log10TwoDenominator, Int.tdiv_eq_ediv_of_nonneg (by omega),
    Int.le_ediv_iff_mul_le (by decide)]
  omega

/-- All numbers of some digits fit when the largest does. -/
theorem fitsIn_digits (p : Nat) {w : Nat} (h : 0 < w) :
    (∀ z : Int, z.natAbs < 10 ^ p → FitsIn w z) ↔ 10 ^ p ≤ 2 ^ (8 * w - 1) := by
  obtain ⟨k, rfl⟩ : ∃ k, w = k + 1 := ⟨w - 1, by omega⟩
  have hroom : 2 ^ (8 * (k + 1) - 1) = 128 * 256 ^ k := by
    rw [show 8 * (k + 1) - 1 = 7 + 8 * k by omega, pow_add, pow_mul]
    rfl
  have hpos := Nat.pow_pos (n := p) (by decide : 0 < 10)
  rw [hroom]
  constructor
  · intro h
    have hz := ((fitsIn_iff k _).1 (h ((10 ^ p - 1 : Nat) : Int) (by omega))).2
    have : (10 ^ p - 1 : Nat) < 128 * 256 ^ k := by exact_mod_cast hz
    omega
  · intro h z hz
    have h1 : ((10 ^ p : Nat) : Int) ≤ 128 * 256 ^ k := by exact_mod_cast h
    rw [fitsIn_iff]
    omega

/-- **Decimal storage is exact**: bytes are compared as the numbers they stand for, the
    encoding of a number is the shortest that stands for it, and a precision fits in a
    width when all numbers of so many digits do. -/
theorem decimal_exact :
    (∀ a b, a ≠ [] → b ≠ [] → ∃ x y, decodeDecimalInteger a = some x ∧ decodeDecimalInteger b = some y ∧
      compareDecimalBytes a b = compare x y) ∧
    (∀ n, decodeDecimalInteger (encodeDecimalInteger n) = some n ∧
      ∀ bytes, decodeDecimalInteger bytes = some n → (encodeDecimalInteger n).length ≤ bytes.length) ∧
    (∀ p w : Nat, 0 < p → p < 2 ^ 31 → 0 < w → w < 2 ^ 31 →
      (decimalPrecisionFits p w = true ↔ ∀ z : Int, z.natAbs < 10 ^ p → FitsIn w z) ∧
      (decimalPrecisionFits p w = true ↔ (10 : Int) ^ p - 1 ≤ 2 ^ (8 * w - 1) - 1)) := by
  refine ⟨fun a b ha hb => ?_, fun n => ⟨decode_encode n, fun bytes => encode_shortest⟩, fun p w hp _ hw hmax => ?_⟩
  · exact ⟨_, _, decode_eq_signedValue ha, decode_eq_signedValue hb, compareDecimalBytes_eq ha hb⟩
  · rw [decimalPrecisionFits_iff hp hw hmax, fitsIn_digits p hw]
    refine ⟨Iff.rfl, ?_⟩
    rw [Int.sub_le_sub_right_iff]
    exact_mod_cast Iff.rfl

end Wireform.Parquet

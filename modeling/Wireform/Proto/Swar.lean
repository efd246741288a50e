/-
  The branch-free varint decoder `hs_proto_decode_varint_swar`.

  It loads eight bytes as one word, finds the first byte without a continuation
  bit by counting trailing zeros, and moves the seven payload bits of each byte
  together.  `decodeVarintSwar_eq`: when it finds a last byte, it reads what the
  byte-at-a-time decoder reads.
-/
import Wireform.Proto.Varint

namespace Wireform.Proto

/-! ## The decoder -/

/-- Little-endian value of some bytes. -/
def leNat (bytes : List UInt8) : Nat := bytes.foldr (fun b acc => b.toNat + 256 * acc) 0

/-- The word that `memcpy` loads from eight bytes. -/
def loadWord (bytes : List UInt8) : BitVec 64 := BitVec.ofNat 64 (leNat bytes)

/-- The continuation bit of every byte. -/
def signBits : BitVec 64 := 0x8080808080808080

/-- `__builtin_ctzll`. -/
def ctz (w : BitVec 64) : Nat := (List.range 64).findIdx fun i => w.getLsbD i

/-- Move the 7-bit groups together. -/
def swarCompact (s : BitVec 64) : BitVec 64 :=
  (s &&& 0x7F#64) ||| ((s >>> 1) &&& (0x7F#64 <<< 7)) ||| ((s >>> 2) &&& (0x7F#64 <<< 14)) |||
    ((s >>> 3) &&& (0x7F#64 <<< 21)) ||| ((s >>> 4) &&& (0x7F#64 <<< 28)) |||
    ((s >>> 5) &&& (0x7F#64 <<< 35)) ||| ((s >>> 6) &&& (0x7F#64 <<< 42)) |||
    ((s >>> 7) &&& (0x7F#64 <<< 49))

/-- `hs_proto_decode_varint_swar` on the loaded word: the value and the number
    of bytes consumed, `none` if no byte ends the varint. -/
def decodeVarintSwar (word : BitVec 64) : Option (BitVec 64 × Nat) :=
  if word &&& 0x80#64 = 0 then some (word &&& 0x7F#64, 1)
  else
    let termMask := (word ^^^ signBits) &&& signBits
    if termMask = 0 then none
    else
      let tagBits := ctz termMask
      let mask := if tagBits < 63 then (1#64 <<< (tagBits + 1)) - 1 else BitVec.allOnes 64
      let stripped := (word &&& mask) &&& ~~~signBits
      some (swarCompact stripped, tagBits / 8 + 1)

/-! ## Bits -/

theorem getLsbD_7F (i : Nat) : (0x7F#64).getLsbD i = decide (i < 7) := by
  have : 0x7F#64 = BitVec.ofNat 64 (2 ^ 7 - 1) := rfl
  rw [this, BitVec.getLsbD_ofNat, Nat.testBit_two_pow_sub_one]
  by_cases h : i < 7 <;> simp [h]; omega

/-- The `j`-th group of seven bits, moved to its place. -/
theorem getLsbD_group (s : BitVec 64) {j : Nat} (hj : j ≤ 7) (t : Nat) :
    ((s >>> j) &&& (0x7F#64 <<< (7 * j))).getLsbD t =
      (decide (t / 7 = j) && s.getLsbD (t + t / 7)) := by
  rw [BitVec.getLsbD_and, BitVec.getLsbD_ushiftRight, BitVec.getLsbD_shiftLeft, getLsbD_7F]
  by_cases ht : t / 7 = j
  · have h1 : ¬ t < 7 * j := by omega
    have h2 : t - 7 * j < 7 := by omega
    have h3 : t < 64 := by omega
    simp [ht, h1, h2, h3, Nat.add_comm]
  · have h : ¬ (t < 64 ∧ ¬ t < 7 * j ∧ t - 7 * j < 7) := by omega
    simp only [ht, decide_false, Bool.false_and, Bool.and_eq_false_iff]
    right
    by_cases a : t < 64 <;> by_cases b : t < 7 * j <;> by_cases c : t - 7 * j < 7 <;> simp_all

theorem getLsbD_swarCompact (s : BitVec 64) (t : Nat) :
    (swarCompact s).getLsbD t = (decide (t < 56) && s.getLsbD (t + t / 7)) := by
  have h0 : s &&& 0x7F#64 = (s >>> 0) &&& (0x7F#64 <<< (7 * 0)) := by simp
  unfold swarCompact
  rw [h0]
  simp only [BitVec.getLsbD_or]
  rw [getLsbD_group s (j := 0) (by omega), getLsbD_group s (j := 1) (by omega),
    getLsbD_group s (j := 2) (by omega), getLsbD_group s (j := 3) (by omega),
    getLsbD_group s (j := 4) (by omega), getLsbD_group s (j := 5) (by omega),
    getLsbD_group s (j := 6) (by omega), getLsbD_group s (j := 7) (by omega)]
  simp only [← Bool.and_or_distrib_right]
  congr 1
  by_cases h : t < 56
  · have : t / 7 < 8 := by omega
    generalize t / 7 = q at *
    simp only [h, decide_true]
    revert q; decide
  · simp [h]; omega
theorem getLsbD_signBits (i : Nat) : signBits.getLsbD i = decide (i < 64 ∧ i % 8 = 7) := by
  by_cases h : i < 64
  · have : ∀ i < 64, signBits.getLsbD i = decide (i < 64 ∧ i % 8 = 7) := by decide
    exact this i h
  · rw [BitVec.getLsbD_of_ge _ _ (by omega)]
    simp [h]

theorem testBit_leNat : ∀ (bytes : List UInt8) (i : Nat),
    (leNat bytes).testBit i = (bytes.getD (i / 8) 0).toNat.testBit (i % 8)
  | [], i => by simp [leNat]
  | b :: bytes, i => by
    have hb : b.toNat < 2 ^ 8 := b.toNat_lt
    have hcons : leNat (b :: bytes) = 2 ^ 8 * leNat bytes + b.toNat := by
      simp [leNat]; omega
    rw [hcons, Nat.testBit_two_pow_mul_add _ hb]
    split
    · rename_i hi
      rw [Nat.div_eq_of_lt hi, Nat.mod_eq_of_lt hi]
      rfl
    · rename_i hi
      obtain ⟨j, rfl⟩ := Nat.exists_eq_add_of_le (not_lt.1 hi)
      rw [testBit_leNat bytes, show 8 + j - 8 = j by omega, show (8 + j) / 8 = j / 8 + 1 by omega,
        show (8 + j) % 8 = j % 8 by omega, List.getD_cons_succ]

theorem getLsbD_loadWord (bytes : List UInt8) (i : Nat) : (loadWord bytes).getLsbD i =
    (decide (i < 64) && (bytes.getD (i / 8) 0).toBitVec.getLsbD (i % 8)) := by
  rw [loadWord, BitVec.getLsbD_ofNat, testBit_leNat]
  rfl

/-- The continuation bit. -/
theorem getLsbD_seven (b : UInt8) : b.toBitVec.getLsbD 7 = decide (¬ b < 0x80) := by
  have := BitVec.msb_eq_decide b.toBitVec
  rw [BitVec.msb_eq_getLsbD_last] at this
  rw [this]
  exact decide_eq_decide.2 ⟨fun h hb => absurd h (not_le.2 hb), fun h => not_lt.1 h⟩

theorem getLsbD_varintBits (b : UInt8) {shift : Nat} (hs : shift < 64) (t : Nat) :
    (varintBits b shift).toBitVec.getLsbD t =
      (decide (t < 64 ∧ shift ≤ t ∧ t - shift < 7) && b.toBitVec.getLsbD (t - shift)) := by
  change (varintBits b shift).toNat.testBit t = (_ && b.toNat.testBit (t - shift))
  have hsh : (UInt64.ofNat shift).toNat % 64 = shift := by
    rw [UInt64.toNat_ofNat']; omega
  rw [varintBits, UInt64.toNat_shiftLeft, UInt64.toNat_and, UInt8.toNat_toUInt64, hsh,
    show (0x7F : UInt64).toNat = 2 ^ 7 - 1 from rfl, Nat.testBit_mod_two_pow, Nat.testBit_shiftLeft,
    Nat.testBit_and, Nat.testBit_two_pow_sub_one]
  by_cases h1 : t < 64 <;> by_cases h2 : shift ≤ t <;> by_cases h3 : t - shift < 7 <;>
    simp [h1, h2, h3]

/-! ## The first last byte -/

/-- The byte at `k` is the first one without a continuation bit. -/
structure EndsAt (bytes : List UInt8) (k : Nat) : Prop where
  lt : k < bytes.length
  more : ∀ i < k, ¬ bytes.getD i 0 < 0x80
  last : bytes.getD k 0 < 0x80

/-- What `getVarintLazy` reads up to the first last byte, bit by bit. -/
theorem getVarintLazy_go_bits : ∀ (bytes : List UInt8) (k : Nat), EndsAt bytes k →
    ∀ (acc : UInt64) (shift : Nat), shift + 7 * k ≤ 63 →
      ∃ w, getVarintLazy.go acc shift bytes = .ok (w, bytes.drop (k + 1)) ∧
        ∀ t, w.toBitVec.getLsbD t = (acc.toBitVec.getLsbD t ||
          (decide (t < 64 ∧ shift ≤ t ∧ (t - shift) / 7 ≤ k) &&
            (bytes.getD ((t - shift) / 7) 0).toBitVec.getLsbD ((t - shift) % 7)))
  | [], k, h, _, _, _ => absurd h.lt (by simp)
  | b :: bytes, 0, h, acc, shift, hs => by
    have hb : b < 0x80 := h.last
    rw [getVarintLazy_go_cons (by omega), if_pos hb]
    refine ⟨_, rfl, fun t => ?_⟩
    rw [UInt64.toBitVec_or, BitVec.getLsbD_or, getLsbD_varintBits b (by omega)]
    congr 1
    by_cases h1 : t < 64 ∧ shift ≤ t ∧ t - shift < 7
    · have h2 : (t - shift) / 7 = 0 := by omega
      have h3 : (t - shift) % 7 = t - shift := by omega
      simp [h1, h2, h3]
    · have h2 : ¬ (t < 64 ∧ shift ≤ t ∧ (t - shift) / 7 ≤ 0) := by omega
      rw [decide_eq_false h1, decide_eq_false h2]
      rfl
  | b :: bytes, k + 1, h, acc, shift, hs => by
    have hb : ¬ b < 0x80 := h.more 0 (by omega)
    have h' : EndsAt bytes k := ⟨by have := h.lt; simp at this; omega,
      fun i hi => by simpa using h.more (i + 1) (by omega), by simpa using h.last⟩
    obtain ⟨w, hw, hbits⟩ := getVarintLazy_go_bits bytes k h' (acc ||| varintBits b shift)
      (shift + 7) (by omega)
    rw [getVarintLazy_go_cons (by omega), if_neg hb, hw]
    refine ⟨w, by simp, fun t => ?_⟩
    rw [hbits t, UInt64.toBitVec_or, BitVec.getLsbD_or, getLsbD_varintBits b (by omega),
      Bool.or_assoc]
    congr 1
    by_cases h1 : t < 64 ∧ shift ≤ t ∧ t - shift < 7
    · have h2 : ¬ (t < 64 ∧ shift + 7 ≤ t ∧ (t - (shift + 7)) / 7 ≤ k) := by omega
      have h3 : t < 64 ∧ shift ≤ t ∧ (t - shift) / 7 ≤ k + 1 := by omega
      rw [decide_eq_true h1, decide_eq_false h2, decide_eq_true h3,
        show (t - shift) / 7 = 0 by omega, show (t - shift) % 7 = t - shift by omega]
      simp
    · rw [decide_eq_false h1]
      by_cases h2 : t < 64 ∧ shift + 7 ≤ t ∧ (t - (shift + 7)) / 7 ≤ k
      · have h3 : t < 64 ∧ shift ≤ t ∧ (t - shift) / 7 ≤ k + 1 := by omega
        rw [decide_eq_true h2, decide_eq_true h3,
          show (t - shift) / 7 = (t - (shift + 7)) / 7 + 1 by omega,
          show (t - shift) % 7 = (t - (shift + 7)) % 7 by omega]
        simp
      · have h3 : ¬ (t < 64 ∧ shift ≤ t ∧ (t - shift) / 7 ≤ k + 1) := by omega
        rw [decide_eq_false h2, decide_eq_false h3]
        rfl

/-! ## The branch-free decoder -/

theorem ctz_spec {w : BitVec 64} (hw : w ≠ 0) :
    ctz w < 64 ∧ w.getLsbD (ctz w) = true ∧ ∀ i < ctz w, w.getLsbD i = false := by
  have hex : ∃ i < 64, w.getLsbD i = true := by
    by_contra hno
    push Not at hno
    refine hw (BitVec.eq_of_getLsbD_eq fun i hi => ?_)
    have := hno i hi
    simp_all
  have hlt : ctz w < 64 := by
    obtain ⟨i, hi, hb⟩ := hex
    have : (List.range 64).findIdx (fun i => w.getLsbD i) < (List.range 64).length :=
      List.findIdx_lt_length_of_exists ⟨i, List.mem_range.2 hi, hb⟩
    simpa [ctz] using this
  refine ⟨hlt, ?_, fun i hi => ?_⟩
  · have hl : (List.range 64).findIdx (fun i => w.getLsbD i) < (List.range 64).length := by
      simpa [ctz] using hlt
    have : w.getLsbD ((List.range 64)[(List.range 64).findIdx fun i => w.getLsbD i]) = true :=
      List.findIdx_getElem
    simpa [ctz] using this
  · have hr : i < (List.range 64).length := by rw [List.length_range]; omega
    have : w.getLsbD (List.range 64)[i] = false := List.not_of_lt_findIdx hi
    simpa using this

theorem getLsbD_mask {n : Nat} (hn : n < 64) (t : Nat) :
    (if n < 63 then (1#64 <<< (n + 1)) - 1 else BitVec.allOnes 64).getLsbD t =
      decide (t < 64 ∧ t ≤ n) := by
  split
  · have hpow : 2 ^ (n + 1) < 2 ^ 64 := Nat.pow_lt_pow_right (by omega) (by omega)
    have hpos : 0 < 2 ^ (n + 1) := Nat.two_pow_pos _
    have hval : ((1#64 <<< (n + 1)) - 1).toNat = 2 ^ (n + 1) - 1 := by
      have h1 : (1#64 <<< (n + 1)).toNat = 2 ^ (n + 1) := by
        rw [BitVec.toNat_shiftLeft, Nat.shiftLeft_eq, show (1#64).toNat = 1 from rfl, Nat.one_mul,
          Nat.mod_eq_of_lt hpow]
      rw [BitVec.toNat_sub, h1, show (1 : BitVec 64).toNat = 1 from rfl]
      omega
    change ((1#64 <<< (n + 1)) - 1).toNat.testBit t = _
    rw [hval, Nat.testBit_two_pow_sub_one]
    exact decide_eq_decide.2 ⟨fun h => by omega, fun h => by omega⟩
  · rw [BitVec.getLsbD_allOnes]
    exact decide_eq_decide.2 ⟨fun h => by omega, fun h => by omega⟩

theorem getLsbD_termMask (w : BitVec 64) (i : Nat) :
    ((w ^^^ signBits) &&& signBits).getLsbD i = (decide (i < 64 ∧ i % 8 = 7) && !w.getLsbD i) := by
  rw [BitVec.getLsbD_and, BitVec.getLsbD_xor, getLsbD_signBits]
  by_cases h : i < 64 ∧ i % 8 = 7 <;> simp [h]

theorem getLsbD_stripped {n : Nat} (hn : n < 64) (w : BitVec 64) (t : Nat) :
    ((w &&& if n < 63 then (1#64 <<< (n + 1)) - 1 else BitVec.allOnes 64) &&& ~~~signBits).getLsbD t
      = (decide (t < 64 ∧ t ≤ n ∧ t % 8 ≠ 7) && w.getLsbD t) := by
  rw [BitVec.getLsbD_and, BitVec.getLsbD_and, BitVec.getLsbD_not, getLsbD_mask hn, getLsbD_signBits]
  by_cases h1 : t < 64 <;> by_cases h2 : t ≤ n <;> by_cases h3 : t % 8 = 7 <;>
    simp [h1, h2, h3]

/-- The `i`-th byte of the word, bit by bit. -/
theorem loadWord_byte {bytes : List UInt8} {i r : Nat} (hi : i < 8) (hr : r < 8) :
    (loadWord bytes).getLsbD (8 * i + r) = (bytes.getD i 0).toBitVec.getLsbD r := by
  rw [getLsbD_loadWord, show (8 * i + r) / 8 = i by omega, show (8 * i + r) % 8 = r by omega,
    decide_eq_true (by omega), Bool.true_and]

/-- **What the branch-free decoder reads**: the bytes up to the first last
    one. -/
theorem decodeVarintSwar_bits {bytes : List UInt8} (hl : bytes.length = 8) {v : BitVec 64} {c : Nat}
    (h : decodeVarintSwar (loadWord bytes) = some (v, c)) :
    ∃ k < 8, c = k + 1 ∧ EndsAt bytes k ∧ ∀ t, v.getLsbD t =
      (decide (t < 64 ∧ t / 7 ≤ k) && (bytes.getD (t / 7) 0).toBitVec.getLsbD (t % 7)) := by
  have hcont : ∀ i < 8, (loadWord bytes).getLsbD (8 * i + 7) = decide (¬ bytes.getD i 0 < 0x80) :=
    fun i hi => by rw [loadWord_byte hi (by omega), getLsbD_seven]
  unfold decodeVarintSwar at h
  split at h
  · rename_i hz
    cases h
    refine ⟨0, by omega, rfl, ⟨by omega, by omega, ?_⟩, fun t => ?_⟩
    · have := congrArg (BitVec.getLsbD · 7) hz
      simp only [BitVec.getLsbD_and] at this
      have h7 := hcont 0 (by omega)
      simp_all
    · rw [BitVec.getLsbD_and, getLsbD_7F]
      by_cases ht : t < 7
      · have := @loadWord_byte bytes 0 t (by omega) (by omega)
        rw [Nat.mul_zero, Nat.zero_add] at this
        rw [this, show t / 7 = 0 by omega, show t % 7 = t by omega, decide_eq_true ht,
          decide_eq_true (show t < 64 ∧ 0 ≤ 0 by omega), Bool.and_comm]
      · rw [decide_eq_false ht, decide_eq_false (show ¬ (t < 64 ∧ t / 7 ≤ 0) by omega)]
        simp
  · simp only at h
    split at h
    · cases h
    · rename_i hterm
      obtain ⟨hm, hbit, hbelow⟩ := ctz_spec hterm
      cases h
      generalize ctz ((loadWord bytes ^^^ signBits) &&& signBits) = n at *
      rw [getLsbD_termMask] at hbit
      have hn7 : n % 8 = 7 := by
        by_contra hne
        rw [decide_eq_false (by omega)] at hbit
        cases hbit
      have hn : n = 8 * (n / 8) + 7 := by omega
      refine ⟨n / 8, by omega, rfl, ⟨by omega, fun i hi => ?_, ?_⟩, fun t => ?_⟩
      · have := hbelow (8 * i + 7) (by omega)
        rw [getLsbD_termMask, decide_eq_true (by omega), hcont i (by omega)] at this
        simpa using this
      · rw [hn, hcont _ (by omega), decide_eq_true (by omega)] at hbit
        simpa using hbit
      · rw [getLsbD_swarCompact, getLsbD_stripped hm]
        by_cases ht : t < 64 ∧ t / 7 ≤ n / 8
        · rw [decide_eq_true (show t < 56 by omega),
            decide_eq_true (show t + t / 7 < 64 ∧ t + t / 7 ≤ n ∧ (t + t / 7) % 8 ≠ 7 by omega),
            decide_eq_true ht, show t + t / 7 = 8 * (t / 7) + t % 7 by omega,
            loadWord_byte (by omega) (by omega)]
          rfl
        · rw [decide_eq_false ht]
          by_cases h56 : t < 56
          · rw [decide_eq_false (show ¬ (t + t / 7 < 64 ∧ t + t / 7 ≤ n ∧ (t + t / 7) % 8 ≠ 7) by
              omega)]
            simp
          · simp [h56]

/-- **The branch-free decoder agrees with the byte-at-a-time one.** -/
theorem decodeVarintSwar_eq {bytes : List UInt8} (hl : bytes.length = 8) {v : BitVec 64} {c : Nat}
    (h : decodeVarintSwar (loadWord bytes) = some (v, c)) (rest : List UInt8) :
    getVarintLazy (bytes ++ rest) = .ok (UInt64.ofBitVec v, (bytes ++ rest).drop c) ∧ c ≤ 8 := by
  obtain ⟨k, hk, rfl, hends, hv⟩ := decodeVarintSwar_bits hl h
  have hget : ∀ i < 8, (bytes ++ rest).getD i 0 = bytes.getD i 0 := fun i hi => by
    simp [List.getD_eq_getElem?_getD, List.getElem?_append_left (show i < bytes.length by omega)]
  have hends' : EndsAt (bytes ++ rest) k :=
    ⟨by rw [List.length_append]; omega, fun i hi => by rw [hget i (by omega)]; exact hends.more i hi,
      by rw [hget k hk]; exact hends.last⟩
  obtain ⟨w, hw, hbits⟩ := getVarintLazy_go_bits _ k hends' 0 0 (by omega)
  refine ⟨?_, by omega⟩
  rw [getVarintLazy, hw]
  have hwv : w = UInt64.ofBitVec v := by
    apply UInt64.toBitVec_inj.1
    refine BitVec.eq_of_getLsbD_eq fun t ht => ?_
    rw [hbits t, UInt64.toBitVec_ofBitVec, hv t]
    by_cases h1 : t < 64 ∧ t / 7 ≤ k
    · rw [decide_eq_true h1, decide_eq_true (show t < 64 ∧ 0 ≤ t ∧ (t - 0) / 7 ≤ k by omega),
        Nat.sub_zero, hget _ (by omega)]
      simp
    · rw [decide_eq_false h1, decide_eq_false (show ¬ (t < 64 ∧ 0 ≤ t ∧ (t - 0) / 7 ≤ k) by omega)]
      simp
  rw [hwv]

end Wireform.Proto

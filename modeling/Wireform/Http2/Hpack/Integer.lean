/-
  Prefix integers and strings.

  A prefix integer is read as a natural number by `prefixInteger`.  The decoder
  computes the same in 64-bit words:

  * `decodeInteger_eq`: the decoder reads what `prefixInteger` reads;
  * `prefixInteger_encode`: it reads back what was encoded;
  * `decodeString_encode`: a string literal is read back, with or without Huffman
    coding.
-/
import Wireform.Cursor
import Wireform.Http2.Hpack.HuffmanRoundTrip
import Wireform.Http2.Hpack.Encode
import Wireform.Http2.Hpack.Decode

namespace Wireform.Http2.Hpack

/-! ## Words and bytes -/

theorem ofWord_ofNat {n : Nat} (h : n < 2 ^ 63) : ofWord (UInt64.ofNat n) = n := by
  rw [ofWord_lt]
  · rw [UInt64.toNat_ofNat']
    omega
  · rw [UInt64.toNat_ofNat']
    omega

/-- The mask of a prefix of `n` bits. -/
def byteMask (n : Nat) : UInt8 := (1 <<< UInt8.ofNat n) - 1

theorem byteMask_toNat : ∀ n < 8, (byteMask n).toNat = 2 ^ n - 1 := by decide

theorem prefixMask_toNat : ∀ n < 8, (prefixMask n).toNat = 2 ^ n - 1 := by decide

theorem and_byteMask {n : Nat} (hn : n < 8) {x : UInt8} (hx : x.toNat < 2 ^ n) : x &&& byteMask n = x := by
  apply UInt8.toNat_inj.1
  rw [UInt8.toNat_and, byteMask_toNat n hn, Nat.and_two_pow_sub_one_eq_mod, Nat.mod_eq_of_lt hx]

/-- The bits of a prefix integer behind the bits of its representation. -/
theorem or_and_byteMask {n : Nat} (hn : n < 8) {pre x : UInt8} (hpre : pre &&& byteMask n = 0)
    (hx : x.toNat < 2 ^ n) : (pre ||| x) &&& byteMask n = x := by
  have hdist : (pre ||| x) &&& byteMask n = (pre &&& byteMask n) ||| (x &&& byteMask n) := by
    apply UInt8.toNat_inj.1
    simp only [UInt8.toNat_and, UInt8.toNat_or, Nat.and_or_distrib_right]
  rw [hdist, hpre, UInt8.zero_or, and_byteMask hn hx]

/-- A group of seven bits at its place. -/
theorem group_shift {x : UInt8} {s : Nat} (hs : s < 64) :
    x.toUInt64 <<< UInt64.ofNat s = UInt64.ofNat (x.toNat * 2 ^ s) := by
  apply UInt64.toNat_inj.1
  rw [UInt64.toNat_shiftLeft, UInt64.toNat_ofNat', UInt64.toNat_ofNat', UInt8.toNat_toUInt64,
    Nat.shiftLeft_eq, Nat.mod_mod_of_dvd _ (by decide), Nat.mod_eq_of_lt hs]

/-! ## Reading at a cursor -/

variable {bs rest : ByteString} {off : Int}

theorem withIndex_cursor {α : Type} {b : UInt8} (h : Cursor bs off (b :: rest)) (k : UInt8 → Res α) :
    withIndex bs off k = k b := by
  unfold withIndex
  rw [if_pos h.nonneg, h.get]

theorem not_ge_bsLen {b : UInt8} (h : Cursor bs off (b :: rest)) : ¬ off ≥ bsLen bs :=
  not_le.2 h.lt

theorem add_one_cursor {b : UInt8} (h : Cursor bs off (b :: rest)) : addInt off 1 = off + 1 := by
  apply h.add (by decide)
  rw [List.length_cons]
  omega

variable {n : Nat} {xs : ByteString}

/-- The cursor at an offset. -/
theorem Cursor.at {off : Int} (h0 : 0 ≤ off) (h1 : off ≤ bsLen xs)
    (hs : bsLen xs < 2 ^ 63) : Cursor xs off (xs.drop off.toNat) := ⟨h0, h1, rfl, hs⟩

/-! ## Integers, as natural numbers -/

/-- Up to `k` groups of seven bits, the low ones first: their value, and what
    stands behind them. -/
def readGroups : Nat → ByteString → Option (Nat × ByteString)
  | 0, _ => none
  | _, [] => none
  | k + 1, b :: bs =>
    if b.toNat < 128 then some (b.toNat, bs)
    else (readGroups k bs).map fun r => (b.toNat % 128 + 128 * r.1, r.2)

attribute [grind =] readGroups

/-- An integer with a prefix of `n` bits: its value, and what stands behind it. -/
def prefixInteger (n : Nat) : ByteString → Option (Nat × ByteString)
  | [] => none
  | b :: bs =>
    if b.toNat % 2 ^ n < 2 ^ n - 1 then some (b.toNat % 2 ^ n, bs)
    else (readGroups 9 bs).map fun r => (2 ^ n - 1 + r.1, r.2)

attribute [grind =] prefixInteger

theorem readGroups_lt {k : Nat} : ∀ {xs : ByteString} {v : Nat} {ys : ByteString},
    readGroups k xs = some (v, ys) →
    v < 2 ^ (7 * k) ∧ ys.length < xs.length ∧ xs.length ≤ ys.length + k := by
  induction k with
  | zero => intro xs v ys h; cases h
  | succ k ih =>
    intro xs v ys h
    have hpow : 2 ^ (7 * (k + 1)) = 128 * 2 ^ (7 * k) := by
      rw [show 7 * (k + 1) = 7 * k + 7 by omega, Nat.pow_add, Nat.mul_comm]
    have hpos := Nat.two_pow_pos (7 * k)
    cases xs with
    | nil => cases h
    | cons b xs =>
      rw [readGroups] at h
      split at h
      · cases h
        exact ⟨by omega, Nat.lt_succ_self _, by rw [List.length_cons]; omega⟩
      · obtain ⟨⟨w, zs⟩, hr, heq⟩ := Option.map_eq_some_iff.1 h
        cases heq
        obtain ⟨hw, hlt, hle⟩ := ih hr
        exact ⟨by omega, Nat.lt_succ_of_lt hlt, Nat.succ_le_succ hle⟩

/-- A prefix integer takes from one to ten bytes, and fits in a word. -/
theorem prefixInteger_lt (hn : n < 8) {v : Nat} {ys : ByteString}
    (h : prefixInteger n xs = some (v, ys)) :
    v < 2 ^ 63 + 128 ∧ ys.length < xs.length ∧ xs.length ≤ ys.length + 10 := by
  have h128 : 2 ^ n ≤ 2 ^ 7 := Nat.pow_le_pow_right (by decide) (Nat.le_of_lt_succ hn)
  cases xs with
  | nil => cases h
  | cons b xs =>
    rw [prefixInteger] at h
    split at h
    · cases h
      exact ⟨by omega, Nat.lt_succ_self _, by rw [List.length_cons]; omega⟩
    · obtain ⟨⟨w, zs⟩, hr, heq⟩ := Option.map_eq_some_iff.1 h
      cases heq
      obtain ⟨hw, hlt, hle⟩ := readGroups_lt hr
      exact ⟨by omega, Nat.lt_succ_of_lt hlt, Nat.succ_le_succ hle⟩

theorem readGroups_suffix {k : Nat} : ∀ {xs : ByteString} {v : Nat} {ys : ByteString},
    readGroups k xs = some (v, ys) → ys <:+ xs := by
  induction k with
  | zero => intro xs v ys h; cases h
  | succ k ih =>
    intro xs v ys h
    cases xs with
    | nil => cases h
    | cons b xs =>
      rw [readGroups] at h
      split at h
      · cases h
        exact List.suffix_cons b ys
      · obtain ⟨⟨w, zs⟩, hr, heq⟩ := Option.map_eq_some_iff.1 h
        cases heq
        exact (ih hr).trans (List.suffix_cons b xs)

theorem prefixInteger_suffix {v : Nat} {ys : ByteString}
    (h : prefixInteger n xs = some (v, ys)) : ys <:+ xs := by
  cases xs with
  | nil => cases h
  | cons b xs =>
    rw [prefixInteger] at h
    split at h
    · cases h
      exact List.suffix_cons b ys
    · obtain ⟨⟨w, zs⟩, hr, heq⟩ := Option.map_eq_some_iff.1 h
      cases heq
      exact (readGroups_suffix hr).trans (List.suffix_cons b xs)

/-! ## Decoding integers -/

/-- The shifts from `s` on. -/
def shiftsFrom (s k : Nat) : List Nat := (List.range k).map fun i => s + 7 * i

theorem shiftsFrom_succ (s k : Nat) : shiftsFrom s (k + 1) = s :: shiftsFrom (s + 7) k := by
  rw [shiftsFrom, List.range_succ_eq_map, List.map_cons, List.map_map]
  congr 1
  refine List.map_congr_left fun i _ => ?_
  show s + 7 * (i + 1) = s + 7 + 7 * i
  omega

theorem continuationShifts_eq : continuationShifts = shiftsFrom 0 9 := rfl

/-- A group of seven bits, and the flag for another one. -/
theorem byte_group (b : UInt8) : (b &&& 0x7F).toNat = b.toNat % 128 ∧ (b &&& 0x80 ≠ 0 ↔ ¬ b.toNat < 128) := by
  have hb := b.toNat_lt
  constructor
  · rw [UInt8.toNat_and]
    exact Nat.and_two_pow_sub_one_eq_mod b.toNat 7
  · have hbit : (b &&& 0x80).toNat = (b.toNat.testBit 7).toNat * 2 ^ 7 := by
      rw [UInt8.toNat_and]
      exact Nat.and_two_pow b.toNat 7
    have hhigh : b.toNat.testBit 7 = true ↔ ¬ b.toNat < 128 := by
      rw [Nat.testBit_eq_decide_div_mod_eq, decide_eq_true_iff]
      omega
    rw [← hhigh, Ne, ← UInt8.toNat_inj, hbit]
    cases b.toNat.testBit 7 with
    | false => simp
    | true => simp

/-- A decoder that gives what was read, or fails. -/
def Reads (bs : ByteString) (r : Option (Nat × ByteString)) (res : Res (UInt64 × Int)) : Prop :=
  match r with
  | some (v, post) => res = .right (UInt64.ofNat v, bsLen bs - post.length)
  | none => ∃ e, res = .left e

/-- **The groups of seven bits, from the shift `s` on.** -/
theorem decodeContinuation_eq (k : Nat) : ∀ {s : Nat} {off : Int} {acc : UInt64} {rest : ByteString},
    s + 7 * k ≤ 63 → Cursor bs off rest →
    Reads bs ((readGroups k rest).map fun r => (acc.toNat + r.1 * 2 ^ s, r.2))
      (decodeContinuation bs (shiftsFrom s k) off acc) := by
  induction k with
  | zero =>
    intro s off acc rest hs h
    show ∃ e, (if off ≥ bsLen bs then _ else _) = _
    split
    · exact ⟨_, rfl⟩
    · exact ⟨_, rfl⟩
  | succ k ih =>
    intro s off acc rest hs h
    rw [shiftsFrom_succ, decodeContinuation]
    cases rest with
    | nil =>
      have hend := h.length_eq
      rw [if_pos (by rw [bsLen]; simp only [List.length_nil] at hend; omega)]
      exact ⟨_, rfl⟩
    | cons b rest =>
      obtain ⟨hlow, hflag⟩ := byte_group b
      have hlen := h.next.length_eq
      rw [if_neg (not_ge_bsLen h), withIndex_cursor h, add_one_cursor h, readGroups]
      simp only [group_shift (by omega : s < 64), hlow]
      by_cases hb : b.toNat < 128
      · rw [if_pos hb, if_neg (fun hne => hflag.1 hne hb), Nat.mod_eq_of_lt hb]
        show Res.right _ = Res.right (UInt64.ofNat (acc.toNat + b.toNat * 2 ^ s), _)
        rw [UInt64.ofNat_add, UInt64.ofNat_toNat, bsLen]
        congr 2
        simp only
        omega
      · rw [if_neg hb, if_pos (hflag.2 hb)]
        have hr := @ih (s + 7) (off + 1) (acc + UInt64.ofNat (b.toNat % 128 * 2 ^ s)) rest (by omega) h.next
        cases hg : readGroups k rest with
        | none =>
          rw [hg] at hr
          exact hr
        | some r =>
          rw [hg] at hr
          obtain ⟨v, post⟩ := r
          refine hr.trans ?_
          -- the low group and the groups above it are the value
          have hsum : b.toNat % 128 * 2 ^ s + v * 2 ^ (s + 7) = (b.toNat % 128 + 128 * v) * 2 ^ s := by
            rw [Nat.pow_add, Nat.add_mul, Nat.mul_comm (2 ^ s), ← Nat.mul_assoc, Nat.mul_comm v]
          simp only
          rw [UInt64.ofNat_add, UInt64.ofNat_toNat, UInt64.add_assoc, ← UInt64.ofNat_add, hsum,
            UInt64.ofNat_add, UInt64.ofNat_toNat]

theorem and_byteMask_toNat (hn : n < 8) (b : UInt8) : (b &&& byteMask n).toNat = b.toNat % 2 ^ n := by
  rw [UInt8.toNat_and, byteMask_toNat n hn, Nat.and_two_pow_sub_one_eq_mod]

/-- **The decoder reads the integer that stands at the cursor.** -/
theorem decodeInteger_eq (hn : n < 8) (h : Cursor bs off rest) :
    Reads bs (prefixInteger n rest) (decodeInteger bs off n) := by
  cases rest with
  | nil =>
    have hend := h.length_eq
    rw [decodeInteger, if_pos (by rw [bsLen]; simp only [List.length_nil] at hend; omega)]
    exact ⟨_, rfl⟩
  | cons b rest =>
    have hlen := h.next.length_eq
    have hpos := Nat.two_pow_pos n
    have hlow := and_byteMask_toNat hn b
    have hbyte := byteMask_toNat n hn
    have hlt : b &&& byteMask n < byteMask n ↔ b.toNat % 2 ^ n < 2 ^ n - 1 := by
      rw [UInt8.lt_iff_toNat_lt, hlow, hbyte]
    have hword : (b &&& byteMask n).toUInt64 = UInt64.ofNat (b.toNat % 2 ^ n) := by
      rw [← hlow]
      exact (UInt64.ofNat_uInt8ToNat _).symm
    rw [decodeInteger, if_neg (not_ge_bsLen h), withIndex_cursor h, add_one_cursor h, continuationShifts_eq,
      prefixInteger]
    change Reads bs _ (if b &&& byteMask n < byteMask n then _ else _)
    by_cases hp : b.toNat % 2 ^ n < 2 ^ n - 1
    · rw [if_pos hp, if_pos (hlt.2 hp)]
      show Res.right ((b &&& byteMask n).toUInt64, _) = Res.right (UInt64.ofNat (b.toNat % 2 ^ n), _)
      rw [hword, bsLen]
      congr 2
      omega
    · rw [if_neg hp, if_neg (fun hm => hp (hlt.1 hm))]
      have hmod : b.toNat % 2 ^ n = 2 ^ n - 1 := by
        have := Nat.mod_lt b.toNat hpos
        omega
      have hacc : (b &&& byteMask n).toUInt64.toNat = 2 ^ n - 1 := by
        rw [UInt8.toNat_toUInt64, hlow, hmod]
      have hr := @decodeContinuation_eq bs 9 0 (off + 1) (b &&& byteMask n).toUInt64 rest (by decide) h.next
      rw [hacc] at hr
      simp only [Nat.pow_zero, Nat.mul_one] at hr
      exact hr

/-! ## Encoding integers -/

/-- The byte of a group that is not the last. -/
theorem byte_more (v : UInt64) : ((v &&& 0x7F).toUInt8 ||| 0x80).toNat = v.toNat % 128 + 128 := by
  have hhigh : ∀ x < 128, (UInt8.ofNat x ||| 0x80).toNat = x + 128 := by
    intro x hx
    rw [UInt8.toNat_or, UInt8.toNat_ofNat', Nat.mod_eq_of_lt (by omega), Nat.or_comm]
    exact (Nat.two_pow_add_eq_or_of_lt (i := 7) hx 1).symm.trans (Nat.add_comm 128 x)
  have hv : (v &&& 0x7F).toUInt8 = UInt8.ofNat (v.toNat % 128) := by
    apply UInt8.toNat_inj.1
    rw [UInt64.toNat_toUInt8, UInt64.toNat_and, UInt8.toNat_ofNat']
    congr 1
    exact Nat.and_two_pow_sub_one_eq_mod v.toNat 7
  rw [hv, hhigh _ (Nat.mod_lt _ (by decide))]

theorem readGroups_encode (k : Nat) : ∀ {v : UInt64}, v.toNat < 2 ^ (7 * (k + 1)) →
    readGroups (k + 1) (encodeContinuation v ++ rest) = some (v.toNat, rest) := by
  have hlast : ∀ {k : Nat} {v : UInt64}, v < 128 →
      readGroups (k + 1) (encodeContinuation v ++ rest) = some (v.toNat, rest) := by
    intro k v hlt
    have hlt' : v.toNat < 128 := UInt64.lt_iff_toNat_lt.1 hlt
    have hv8 : v.toUInt8.toNat = v.toNat := by
      rw [UInt64.toNat_toUInt8]
      omega
    rw [encodeContinuation, if_pos hlt, List.singleton_append, readGroups, if_pos (by omega), hv8]
  induction k with
  | zero => exact fun {v} hv => hlast (UInt64.lt_iff_toNat_lt.2 hv)
  | succ k ih =>
    intro v hv
    by_cases hlt : v < 128
    · exact hlast hlt
    · have hshift : (v >>> 7).toNat = v.toNat / 128 := by
        rw [UInt64.toNat_shiftRight, Nat.shiftRight_eq_div_pow]
        rfl
      have hsmall : (v >>> 7).toNat < 2 ^ (7 * (k + 1)) := by
        rw [hshift, Nat.div_lt_iff_lt_mul (by decide)]
        rw [show 7 * (k + 1 + 1) = 7 * (k + 1) + 7 by omega, Nat.pow_add] at hv
        exact hv
      rw [encodeContinuation, if_neg hlt, List.cons_append, readGroups, byte_more, if_neg (by omega), ih hsmall,
        Option.map_some, hshift, Nat.add_mod_right, Nat.mod_mod, Nat.mod_add_div]

/-- The first byte of an integer: its low bits are the prefix. -/
theorem encodeInteger_head (hn : n < 8) (pre : UInt8) (v : UInt64) :
    ∃ x t, x.toNat < 2 ^ n ∧ encodeInteger n pre v = (pre ||| x) :: t := by
  have hpos := Nat.two_pow_pos n
  have hmask := prefixMask_toNat n hn
  have h256 : 2 ^ n < 256 := Nat.pow_lt_pow_right (by decide) hn
  rw [encodeInteger]
  split
  · rename_i hlt
    have hlt' := UInt64.lt_iff_toNat_lt.1 hlt
    refine ⟨v.toUInt8, [], ?_, rfl⟩
    rw [UInt64.toNat_toUInt8]
    omega
  · refine ⟨(prefixMask n).toUInt8, _, ?_, rfl⟩
    rw [UInt64.toNat_toUInt8]
    omega

/-- **An integer behind the bits `pre` is read back.** -/
theorem prefixInteger_encode (hn : n < 8) {pre : UInt8} (hpre : pre &&& byteMask n = 0)
    {v : UInt64} (hv : v.toNat < 2 ^ 63) :
    prefixInteger n (encodeInteger n pre v ++ rest) = some (v.toNat, rest) := by
  have hpos := Nat.two_pow_pos n
  have h256 : 2 ^ n < 256 := Nat.pow_lt_pow_right (by decide) hn
  have hmask := prefixMask_toNat n hn
  -- the bits of `pre` are above the prefix
  have hmod : ∀ x : UInt8, x.toNat < 2 ^ n → (pre ||| x).toNat % 2 ^ n = x.toNat := by
    intro x hx
    rw [← and_byteMask_toNat hn, or_and_byteMask hn hpre hx]
  rw [encodeInteger]
  split
  · rename_i hlt
    have hlt' := UInt64.lt_iff_toNat_lt.1 hlt
    have hv8 : v.toUInt8.toNat = v.toNat := by
      rw [UInt64.toNat_toUInt8]
      omega
    rw [List.singleton_append, prefixInteger, hmod v.toUInt8 (by omega), if_pos (by omega), hv8]
  · rename_i hge
    have hge' := UInt64.le_iff_toNat_le.1 (UInt64.not_lt.1 hge)
    have hm8 : (prefixMask n).toUInt8.toNat = 2 ^ n - 1 := by
      rw [UInt64.toNat_toUInt8]
      omega
    have hsub : (v - prefixMask n).toNat = v.toNat - (prefixMask n).toNat :=
      UInt64.toNat_sub_of_le _ _ (UInt64.not_lt.1 hge)
    rw [List.cons_append, prefixInteger, hmod _ (by omega), if_neg (by omega),
      readGroups_encode 8 (by rw [hsub]; omega), Option.map_some, hsub]
    congr 2
    omega

/-- An integer is decoded to itself. -/
theorem decodeInteger_encode (hn : n < 8) {pre : UInt8} (hpre : pre &&& byteMask n = 0)
    {v : UInt64} (hv : v.toNat < 2 ^ 63) (h : Cursor bs off (encodeInteger n pre v ++ rest)) :
    decodeInteger bs off n = .right (v, off + (encodeInteger n pre v).length) := by
  have hr := decodeInteger_eq hn h
  rw [prefixInteger_encode hn hpre hv] at hr
  have hlen := h.length_eq
  rw [List.length_append] at hlen
  refine hr.trans ?_
  rw [UInt64.ofNat_toNat, bsLen]
  congr 2
  omega

/-! ## Strings -/

theorem takeDrop_cursor {s : ByteString} (h : Cursor bs off (s ++ rest)) :
    takeDrop bs off s.length = s := by
  rw [takeDrop, h.drop, Int.toNat_natCast, List.take_left]

/-- A string whose length has the flag `pre`. -/
theorem decodeString_raw {pre : UInt8} (hpre : pre &&& byteMask 7 = 0) {s : ByteString}
    (h : Cursor bs off (encodeInteger 7 pre (UInt64.ofNat s.length) ++ (s ++ rest))) :
    decodeString bs off =
      if pre &&& 0x80 ≠ 0 then
        match huffmanDecode s with
        | .error e => .left e
        | .ok decoded => .right (decoded,
            off + (encodeInteger 7 pre (UInt64.ofNat s.length)).length + s.length)
      else .right (s, off + (encodeInteger 7 pre (UInt64.ofNat s.length)).length + s.length) := by
  have hlen := h.length_eq
  have hnn := h.nonneg
  have hsmall := h.small
  simp only [List.length_append] at hlen
  have hs : s.length < 2 ^ 63 := by omega
  have hv : (UInt64.ofNat s.length).toNat < 2 ^ 63 := by
    rw [UInt64.toNat_ofNat']
    omega
  obtain ⟨x, t, hx, hhead⟩ := encodeInteger_head (n := 7) (by decide) pre (UInt64.ofNat s.length)
  have h' := h
  rw [hhead] at h'
  have hskip := h.skip
  have hstop : addInt (off + (encodeInteger 7 pre (UInt64.ofNat s.length)).length) s.length =
      off + (encodeInteger 7 pre (UInt64.ofNat s.length)).length + s.length := by
    apply hskip.add (by omega)
    rw [List.length_append]
    omega
  have hflag : (pre ||| x) &&& 0x80 = pre &&& 0x80 := by
    have hx80 : x &&& 0x80 = 0 := Decidable.not_not.1 fun hne => (byte_group x).2.1 hne hx
    have hdist : (pre ||| x) &&& 0x80 = (pre &&& 0x80) ||| (x &&& 0x80) := by
      apply UInt8.toNat_inj.1
      simp only [UInt8.toNat_and, UInt8.toNat_or, Nat.and_or_distrib_right]
    rw [hdist, hx80, UInt8.or_zero]
  rw [decodeString, if_neg (not_ge_bsLen h'), decodeInteger_encode (by decide) hpre hv h, Res.bind_right]
  simp only [ofWord_ofNat hs, hstop]
  rw [if_neg (by rw [bsLen]; omega), withIndex_cursor h', takeDrop_cursor hskip]
  exact if_congr (by rw [hflag]) rfl rfl

/-- **A string literal decodes to its string.** -/
theorem decodeString_encode {huff : Bool} {s : ByteString}
    (h : Cursor bs off (encodeStringLiteral huff s ++ rest)) :
    decodeString bs off = .right (s, off + (encodeStringLiteral huff s).length) := by
  cases huff with
  | false =>
    rw [encodeStringLiteral, List.append_assoc] at h
    rw [decodeString_raw (by decide) h, if_neg (by decide), encodeStringLiteral, List.length_append]
    congr 2
    omega
  | true =>
    rw [encodeStringLiteral, List.append_assoc] at h
    rw [decodeString_raw (by decide) h, if_pos (by decide), huffmanDecode_huffmanEncode, encodeStringLiteral,
      List.length_append]
    simp only
    congr 2
    omega

end Wireform.Http2.Hpack

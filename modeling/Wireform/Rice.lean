/-
  Golomb-Rice codes, bit by bit.

  * `bytesToBits`: bytes as bits, the highest of each byte first;
  * `BitAcc`, `pushBit`, `finishBits`: a writer that fills one byte after the other;
  * `bitAt_of_drop`: a reader that asks for one bit after the other;
  * `code`: a quotient in unary and a remainder in binary.
-/
import Mathlib.Tactic.IntervalCases
import Mathlib.Tactic.Ring
import Wireform.PrefixCode

namespace Wireform.Rice

open PrefixCode

/-! ## Bits of bytes -/

def bytesToBits (bs : List UInt8) : List Bool := bs.flatMap fun b => bitsOf 8 b.toNat

@[simp] theorem bytesToBits_nil : bytesToBits [] = [] := rfl

@[simp] theorem bytesToBits_cons (b : UInt8) (bs : List UInt8) :
    bytesToBits (b :: bs) = bitsOf 8 b.toNat ++ bytesToBits bs := by simp [bytesToBits]

@[simp] theorem bytesToBits_append (bs bs' : List UInt8) :
    bytesToBits (bs ++ bs') = bytesToBits bs ++ bytesToBits bs' := by simp [bytesToBits]

@[simp] theorem length_bytesToBits (bs : List UInt8) : (bytesToBits bs).length = 8 * bs.length := by
  induction bs with
  | nil => rfl
  | cons b bs ih =>
    rw [bytesToBits_cons, List.length_append, length_bitsOf, ih, List.length_cons]
    omega

theorem bitsOf_eq_map (w n : Nat) : bitsOf w n = (List.range w).reverse.map n.testBit := by
  induction w with
  | zero => rfl
  | succ w ih => rw [bitsOf, ih, List.range_succ, List.reverse_append, List.reverse_singleton, List.singleton_append, List.map_cons]

theorem getElem?_bitsOf {w i : Nat} (h : i < w) (n : Nat) : (bitsOf w n)[i]? = some (n.testBit (w - 1 - i)) := by
  induction w generalizing i with
  | zero => omega
  | succ w ih =>
    rw [bitsOf]
    cases i with
    | zero => rfl
    | succ i =>
      rw [List.getElem?_cons_succ, ih (by omega)]
      congr 2
      omega

/-- A bit of a list of bytes. -/
def bitAt (bs : List UInt8) (pos : Nat) : Bool := (bs.getD (pos / 8) 0).toNat.testBit (7 - pos % 8)

theorem getElem?_bytesToBits {bs : List UInt8} {pos : Nat} (h : pos < 8 * bs.length) :
    (bytesToBits bs)[pos]? = some (bitAt bs pos) := by
  induction bs generalizing pos with
  | nil => simp at h
  | cons b bs ih =>
    rw [bytesToBits_cons]
    rw [List.length_cons] at h
    by_cases hpos : pos < 8
    · rw [List.getElem?_append_left (by simpa using hpos), getElem?_bitsOf hpos, bitAt, Nat.div_eq_of_lt hpos,
        Nat.mod_eq_of_lt hpos]
      rfl
    · obtain ⟨p, rfl⟩ : ∃ p, pos = p + 8 := ⟨pos - 8, by omega⟩
      rw [List.getElem?_append_right (by simp), length_bitsOf, Nat.add_sub_cancel, ih (by omega), bitAt, bitAt,
        Nat.add_div_right p (by decide), Nat.add_mod_right, List.getD_cons_succ]

theorem drop_bytesToBits {bs : List UInt8} {pos : Nat} (h : pos < 8 * bs.length) :
    (bytesToBits bs).drop pos = bitAt bs pos :: (bytesToBits bs).drop (pos + 1) := by
  have hlt : pos < (bytesToBits bs).length := by simpa using h
  have hbit := getElem?_bytesToBits h
  rw [List.getElem?_eq_getElem hlt, Option.some_inj] at hbit
  rw [List.drop_eq_getElem_cons hlt, hbit]

theorem bitAt_of_drop {bs : List UInt8} {pos : Nat} {b : Bool} {rest : List Bool}
    (h : (bytesToBits bs).drop pos = b :: rest) :
    pos < 8 * bs.length ∧ bitAt bs pos = b ∧ (bytesToBits bs).drop (pos + 1) = rest := by
  have hlt : pos < 8 * bs.length := by
    by_contra hge
    rw [List.drop_eq_nil_of_le (by simpa using hge)] at h
    cases h
  rw [drop_bytesToBits hlt] at h
  exact ⟨hlt, (List.cons.inj h).1, (List.cons.inj h).2⟩

/-! ## The writer -/

/-- The full bytes, the byte being filled, and the number of its bits that count. -/
structure BitAcc where
  bytes : List UInt8
  cur : UInt8
  fill : Nat

def emptyBits : BitAcc := ⟨[], 0, 0⟩

def pushBit (acc : BitAcc) (one : Bool) : BitAcc :=
  let cur' := if one then acc.cur ||| 0x80 >>> UInt8.ofNat acc.fill else acc.cur
  if acc.fill = 7 then ⟨acc.bytes ++ [cur'], 0, 0⟩ else ⟨acc.bytes, cur', acc.fill + 1⟩

def finishBits (acc : BitAcc) : List UInt8 := if acc.fill = 0 then acc.bytes else acc.bytes ++ [acc.cur]

/-- The accumulator holds these bits: those of the full bytes, and those of a number `m`
    at the top of the last one. -/
def Holds (acc : BitAcc) (bits : List Bool) : Prop :=
  acc.fill < 8 ∧ ∃ m < 2 ^ acc.fill, acc.cur.toNat = m * 2 ^ (8 - acc.fill) ∧
    bits = bytesToBits acc.bytes ++ bitsOf acc.fill m

theorem holds_empty : Holds emptyBits [] := ⟨by decide, 0, by decide, rfl, rfl⟩

theorem mask_toNat {n : Nat} (hn : n < 8) : ((0x80 : UInt8) >>> UInt8.ofNat n).toNat = 2 ^ (7 - n) := by
  interval_cases n <;> rfl

theorem bitsOf_snoc (w m : Nat) (b : Bool) : bitsOf (w + 1) (2 * m + b.toNat) = bitsOf w m ++ [b] := by
  have h := bitsOf_append (k := 1) (n := b.toNat) w m (by cases b <;> decide)
  have hb : bitsOf 1 b.toNat = [b] := by cases b <;> rfl
  rw [← hb, h, pow_one, Nat.mul_comm]

theorem Holds.pushBit {acc : BitAcc} {bits : List Bool} (h : Holds acc bits) (one : Bool) :
    Holds (pushBit acc one) (bits ++ [one]) := by
  obtain ⟨hfill, m, hm, hcur, rfl⟩ := h
  have hpow : 2 ^ (8 - acc.fill) = 2 * 2 ^ (7 - acc.fill) := by
    rw [← pow_succ']
    congr 1
    omega
  have hcur' : (if one then acc.cur ||| 0x80 >>> UInt8.ofNat acc.fill else acc.cur).toNat =
      (2 * m + one.toNat) * 2 ^ (7 - acc.fill) := by
    cases one with
    | false =>
      rw [if_neg Bool.false_ne_true, hcur, hpow, Bool.toNat_false]
      ring
    | true =>
      have hlow : 2 ^ (7 - acc.fill) < 2 ^ (8 - acc.fill) := Nat.pow_lt_pow_right (by decide) (by omega)
      rw [if_pos rfl, UInt8.toNat_or, mask_toNat hfill, hcur, ← Nat.shiftLeft_eq, ← Nat.shiftLeft_add_eq_or_of_lt hlow,
        Nat.shiftLeft_eq, hpow, Bool.toNat_true]
      ring
  have hm' : 2 * m + one.toNat < 2 ^ (acc.fill + 1) := by
    have hone := Bool.toNat_lt one
    rw [pow_succ]
    omega
  have hbits := bitsOf_snoc acc.fill m one
  rw [Rice.pushBit]
  generalize (if one then acc.cur ||| 0x80 >>> UInt8.ofNat acc.fill else acc.cur) = cur' at hcur' ⊢
  by_cases hfull : acc.fill = 7
  · rw [if_pos hfull]
    rw [hfull] at hbits hcur' ⊢
    refine ⟨show 0 < 8 by decide, 0, show 0 < 2 ^ 0 by decide, rfl, ?_⟩
    rw [Nat.sub_self, pow_zero, Nat.mul_one] at hcur'
    rw [bytesToBits_append, bytesToBits_cons, hcur', bytesToBits_nil, List.append_nil, hbits, List.append_assoc]
    exact (List.append_nil _).symm
  · rw [if_neg hfull]
    refine ⟨show acc.fill + 1 < 8 by omega, _, hm', ?_, ?_⟩
    · show cur'.toNat = _ * 2 ^ (8 - (acc.fill + 1))
      rw [hcur']
      congr 2
      omega
    · show _ = bytesToBits acc.bytes ++ bitsOf (acc.fill + 1) _
      rw [hbits, List.append_assoc]

theorem bitsOf_zero (w : Nat) : bitsOf w 0 = List.replicate w false := by
  induction w with
  | zero => rfl
  | succ w ih => rw [bitsOf, ih, Nat.zero_testBit, List.replicate_succ]

/-- The bytes are the bits held, filled with fewer than eight zeros. -/
theorem Holds.finishBits {acc : BitAcc} {bits : List Bool} (h : Holds acc bits) :
    ∃ k, bytesToBits (finishBits acc) = bits ++ List.replicate k false ∧ (bits = [] → k = 0) := by
  obtain ⟨hfill, m, hm, hcur, rfl⟩ := h
  unfold Rice.finishBits
  split_ifs with h0
  · refine ⟨0, ?_, fun _ => rfl⟩
    rw [h0]
    simp [bitsOf]
  · refine ⟨8 - acc.fill, ?_, fun hnil => absurd hnil ?_⟩
    · have h := bitsOf_append (k := 8 - acc.fill) (n := 0) acc.fill m (Nat.two_pow_pos _)
      rw [Nat.add_zero, show acc.fill + (8 - acc.fill) = 8 by omega, bitsOf_zero] at h
      rw [bytesToBits_append, bytesToBits_cons, bytesToBits_nil, List.append_nil, hcur, ← h, List.append_assoc]
    · intro hnil
      have := congrArg List.length hnil
      simp at this
      omega

/-- Several bits, one after the other. -/
theorem Holds.foldl {α : Type} {f : α → Bool} (xs : List α) {acc : BitAcc} {bits : List Bool} (h : Holds acc bits) :
    Holds (xs.foldl (fun acc x => Rice.pushBit acc (f x)) acc) (bits ++ xs.map f) := by
  induction xs generalizing acc bits with
  | nil => simpa using h
  | cons x xs ih =>
    have hx := ih (h.pushBit (f x))
    rwa [List.append_assoc, List.singleton_append] at hx

/-! ## The code of a number -/

/-- The quotient by `2 ^ fp` in unary, and the remainder in binary. -/
def code (fp d : Nat) : List Bool := List.replicate (d / 2 ^ fp) true ++ false :: bitsOf fp d

end Wireform.Rice

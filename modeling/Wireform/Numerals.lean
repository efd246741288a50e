/-
  Numbers as bytes.

  * `leValue`, `leBytes`: little end first, in a given number of bytes;
  * `field`: some bits of a number; the fields of a numeral to a power of two are its
    digits;
  * `leb128`: in groups of seven bits, with a mark on all but the last.
-/
import Mathlib.Data.Nat.Digits.Lemmas
import Mathlib.Tactic.Ring

namespace Wireform

/-! ## Little end first -/

def leValue (bytes : List UInt8) : Nat := Nat.ofDigits 256 (bytes.map UInt8.toNat)

def leBytes : Nat → Nat → List UInt8
  | 0, _ => []
  | k + 1, n => UInt8.ofNat n :: leBytes k (n / 256)

attribute [grind =] leBytes

@[simp] theorem leValue_nil : leValue [] = 0 := rfl

@[simp] theorem leValue_cons (b : UInt8) (bs : List UInt8) : leValue (b :: bs) = b.toNat + 256 * leValue bs := by
  simp [leValue, Nat.ofDigits_cons]

theorem leValue_append (as bs : List UInt8) : leValue (as ++ bs) = leValue as + 256 ^ as.length * leValue bs := by
  simp [leValue, Nat.ofDigits_append]

@[simp] theorem leValue_replicate_zero (k : Nat) : leValue (List.replicate k 0) = 0 := by
  simp [leValue, Nat.ofDigits_replicate_zero]

theorem bytes_lt (bs : List UInt8) : ∀ d ∈ bs.map UInt8.toNat, d < 256 := by
  intro d hd
  obtain ⟨b, -, rfl⟩ := List.mem_map.1 hd
  exact b.toNat_lt

theorem leValue_lt (bs : List UInt8) : leValue bs < 256 ^ bs.length := by
  have h := Nat.ofDigits_lt_base_pow_length (by decide : 1 < 256) (bytes_lt bs)
  rwa [List.length_map] at h

theorem leValue_drop (i : Nat) (bs : List UInt8) : leValue (bs.drop i) = leValue bs / 256 ^ i := by
  unfold leValue
  rw [Nat.ofDigits_div_pow_eq_ofDigits_drop i (by decide) _ (bytes_lt bs), List.map_drop]

theorem leValue_take (i : Nat) (bs : List UInt8) : leValue (bs.take i) = leValue bs % 256 ^ i := by
  unfold leValue
  rw [Nat.ofDigits_mod_pow_eq_ofDigits_take i (by decide) _ (bytes_lt bs), List.map_take]

@[simp] theorem length_leBytes (k n : Nat) : (leBytes k n).length = k := by
  induction k generalizing n with
  | zero => rfl
  | succ k ih => rw [leBytes, List.length_cons, ih]

theorem leValue_leBytes (k n : Nat) : leValue (leBytes k n) = n % 256 ^ k := by
  induction k generalizing n with
  | zero => rw [leBytes, leValue_nil, pow_zero, Nat.mod_one]
  | succ k ih =>
    have hb : (UInt8.ofNat n).toNat = n % 256 := UInt8.toNat_ofNat'
    rw [leBytes, leValue_cons, ih, hb, pow_succ', Nat.mod_mul]

theorem leBytes_leValue (bs : List UInt8) : leBytes bs.length (leValue bs) = bs := by
  induction bs with
  | nil => rfl
  | cons b bs ih =>
    have hb := b.toNat_lt
    have hq : (b.toNat + 256 * leValue bs) / 256 = leValue bs := by omega
    have hm : UInt8.ofNat (b.toNat + 256 * leValue bs) = b := by
      apply UInt8.toNat_inj.1
      rw [UInt8.toNat_ofNat']
      omega
    rw [List.length_cons, leValue_cons, leBytes, hq, hm, ih]

/-- Bytes are known by their number and their value. -/
theorem eq_leBytes {bs : List UInt8} {k n : Nat} (hl : bs.length = k) (hv : leValue bs = n) : bs = leBytes k n := by
  rw [← hl, ← hv, leBytes_leValue]

/-! ## Fields of bits -/

/-- The `w` bits of `n` from bit `i` on. -/
def field (w i n : Nat) : Nat := n / 2 ^ i % 2 ^ w

/-- The fields of a numeral are its digits. -/
theorem field_ofDigits {w : Nat} {ds : List Nat} (hds : ∀ d ∈ ds, d < 2 ^ w) {i d : Nat} (hi : ds[i]? = some d) :
    field w (i * w) (Nat.ofDigits (2 ^ w) ds) = d := by
  unfold field
  obtain ⟨hlt, rfl⟩ := List.getElem?_eq_some_iff.1 hi
  rw [show 2 ^ (i * w) = (2 ^ w) ^ i by rw [← pow_mul, Nat.mul_comm],
    Nat.ofDigits_div_pow_eq_ofDigits_drop i (Nat.two_pow_pos w) ds hds, List.drop_eq_getElem_cons hlt,
    Nat.ofDigits_cons, Nat.add_mul_mod_self_left, Nat.mod_eq_of_lt (hds _ (List.getElem_mem hlt))]

/-- What stands above a field does not count. -/
theorem field_mod {w i m : Nat} (h : i + w ≤ m) (n : Nat) : field w i (n % 2 ^ m) = field w i n := by
  unfold field
  have hm : 2 ^ m = 2 ^ i * 2 ^ (m - i) := by rw [← pow_add]; congr 1; omega
  rw [hm, Nat.mod_mul_right_div_self, Nat.mod_mod_of_dvd _ (pow_dvd_pow 2 (by omega))]

theorem field_div (w i j n : Nat) : field w i (n / 2 ^ j) = field w (j + i) n := by
  unfold field
  rw [Nat.div_div_eq_div_mul, pow_add]

theorem field_lt (w i n : Nat) : field w i n < 2 ^ w := Nat.mod_lt _ (Nat.two_pow_pos w)

/-! ## Words -/

theorem toNat_or_shift {acc w : UInt64} {shift : Nat} (hs : shift < 64) (hacc : acc.toNat < 2 ^ shift)
    (hw : w.toNat * 2 ^ shift < 2 ^ 64) : (acc ||| w <<< UInt64.ofNat shift).toNat = acc.toNat + w.toNat * 2 ^ shift := by
  have hshift : (UInt64.ofNat shift).toNat % 64 = shift := by
    rw [UInt64.toNat_ofNat']
    omega
  rw [UInt64.toNat_or, UInt64.toNat_shiftLeft, hshift, Nat.shiftLeft_eq, Nat.mod_eq_of_lt hw, Nat.or_comm,
    Nat.mul_comm, ← Nat.two_pow_add_eq_or_of_lt hacc, Nat.add_comm]

theorem toNat_or_shift32 {a w : UInt32} {k : Nat} (hk : k < 32) (ha : a.toNat < 2 ^ k) (hw : w.toNat * 2 ^ k < 2 ^ 32) :
    (a ||| w <<< UInt32.ofNat k).toNat = a.toNat + w.toNat * 2 ^ k := by
  have hshift : (UInt32.ofNat k).toNat % 32 = k := by
    rw [UInt32.toNat_ofNat']
    omega
  rw [UInt32.toNat_or, UInt32.toNat_shiftLeft, hshift, Nat.shiftLeft_eq, Nat.mod_eq_of_lt hw, Nat.or_comm,
    Nat.mul_comm, ← Nat.two_pow_add_eq_or_of_lt ha, Nat.add_comm]

/-! ## Groups of seven bits -/

def leb128 (n : Nat) : List UInt8 :=
  if n < 128 then [UInt8.ofNat n] else UInt8.ofNat (n % 128 + 128) :: leb128 (n / 128)
termination_by n

attribute [grind =] leb128

theorem leb128_small {n : Nat} (h : n < 128) : leb128 n = [UInt8.ofNat n] := by rw [leb128, if_pos h]

theorem leb128_large {n : Nat} (h : 128 ≤ n) : leb128 n = UInt8.ofNat (n % 128 + 128) :: leb128 (n / 128) := by
  rw [leb128, if_neg (Nat.not_lt.2 h)]

theorem length_leb128_pos (n : Nat) : 0 < (leb128 n).length := by
  unfold leb128
  split <;> exact Nat.succ_pos _

theorem length_leb128_le {k n : Nat} (h : n < 128 ^ (k + 1)) : (leb128 n).length ≤ k + 1 := by
  induction k generalizing n with
  | zero => rw [leb128_small (by omega)]; exact le_refl 1
  | succ k ih =>
    by_cases hs : n < 128
    · rw [leb128_small hs]; exact Nat.succ_le_succ (Nat.zero_le _)
    · rw [leb128_large (by omega), List.length_cons]
      exact Nat.succ_le_succ (ih (by rw [pow_succ] at h; omega))

theorem le_length_leb128 {k n : Nat} (h : 128 ^ k ≤ n) : k + 1 ≤ (leb128 n).length := by
  induction k generalizing n with
  | zero => exact length_leb128_pos n
  | succ k ih =>
    have hpos : 1 ≤ 128 ^ k := Nat.one_le_pow _ _ (by decide)
    rw [pow_succ] at h
    rw [leb128_large (by omega), List.length_cons]
    exact Nat.succ_le_succ (ih (by omega))

end Wireform

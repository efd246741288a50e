/-
  Signed numbers as bytes, big end first.

  * `beValue`, `signedValue`: without and with a sign;
  * `signedValue_bounds`, `signedValue_wide`: the numbers of a width, and those that need it;
  * `signedValue_redundant`: a leading byte that only repeats the sign;
  * `signedValue_snoc`, `lowByte`: a number from its low end.
-/
import Mathlib.Tactic.Linarith
import Wireform.Numerals

namespace Wireform

/-! ## Values -/

def beValue (bytes : List UInt8) : Nat := leValue bytes.reverse

@[simp] theorem beValue_nil : beValue [] = 0 := rfl

@[simp] theorem beValue_cons (b : UInt8) (bs : List UInt8) :
    beValue (b :: bs) = b.toNat * 256 ^ bs.length + beValue bs := by
  simp only [beValue, List.reverse_cons, leValue_append, List.length_reverse, leValue_cons, leValue_nil]
  ring

theorem beValue_snoc (bs : List UInt8) (b : UInt8) : beValue (bs ++ [b]) = 256 * beValue bs + b.toNat := by
  simp only [beValue, List.reverse_append, List.reverse_singleton, List.singleton_append, leValue_cons]
  ring

theorem beValue_lt (bs : List UInt8) : beValue bs < 256 ^ bs.length := by
  have h := leValue_lt bs.reverse
  rwa [List.length_reverse] at h

/-- The sign bit of a byte. -/
def highBit (b : UInt8) : Bool := b.toNat.testBit 7

theorem highBit_iff (b : UInt8) : highBit b = true ↔ 128 ≤ b.toNat := by
  have hb := b.toNat_lt
  rw [highBit, Nat.testBit_eq_decide_div_mod_eq, decide_eq_true_eq]
  omega

theorem highBit_false_iff (b : UInt8) : highBit b = false ↔ b.toNat < 128 := by
  rw [← Bool.not_eq_true, highBit_iff, not_le]

/-- A byte with its sign. -/
def signedByte (b : UInt8) : Int := if highBit b then (b.toNat : Int) - 256 else b.toNat

variable {b : UInt8} {bs : List UInt8}

theorem signedByte_of_neg (h : highBit b = true) : signedByte b = b.toNat - 256 := if_pos h

theorem signedByte_of_nonneg (h : highBit b = false) : signedByte b = b.toNat := by
  rw [signedByte, h]
  rfl

theorem signedByte_bounds (b : UInt8) : -128 ≤ signedByte b ∧ signedByte b < 128 := by
  have hb := b.toNat_lt
  cases h : highBit b with
  | true =>
    rw [signedByte_of_neg h]
    have := (highBit_iff b).1 h
    omega
  | false =>
    rw [signedByte_of_nonneg h]
    have := (highBit_false_iff b).1 h
    omega

/-- The number that bytes stand for in two's complement. -/
def signedValue : List UInt8 → Int
  | [] => 0
  | b :: bs => signedByte b * 256 ^ bs.length + beValue bs

attribute [grind =] signedValue

theorem signedValue_singleton (b : UInt8) : signedValue [b] = signedByte b := by simp [signedValue]

theorem signedValue_snoc (h : bs ≠ []) (b : UInt8) :
    signedValue (bs ++ [b]) = 256 * signedValue bs + b.toNat := by
  cases bs with
  | nil => exact absurd rfl h
  | cons c cs =>
    simp only [List.cons_append, signedValue, List.length_append, List.length_singleton, beValue_snoc]
    push_cast
    ring

/-! ## Widths -/

theorem signedValue_bounds (b : UInt8) (bs : List UInt8) :
    -(128 * 256 ^ bs.length) ≤ signedValue (b :: bs) ∧ signedValue (b :: bs) < 128 * 256 ^ bs.length := by
  obtain ⟨hlow, hhigh⟩ := signedByte_bounds b
  have hv : (beValue bs : Int) < 256 ^ bs.length := by exact_mod_cast beValue_lt bs
  have h0 : (0 : Int) ≤ beValue bs := Int.natCast_nonneg _
  rw [signedValue]
  constructor
  · nlinarith
  · nlinarith

theorem signedValue_neg (h : highBit b = true) (bs : List UInt8) : signedValue (b :: bs) < 0 := by
  have hv : (beValue bs : Int) < 256 ^ bs.length := by exact_mod_cast beValue_lt bs
  have hb : (b.toNat : Int) < 256 := by exact_mod_cast b.toNat_lt
  rw [signedValue, signedByte_of_neg h]
  nlinarith

theorem signedValue_nonneg (h : highBit b = false) (bs : List UInt8) : 0 ≤ signedValue (b :: bs) := by
  rw [signedValue, signedByte_of_nonneg h]
  positivity

/-- The first byte repeats the sign of the second. -/
def Redundant : List UInt8 → Prop
  | b :: c :: _ => b = 0 ∧ highBit c = false ∨ b = 255 ∧ highBit c = true
  | _ => False

theorem signedValue_redundant (h : Redundant (b :: bs)) :
    signedValue (b :: bs) = signedValue bs := by
  cases bs with
  | nil => exact h.elim
  | cons c cs =>
    rcases h with ⟨rfl, hc⟩ | ⟨rfl, hc⟩
    · have h0 : signedByte 0 = 0 := by decide
      rw [signedValue, signedValue, h0, signedByte_of_nonneg hc, beValue_cons]
      push_cast
      ring
    · have h1 : signedByte 255 = -1 := by decide
      rw [signedValue, signedValue, h1, signedByte_of_neg hc, beValue_cons, List.length_cons]
      push_cast
      ring

/-- A number whose first byte says more than the sign does not fit in fewer bytes. -/
theorem signedValue_wide {b c : UInt8} (h : ¬Redundant (b :: c :: bs)) :
    (highBit b = true → signedValue (b :: c :: bs) < -(128 * 256 ^ bs.length)) ∧
    (highBit b = false → 128 * 256 ^ bs.length ≤ signedValue (b :: c :: bs)) := by
  have hv : (beValue bs : Int) < 256 ^ bs.length := by exact_mod_cast beValue_lt bs
  have h0 : (0 : Int) ≤ beValue bs := Int.natCast_nonneg _
  have hpos : (0 : Int) < 256 ^ bs.length := by positivity
  have hb := b.toNat_lt
  have hc := c.toNat_lt
  simp only [Redundant, not_or, not_and] at h
  simp only [signedValue, beValue_cons, List.length_cons, pow_succ]
  push_cast
  constructor
  · intro hneg
    rw [signedByte_of_neg hneg]
    by_cases h255 : b = 255
    · have hc' : highBit c = false := by simpa using h.2 h255
      rw [highBit_false_iff] at hc'
      have h255' : (b.toNat : Int) = 255 := by rw [h255]; rfl
      have hc'' : (c.toNat : Int) ≤ 127 := by omega
      rw [h255']
      nlinarith
    · have hb' : (b.toNat : Int) ≤ 254 := by
        have : b.toNat ≠ 255 := fun heq => h255 (UInt8.toNat_inj.1 heq)
        omega
      have hc' : (c.toNat : Int) ≤ 255 := by omega
      nlinarith
  · intro hnn
    rw [signedByte_of_nonneg hnn]
    by_cases hzero : b = 0
    · have hc' : highBit c = true := by simpa using h.1 hzero
      rw [highBit_iff] at hc'
      have hzero' : (b.toNat : Int) = 0 := by rw [hzero]; rfl
      have hc'' : (128 : Int) ≤ c.toNat := by omega
      rw [hzero']
      nlinarith
    · have hb' : (1 : Int) ≤ b.toNat := by
        have : b.toNat ≠ 0 := fun heq => hzero (UInt8.toNat_inj.1 heq)
        omega
      have hc' : (0 : Int) ≤ c.toNat := Int.natCast_nonneg _
      nlinarith

/-- The same with a longer and a shorter number. -/
theorem signedValue_longer {b d : UInt8} {bs ds : List UInt8} (h : ¬Redundant (b :: bs)) (hlen : ds.length < bs.length) :
    (highBit b = true → signedValue (b :: bs) < signedValue (d :: ds)) ∧
    (highBit b = false → signedValue (d :: ds) < signedValue (b :: bs)) := by
  cases bs with
  | nil => exact absurd hlen (Nat.not_lt_zero _)
  | cons c cs =>
    obtain ⟨hneg, hnn⟩ := signedValue_wide h
    obtain ⟨hlow, hhigh⟩ := signedValue_bounds d ds
    have hpow : (256 : Int) ^ ds.length ≤ 256 ^ cs.length :=
      pow_le_pow_right₀ (by decide) (Nat.le_of_lt_succ hlen)
    constructor
    · intro hb
      have := hneg hb
      linarith
    · intro hb
      have := hnn hb
      linarith

/-- With the sign bit set, the value is a power of the width less. -/
theorem signedValue_eq_beValue (b : UInt8) (bs : List UInt8) :
    signedValue (b :: bs) = beValue (b :: bs) - if highBit b then 256 ^ (bs.length + 1) else 0 := by
  rw [signedValue, beValue_cons]
  cases hb : highBit b with
  | true =>
    rw [signedByte_of_neg hb, if_pos rfl]
    push_cast
    ring
  | false =>
    rw [signedByte_of_nonneg hb, if_neg Bool.false_ne_true]
    push_cast
    ring

theorem signedValue_neg_iff (b : UInt8) (bs : List UInt8) : signedValue (b :: bs) < 0 ↔ highBit b = true := by
  cases hb : highBit b with
  | true => exact iff_of_true (signedValue_neg hb bs) rfl
  | false => exact iff_of_false (not_lt.2 (signedValue_nonneg hb bs)) Bool.false_ne_true

/-! ## The low end -/

def lowByte (n : Int) : UInt8 := UInt8.ofNat (n % 256).toNat

theorem lowByte_toNat (n : Int) : ((lowByte n).toNat : Int) = n % 256 := by
  rw [lowByte, UInt8.toNat_ofNat']
  omega

theorem highBit_lowByte (n : Int) : highBit (lowByte n) = true ↔ 128 ≤ n % 256 := by
  rw [highBit_iff, ← lowByte_toNat]
  omega

theorem signedByte_lowByte {n : Int} (h : -128 ≤ n ∧ n < 128) : signedByte (lowByte n) = n := by
  have hlow := lowByte_toNat n
  have hhigh := highBit_lowByte n
  cases hb : highBit (lowByte n) with
  | true =>
    rw [signedByte_of_neg hb]
    have := hhigh.1 hb
    omega
  | false =>
    rw [signedByte_of_nonneg hb]
    rw [hb] at hhigh
    have : ¬128 ≤ n % 256 := fun h => absurd (hhigh.2 h) Bool.false_ne_true
    omega

end Wireform

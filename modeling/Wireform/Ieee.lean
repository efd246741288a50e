/-
  Binary floating point.

  * `Ieee`: a format, by the number of bits of its exponent and of its fraction;
  * `Ieee.value`: the number some bits stand for; a bit pattern that is no number has none;
  * `Ieee.rank`: the total order of the bit patterns. It refines the order of the values, and
    only the two zeros have one value;
  * `Ieee.encode`: the bits of a number that has some.
-/
import Mathlib.Algebra.Order.Field.Power
import Mathlib.Algebra.Order.Ring.Rat
import Mathlib.Order.WithBot
import Mathlib.Tactic.Linarith
import Mathlib.Tactic.Ring

namespace Wireform

/-- The rationals and the two infinities. -/
abbrev Extended := WithBot (WithTop ℚ)

/-- A binary interchange format. -/
structure Ieee where
  exponentBits : Nat
  fractionBits : Nat

namespace Ieee

variable (f : Ieee)

def bias : Int := 2 ^ (f.exponentBits - 1) - 1

/-- The bits next to the sign. -/
def magnitude (bits : Nat) : Nat := bits % 2 ^ (f.exponentBits + f.fractionBits)

def negative (bits : Nat) : Bool := bits / 2 ^ (f.exponentBits + f.fractionBits) % 2 = 1

/-- The magnitude of an infinity; what lies above is no number. -/
def infinity : Nat := (2 ^ f.exponentBits - 1) * 2 ^ f.fractionBits

def significand (x : Nat) : Nat :=
  (if x / 2 ^ f.fractionBits = 0 then 0 else 2 ^ f.fractionBits) + x % 2 ^ f.fractionBits

def scale (x : Nat) : Int := (max (x / 2 ^ f.fractionBits) 1 : Nat) - f.bias - f.fractionBits

/-- What a finite magnitude stands for. -/
def finite (x : Nat) : ℚ := f.significand x * 2 ^ f.scale x

def signed (negative : Bool) (x : WithTop ℚ) : Extended :=
  match negative, x with
  | false, x => x
  | true, none => ⊥
  | true, some q => ((-q : ℚ) : WithTop ℚ)

def absolute (x : Nat) : WithTop ℚ := if x < f.infinity then f.finite x else ⊤

/-- The number that some bits stand for. -/
def value (bits : Nat) : Option Extended :=
  if f.infinity < f.magnitude bits then none
  else some (signed (f.negative bits) (f.absolute (f.magnitude bits)))

/-- The total order of the bit patterns. -/
def rank (bits : Nat) : Int :=
  if f.negative bits then -(f.magnitude bits : Int) - 1 else f.magnitude bits

def binary16 : Ieee := ⟨5, 10⟩

def binary32 : Ieee := ⟨8, 23⟩

def binary64 : Ieee := ⟨11, 52⟩

/-- The comparisons; what is no number is neither less nor equal. -/
def less (a b : Nat) : Bool :=
  match f.value a, f.value b with
  | some x, some y => x < y
  | _, _ => false

def same (a b : Nat) : Bool :=
  match f.value a, f.value b with
  | some x, some y => x = y
  | _, _ => false

variable {x y : WithTop ℚ} {a b : Nat}

theorem less_iff : f.less a b = true ↔ ∃ x y, f.value a = some x ∧ f.value b = some y ∧ x < y := by
  unfold less
  cases f.value a <;> cases f.value b <;> simp

theorem same_iff : f.same a b = true ↔ ∃ x, f.value a = some x ∧ f.value b = some x := by
  unfold same
  cases f.value a <;> cases f.value b <;> simp [eq_comm]

/-! ## The order of the values -/

theorem finite_lt_succ (x : Nat) : f.finite x < f.finite (x + 1) := by
  have hpos : 0 < 2 ^ f.fractionBits := Nat.two_pow_pos _
  have hx := Nat.div_add_mod x (2 ^ f.fractionBits)
  have hlt := Nat.mod_lt x hpos
  generalize hE : x / 2 ^ f.fractionBits = E at hx
  generalize hF : x % 2 ^ f.fractionBits = F at hx hlt
  by_cases hcarry : F + 1 < 2 ^ f.fractionBits
  · -- the fraction grows, the exponent stays
    have hx' : x + 1 = 2 ^ f.fractionBits * E + (F + 1) := by omega
    have hE' : (x + 1) / 2 ^ f.fractionBits = E := by
      rw [hx', Nat.mul_add_div hpos, Nat.div_eq_of_lt hcarry, Nat.add_zero]
    have hF' : (x + 1) % 2 ^ f.fractionBits = F + 1 := by
      rw [hx', Nat.mul_add_mod, Nat.mod_eq_of_lt hcarry]
    simp only [finite, significand, scale, hE, hF, hE', hF']
    refine mul_lt_mul_of_pos_right ?_ (zpow_pos (by norm_num) _)
    exact_mod_cast Nat.add_lt_add_left (Nat.lt_succ_self F) _
  · -- the fraction is full: the exponent grows
    have hx' : x + 1 = 2 ^ f.fractionBits * (E + 1) := by rw [Nat.mul_add, Nat.mul_one]; omega
    have hE' : (x + 1) / 2 ^ f.fractionBits = E + 1 := by
      rw [hx', Nat.mul_div_cancel_left _ hpos]
    have hF' : (x + 1) % 2 ^ f.fractionBits = 0 := by rw [hx', Nat.mul_mod_right]
    have hfull : (F : ℚ) + 1 = 2 ^ f.fractionBits := by
      have : F + 1 = 2 ^ f.fractionBits := by omega
      exact_mod_cast this
    simp only [finite, significand, scale, hE, hF, hE', hF', Nat.succ_ne_zero, if_false]
    rcases Nat.eq_zero_or_pos E with hz | hz
    · subst hz
      rw [show max 0 1 = max (0 + 1) 1 from rfl]
      refine mul_lt_mul_of_pos_right ?_ (zpow_pos (by norm_num) _)
      simp only [if_true]
      push_cast
      linarith
    · have hs : ((max (E + 1) 1 : Nat) : Int) - f.bias - f.fractionBits
          = ((max E 1 : Nat) : Int) - f.bias - f.fractionBits + 1 := by omega
      rw [hs, zpow_add_one₀ (by norm_num : (2 : ℚ) ≠ 0), if_neg (by omega)]
      have hscale : (0 : ℚ) < 2 ^ (((max E 1 : Nat) : Int) - f.bias - f.fractionBits) := zpow_pos (by norm_num) _
      have hlow : ((2 ^ f.fractionBits + F : Nat) : ℚ) < (2 ^ f.fractionBits + 0 : Nat) * 2 := by
        push_cast
        linarith
      calc _ < _ := mul_lt_mul_of_pos_right hlow hscale
        _ = _ := by ring

theorem finite_strictMono : StrictMono f.finite := strictMono_nat_of_lt_succ f.finite_lt_succ

theorem finite_zero : f.finite 0 = 0 := by simp [finite, significand]

theorem finite_nonneg (x : Nat) : 0 ≤ f.finite x := by
  rw [← f.finite_zero]
  exact f.finite_strictMono.monotone (Nat.zero_le x)

theorem absolute_lt {x y : Nat} (h : x < y) (hy : y ≤ f.infinity) : f.absolute x < f.absolute y := by
  unfold absolute
  rw [if_pos (lt_of_lt_of_le h hy)]
  split
  · exact WithTop.coe_lt_coe.2 (f.finite_strictMono h)
  · exact WithTop.coe_lt_top _

theorem absolute_le {x y : Nat} (h : x ≤ y) (hy : y ≤ f.infinity) : f.absolute x ≤ f.absolute y := by
  rcases Nat.lt_or_eq_of_le h with h | rfl
  · exact (f.absolute_lt h hy).le
  · exact le_refl _

theorem absolute_nonneg (x : Nat) : 0 ≤ f.absolute x := by
  unfold absolute
  split
  · exact_mod_cast f.finite_nonneg x
  · exact le_top

theorem signed_true_lt (h : x < y) : signed true y < signed true x := by
  cases x with
  | top => exact absurd h (not_lt.2 le_top)
  | coe x =>
    cases y with
    | top => exact WithBot.bot_lt_coe _
    | coe y =>
      refine WithBot.coe_lt_coe.2 (WithTop.coe_lt_coe.2 ?_)
      exact neg_lt_neg (WithTop.coe_lt_coe.1 h)

theorem signed_true_le (h : x ≤ y) : signed true y ≤ signed true x := by
  rcases h.lt_or_eq with h | rfl
  · exact (signed_true_lt h).le
  · exact le_refl _

theorem signed_le_signed (hx : 0 ≤ x) (hy : 0 ≤ y) : signed true x ≤ signed false y := by
  have h0 : signed true x ≤ signed true 0 := signed_true_le hx
  have hz : signed true (0 : WithTop ℚ) = ((0 : WithTop ℚ) : Extended) := by
    change (((-0 : ℚ) : WithTop ℚ) : Extended) = _
    rw [neg_zero]
    rfl
  rw [hz] at h0
  exact h0.trans (WithBot.coe_le_coe.2 hy)

theorem value_eq_some {f : Ieee} {bits : Nat} {v : Extended} (h : f.value bits = some v) :
    f.magnitude bits ≤ f.infinity ∧ v = signed (f.negative bits) (f.absolute (f.magnitude bits)) := by
  unfold value at h
  split at h
  · cases h
  · rename_i hle
    exact ⟨Nat.not_lt.1 hle, (Option.some.inj h).symm⟩

/-- **The total order refines the order of the values.** -/
theorem value_le {v w : Extended} (hv : f.value a = some v) (hw : f.value b = some w)
    (h : f.rank a ≤ f.rank b) : v ≤ w := by
  obtain ⟨ha, rfl⟩ := value_eq_some hv
  obtain ⟨hb, rfl⟩ := value_eq_some hw
  unfold rank at h
  cases hna : f.negative a <;> cases hnb : f.negative b <;> simp only [hna, hnb, if_true, if_false,
    Bool.false_eq_true] at h
  · exact WithBot.coe_le_coe.2 (f.absolute_le (by omega) hb)
  · omega
  · exact signed_le_signed (f.absolute_nonneg _) (f.absolute_nonneg _)
  · exact signed_true_le (f.absolute_le (by omega) ha)

theorem absolute_pos {x : Nat} (hx : 0 < x) (h : x ≤ f.infinity) : 0 < f.absolute x :=
  lt_of_le_of_lt (f.absolute_nonneg 0) (f.absolute_lt hx h)

theorem absolute_inj {x y : Nat} (hx : x ≤ f.infinity) (hy : y ≤ f.infinity) (h : f.absolute x = f.absolute y) :
    x = y := by
  rcases Nat.lt_trichotomy x y with hlt | rfl | hlt
  · exact absurd h (f.absolute_lt hlt hy).ne
  · rfl
  · exact absurd h (f.absolute_lt hlt hx).ne'

theorem signed_inj {n : Bool} (h : signed n x = signed n y) : x = y := by
  cases n with
  | false => exact WithBot.coe_inj.1 h
  | true =>
    rcases lt_trichotomy x y with hlt | rfl | hlt
    · exact absurd h (signed_true_lt hlt).ne'
    · rfl
    · exact absurd h (signed_true_lt hlt).ne

theorem signed_zero : signed true (0 : WithTop ℚ) = signed false (0 : WithTop ℚ) :=
  le_antisymm (signed_le_signed le_rfl le_rfl) (by simp [signed, ← WithTop.coe_zero])

/-- Only the zeros share a value. -/
theorem eq_zero_of_signs {x y : Nat} (hx : x ≤ f.infinity) (hy : y ≤ f.infinity)
    (h : signed true (f.absolute x) = signed false (f.absolute y)) : x = 0 ∧ y = 0 := by
  have hle := signed_le_signed (f.absolute_nonneg x) le_rfl
  have hle' := signed_le_signed (le_refl (0 : WithTop ℚ)) (f.absolute_nonneg y)
  constructor
  · by_contra hne
    have hlt := signed_true_lt (f.absolute_pos (Nat.pos_of_ne_zero hne) hx)
    rw [h] at hlt
    exact absurd hle' (not_le.2 hlt)
  · by_contra hne
    have hlt : signed false (0 : WithTop ℚ) < signed false (f.absolute y) :=
      WithBot.coe_lt_coe.2 (f.absolute_pos (Nat.pos_of_ne_zero hne) hy)
    rw [← h] at hlt
    exact absurd hle (not_le.2 hlt)

theorem value_inj {v : Extended} (ha : f.value a = some v) (hb : f.value b = some v) :
    f.rank a = f.rank b ∨ f.magnitude a = 0 ∧ f.magnitude b = 0 := by
  obtain ⟨hla, hva⟩ := value_eq_some ha
  obtain ⟨hlb, hvb⟩ := value_eq_some hb
  rw [hva] at hvb
  unfold rank
  cases hna : f.negative a <;> cases hnb : f.negative b <;> rw [hna, hnb] at hvb
  · exact Or.inl (by rw [f.absolute_inj hla hlb (signed_inj hvb)])
  · obtain ⟨h, h'⟩ := f.eq_zero_of_signs hlb hla hvb.symm
    exact Or.inr ⟨h', h⟩
  · exact Or.inr (f.eq_zero_of_signs hla hlb hvb)
  · exact Or.inl (by rw [f.absolute_inj hla hlb (signed_inj hvb)])

/-- Both zeros are equal to zero. -/
theorem same_zero (he : 1 ≤ f.exponentBits) {a : Nat} (hz : f.magnitude a = 0) : f.same a 0 = true := by
  have hinf : 0 < f.infinity := Nat.mul_pos (Nat.sub_pos_of_lt (Nat.one_lt_two_pow (by omega))) (Nat.two_pow_pos _)
  have hval : ∀ b, f.magnitude b = 0 → f.value b = some (signed false 0) := by
    intro b hb
    rw [value, hb, if_neg (Nat.not_lt_zero _), absolute, if_pos hinf, f.finite_zero]
    cases f.negative b with
    | false => rfl
    | true => exact congrArg some signed_zero
  exact (f.same_iff).2 ⟨_, hval a hz, hval 0 (by simp [magnitude])⟩

/-- The number of bits of a format. -/
def width : Nat := f.exponentBits + f.fractionBits + 1

theorem bits_eq {a : Nat} (ha : a < 2 ^ f.width) :
    a = (if f.negative a then 2 ^ (f.exponentBits + f.fractionBits) else 0) + f.magnitude a := by
  have hq : a / 2 ^ (f.exponentBits + f.fractionBits) < 2 := by
    rw [Nat.div_lt_iff_lt_mul (Nat.two_pow_pos _), ← Nat.pow_succ']
    exact ha
  have hd := Nat.div_add_mod a (2 ^ (f.exponentBits + f.fractionBits))
  unfold negative magnitude
  generalize a / 2 ^ (f.exponentBits + f.fractionBits) = q at *
  obtain rfl | rfl : q = 0 ∨ q = 1 := by omega
  · simpa using hd.symm
  · simpa using hd.symm

theorem rank_inj (ha : a < 2 ^ f.width) (hb : b < 2 ^ f.width) (h : f.rank a = f.rank b) : a = b := by
  unfold rank at h
  rw [f.bits_eq ha, f.bits_eq hb]
  cases hna : f.negative a <;> cases hnb : f.negative b <;>
    simp only [hna, hnb, if_true, if_false, Bool.false_eq_true] at h ⊢ <;> omega

/-! ## The bits of a number -/

/-- The bits of `s * 2 ^ x` under a sign, where the format has them. -/
def encode (negative : Bool) (s : Nat) (x : Int) : Nat :=
  (if negative then 2 ^ (f.exponentBits + f.fractionBits) else 0) +
    if s = 0 then 0
    else (s.log2 + x + f.bias).toNat * 2 ^ f.fractionBits + (s * 2 ^ (f.fractionBits - s.log2) - 2 ^ f.fractionBits)

theorem split_sign {x : Nat} (hx : x < 2 ^ (f.exponentBits + f.fractionBits)) (n : Bool) :
    f.magnitude ((if n then 2 ^ (f.exponentBits + f.fractionBits) else 0) + x) = x ∧
      f.negative ((if n then 2 ^ (f.exponentBits + f.fractionBits) else 0) + x) = n := by
  unfold magnitude negative
  have hpos : 0 < 2 ^ (f.exponentBits + f.fractionBits) := Nat.two_pow_pos _
  cases n with
  | false => simp [Nat.mod_eq_of_lt hx, Nat.div_eq_of_lt hx]
  | true => simp [Nat.mod_eq_of_lt hx, Nat.div_eq_of_lt hx, Nat.add_div_left _ hpos]

theorem infinity_lt : f.infinity < 2 ^ (f.exponentBits + f.fractionBits) := by
  have hpos : 0 < 2 ^ f.exponentBits := Nat.two_pow_pos _
  rw [infinity, pow_add]
  exact Nat.mul_lt_mul_of_pos_right (by omega) (Nat.two_pow_pos _)

/-- A normal number, by its exponent and its fraction. -/
theorem finite_normal {E F : Nat} (hE : E ≠ 0) (hF : F < 2 ^ f.fractionBits) :
    f.finite (E * 2 ^ f.fractionBits + F) = ((2 ^ f.fractionBits + F : Nat) : ℚ) * 2 ^ (E - f.bias - f.fractionBits) := by
  have hpos : 0 < 2 ^ f.fractionBits := Nat.two_pow_pos _
  have hd : (E * 2 ^ f.fractionBits + F) / 2 ^ f.fractionBits = E := by
    rw [Nat.mul_comm, Nat.mul_add_div hpos, Nat.div_eq_of_lt hF, Nat.add_zero]
  have hm : (E * 2 ^ f.fractionBits + F) % 2 ^ f.fractionBits = F := by
    rw [Nat.mul_comm, Nat.mul_add_mod, Nat.mod_eq_of_lt hF]
  rw [finite, significand, scale, hd, hm, if_neg hE, Nat.max_eq_left (Nat.one_le_iff_ne_zero.2 hE)]

theorem encode_split {n : Bool} {s : Nat} {x : Int} (hs : s < 2 ^ (f.fractionBits + 1)) (he : 1 ≤ f.exponentBits)
    (hlow : s ≠ 0 → 1 ≤ s.log2 + x + f.bias) (hhigh : s ≠ 0 → s.log2 + x + f.bias < ((2 ^ f.exponentBits : Nat) : Int) - 1) :
    ∃ m, f.encode n s x = (if n then 2 ^ (f.exponentBits + f.fractionBits) else 0) + m ∧
      m < f.infinity ∧ f.finite m = s * 2 ^ x := by
  have htwo : 1 < 2 ^ f.exponentBits := Nat.one_lt_two_pow (by omega)
  have hinf : 0 < f.infinity := Nat.mul_pos (by omega) (Nat.two_pow_pos _)
  by_cases h0 : s = 0
  · exact ⟨0, by rw [encode, if_pos h0], hinf, by rw [f.finite_zero, h0]; simp⟩
  have hlog : 2 ^ s.log2 ≤ s := Nat.log2_self_le h0
  have hlog' : s < 2 ^ (s.log2 + 1) := Nat.lt_log2_self
  have hle : s.log2 ≤ f.fractionBits := by
    by_contra hgt
    have := Nat.pow_le_pow_right (n := 2) (by omega) (by omega : f.fractionBits + 1 ≤ s.log2)
    omega
  refine ⟨_, by rw [encode, if_neg h0], ?_, ?_⟩
  all_goals
    generalize hk : f.fractionBits - s.log2 = k
    have hfb : f.fractionBits = s.log2 + k := by omega
    have hlo : 2 ^ f.fractionBits ≤ s * 2 ^ k := by
      rw [hfb, pow_add]
      exact Nat.mul_le_mul_right _ hlog
    have hhi : s * 2 ^ k < 2 * 2 ^ f.fractionBits := by
      rw [hfb, pow_add, ← Nat.mul_assoc, ← Nat.pow_succ']
      exact Nat.mul_lt_mul_of_pos_right hlog' (Nat.two_pow_pos _)
    have hE := hlow h0
    have hE' := hhigh h0
  · have hE : (s.log2 + x + f.bias).toNat + 1 ≤ 2 ^ f.exponentBits - 1 := by omega
    calc _ < ((s.log2 + x + f.bias).toNat + 1) * 2 ^ f.fractionBits := by rw [Nat.add_mul]; omega
      _ ≤ f.infinity := Nat.mul_le_mul_right _ hE
  · rw [f.finite_normal (by omega) (by omega), Nat.add_sub_cancel' hlo, Int.toNat_of_nonneg (by omega)]
    have hx : (s.log2 + x + f.bias) - f.bias - f.fractionBits = x - k := by omega
    rw [hx, zpow_sub₀ (by norm_num), zpow_natCast]
    push_cast
    rw [mul_assoc, mul_div_cancel₀ _ (pow_ne_zero k (by norm_num))]

theorem finite_subnormal {F : Nat} (hF : F < 2 ^ f.fractionBits) : f.finite F = F * 2 ^ (1 - f.bias - f.fractionBits) := by
  rw [finite, significand, scale, Nat.div_eq_of_lt hF, Nat.mod_eq_of_lt hF, if_pos rfl, Nat.zero_add]
  rfl

/-- **What is encoded is what was meant.** -/
theorem value_encode {n : Bool} {s : Nat} {x : Int} (hs : s < 2 ^ (f.fractionBits + 1)) (he : 1 ≤ f.exponentBits)
    (hlow : s ≠ 0 → 1 ≤ s.log2 + x + f.bias) (hhigh : s ≠ 0 → s.log2 + x + f.bias < ((2 ^ f.exponentBits : Nat) : Int) - 1) :
    f.value (f.encode n s x) = some (signed n ((s * 2 ^ x : ℚ) : WithTop ℚ)) ∧ f.encode n s x < 2 ^ f.width := by
  obtain ⟨m, henc, hm, hfin⟩ := f.encode_split (n := n) hs he hlow hhigh
  have hlt := hm.trans f.infinity_lt
  obtain ⟨hmag, hneg⟩ := f.split_sign hlt n
  refine ⟨?_, ?_⟩
  · rw [henc, value, hmag, hneg, if_neg (Nat.not_lt.2 hm.le), absolute, if_pos hm, hfin]
  · rw [henc, width, pow_succ]
    split <;> omega

theorem value_infinity (n : Bool) :
    f.value ((if n then 2 ^ (f.exponentBits + f.fractionBits) else 0) + f.infinity) = some (signed n ⊤) := by
  obtain ⟨hmag, hneg⟩ := f.split_sign f.infinity_lt n
  rw [value, hmag, hneg, if_neg (lt_irrefl _), absolute, if_neg (lt_irrefl _)]

end Ieee

end Wireform

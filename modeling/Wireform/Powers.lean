/-
  Powers of one number against powers of another.

  * `lowPow`, `highPow`: a power by squaring, cut to a few binary digits after each step;
  * `two_pow_lt_of_lowPow`, `le_two_pow_of_highPow`: what they say about the power itself;
  * `add_le_of_between`: a fraction between two neighbours has a large denominator;
  * `pow_le_pow_iff`: two neighbours decide the comparison of all smaller powers.
-/
import Mathlib.Tactic.Ring
import Mathlib.Tactic.Linarith

namespace Wireform.Powers

/-! ## Powers, cut after each squaring -/

/-- The binary digits that `m` has beyond `w`. -/
def excess (w m : Nat) : Nat := m.log2 + 1 - w

/-- A mantissa and a binary exponent, not above `g ^ n`. -/
def lowPow (g w : Nat) : Nat → Nat → Nat × Nat
  | 0, _ => (1, 0)
  | k + 1, n =>
    let p := lowPow g w k (n / 2)
    let m := p.1 * p.1 * g ^ (n % 2)
    (m / 2 ^ excess w m, 2 * p.2 + excess w m)

/-- A mantissa and a binary exponent, not below `g ^ n`. -/
def highPow (g w : Nat) : Nat → Nat → Nat × Nat
  | 0, _ => (1, 0)
  | k + 1, n =>
    let p := highPow g w k (n / 2)
    let m := p.1 * p.1 * g ^ (n % 2)
    ((m + (2 ^ excess w m - 1)) / 2 ^ excess w m, 2 * p.2 + excess w m)

theorem square_pow (g n : Nat) : g ^ (n / 2) * g ^ (n / 2) * g ^ (n % 2) = g ^ n := by
  rw [← pow_add, ← pow_add]
  congr 1
  omega

theorem scaled_square (m e q : Nat) : m * 2 ^ e * (m * 2 ^ e) * q = m * m * q * 2 ^ (2 * e) := by
  rw [Nat.two_mul, pow_add]
  ring

theorem lowPow_le (g w : Nat) {k n : Nat} (h : n < 2 ^ k) : (lowPow g w k n).1 * 2 ^ (lowPow g w k n).2 ≤ g ^ n := by
  induction k generalizing n with
  | zero =>
    have hn : n = 0 := by omega
    simp [lowPow, hn]
  | succ k ih =>
    have hp := ih (n := n / 2) (by rw [pow_succ] at h; omega)
    simp only [lowPow]
    generalize lowPow g w k (n / 2) = p at hp ⊢
    generalize hm : p.1 * p.1 * g ^ (n % 2) = m
    calc m / 2 ^ excess w m * 2 ^ (2 * p.2 + excess w m)
        = m / 2 ^ excess w m * 2 ^ excess w m * 2 ^ (2 * p.2) := by rw [pow_add]; ring
      _ ≤ m * 2 ^ (2 * p.2) := Nat.mul_le_mul_right _ (Nat.div_mul_le_self _ _)
      _ = p.1 * 2 ^ p.2 * (p.1 * 2 ^ p.2) * g ^ (n % 2) := by rw [scaled_square, hm]
      _ ≤ g ^ (n / 2) * g ^ (n / 2) * g ^ (n % 2) := Nat.mul_le_mul_right _ (Nat.mul_le_mul hp hp)
      _ = g ^ n := square_pow g n

theorem le_highPow (g w : Nat) {k n : Nat} (h : n < 2 ^ k) : g ^ n ≤ (highPow g w k n).1 * 2 ^ (highPow g w k n).2 := by
  induction k generalizing n with
  | zero =>
    have hn : n = 0 := by omega
    simp [highPow, hn]
  | succ k ih =>
    have hp := ih (n := n / 2) (by rw [pow_succ] at h; omega)
    simp only [highPow]
    generalize highPow g w k (n / 2) = p at hp ⊢
    generalize hm : p.1 * p.1 * g ^ (n % 2) = m
    have hcut : m ≤ (m + (2 ^ excess w m - 1)) / 2 ^ excess w m * 2 ^ excess w m := by
      have hlt := Nat.lt_mul_div_succ (m + (2 ^ excess w m - 1)) (Nat.two_pow_pos (excess w m))
      have hpos := Nat.two_pow_pos (excess w m)
      rw [Nat.mul_add, Nat.mul_comm] at hlt
      omega
    calc g ^ n = g ^ (n / 2) * g ^ (n / 2) * g ^ (n % 2) := (square_pow g n).symm
      _ ≤ p.1 * 2 ^ p.2 * (p.1 * 2 ^ p.2) * g ^ (n % 2) := Nat.mul_le_mul_right _ (Nat.mul_le_mul hp hp)
      _ = m * 2 ^ (2 * p.2) := by rw [scaled_square, hm]
      _ ≤ (m + (2 ^ excess w m - 1)) / 2 ^ excess w m * 2 ^ excess w m * 2 ^ (2 * p.2) := Nat.mul_le_mul_right _ hcut
      _ = (m + (2 ^ excess w m - 1)) / 2 ^ excess w m * 2 ^ (2 * p.2 + excess w m) := by rw [pow_add]; ring

theorem two_pow_lt_of_lowPow {g w k n b : Nat} (hn : n < 2 ^ k) (he : (lowPow g w k n).2 ≤ b)
    (h : 2 ^ (b - (lowPow g w k n).2) < (lowPow g w k n).1) : 2 ^ b < g ^ n :=
  calc 2 ^ b = 2 ^ (b - (lowPow g w k n).2) * 2 ^ (lowPow g w k n).2 := by rw [← pow_add, Nat.sub_add_cancel he]
    _ < (lowPow g w k n).1 * 2 ^ (lowPow g w k n).2 := Nat.mul_lt_mul_of_pos_right h (Nat.two_pow_pos _)
    _ ≤ g ^ n := lowPow_le g w hn

theorem le_two_pow_of_highPow {g w k n b : Nat} (hn : n < 2 ^ k) (he : (highPow g w k n).2 ≤ b)
    (h : (highPow g w k n).1 ≤ 2 ^ (b - (highPow g w k n).2)) : g ^ n ≤ 2 ^ b :=
  calc g ^ n ≤ (highPow g w k n).1 * 2 ^ (highPow g w k n).2 := le_highPow g w hn
    _ ≤ 2 ^ (b - (highPow g w k n).2) * 2 ^ (highPow g w k n).2 := Nat.mul_le_mul_right _ h
    _ = 2 ^ b := by rw [← pow_add, Nat.sub_add_cancel he]

/-! ## Neighbouring fractions -/

/-- A fraction between two neighbours has at least the sum of their denominators below. -/
theorem add_le_of_between {a b c d k n : Nat} (hdet : b * c = a * d + 1) (hlow : n * a < k * b)
    (hhigh : k * d < n * c) : b + d ≤ n := by
  have h1 : d * (n * a + 1) ≤ d * (k * b) := Nat.mul_le_mul_left d hlow
  have h2 : b * (k * d + 1) ≤ b * (n * c) := Nat.mul_le_mul_left b hhigh
  have h3 : n * (b * c) = n * (a * d + 1) := by rw [hdet]
  nlinarith

/-- **Two neighbours, and any fraction between them, decide which powers of `x` the powers of `y` reach.** -/
theorem pow_le_pow_iff {x y a b c d num den : Nat} (hdet : b * c = a * d + 1) (hlow : x ^ a ≤ y ^ b)
    (hhigh : y ^ d < x ^ c) (ha : a * den ≤ num * b) (hc : num * d < c * den) {k n : Nat} (h0 : 0 < n)
    (hn : n < b + d) : x ^ k ≤ y ^ n ↔ k * den ≤ n * num := by
  have hbc : 0 < b * c := by omega
  have hb : 0 < b := Nat.pos_of_mul_pos_right hbc
  have hx : 0 < x := Nat.pos_of_ne_zero fun h => by
    rw [h, zero_pow (Nat.pos_of_mul_pos_left hbc).ne'] at hhigh
    exact absurd hhigh (Nat.not_lt_zero _)
  constructor
  · intro hle
    by_contra hlt
    have hka : n * a < k * b := by
      have hlt' : n * num < k * den := not_le.1 hlt
      nlinarith
    have hkd : n * c ≤ k * d := not_lt.1 fun hbetween => absurd (add_le_of_between hdet hka hbetween) (not_le.2 hn)
    have hpow : (y ^ n) ^ d < (x ^ k) ^ d :=
      calc (y ^ n) ^ d = (y ^ d) ^ n := by rw [← pow_mul, ← pow_mul, Nat.mul_comm]
        _ < (x ^ c) ^ n := Nat.pow_lt_pow_left hhigh h0.ne'
        _ = x ^ (n * c) := by rw [← pow_mul, Nat.mul_comm]
        _ ≤ x ^ (k * d) := Nat.pow_le_pow_right hx hkd
        _ = (x ^ k) ^ d := pow_mul x k d
    exact absurd (Nat.pow_le_pow_left hle d) (not_le.2 hpow)
  · intro hle
    have hkd : k * d < n * c := by
      have h1 : n * (num * d) < n * (c * den) := Nat.mul_lt_mul_of_pos_left hc h0
      nlinarith
    have hka : k * b ≤ n * a := not_lt.1 fun hbetween => absurd (add_le_of_between hdet hbetween hkd) (not_le.2 hn)
    have hpow : (x ^ k) ^ b ≤ (y ^ n) ^ b :=
      calc (x ^ k) ^ b = x ^ (k * b) := (pow_mul x k b).symm
        _ ≤ x ^ (n * a) := Nat.pow_le_pow_right hx hka
        _ = (x ^ a) ^ n := by rw [← pow_mul, Nat.mul_comm]
        _ ≤ (y ^ b) ^ n := Nat.pow_le_pow_left hlow n
        _ = (y ^ n) ^ b := by rw [← pow_mul, ← pow_mul, Nat.mul_comm]
    exact (Nat.pow_le_pow_iff_left hb.ne').1 hpow

end Wireform.Powers

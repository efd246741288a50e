/-
  Prefix codes, and the finite automata that decode them.

  * `bitsOf w n` are the `w` low bits of `n`, the highest first;
  * `PrefixFree code`: no code word starts another one, in any context;
  * `Automaton`: a decoder that reads its input in letters of several bits.  The
    label of a state is what was read since the last symbol;
  * `run_encode`: a lawful automaton decodes what the code encodes, followed by
    some padding.
-/
import Mathlib.Data.List.Basic
import Mathlib.Data.Nat.Bitwise

namespace Wireform.PrefixCode

/-! ## Bits of numbers -/

/-- The `w` low bits of `n`, the highest first. -/
def bitsOf : Nat → Nat → List Bool
  | 0, _ => []
  | w + 1, n => n.testBit w :: bitsOf w n

attribute [grind =] bitsOf

@[simp] theorem length_bitsOf (w n : Nat) : (bitsOf w n).length = w := by
  induction w with
  | zero => rfl
  | succ w ih => simp [bitsOf, ih]

theorem bitsOf_congr {m n : Nat} : ∀ {w : Nat}, (∀ i < w, m.testBit i = n.testBit i) →
    bitsOf w m = bitsOf w n
  | 0, _ => rfl
  | w + 1, h => by
    rw [bitsOf, bitsOf, h w (by omega), bitsOf_congr fun i hi => h i (by omega)]

/-- The high bits come from the shifted number. -/
theorem bitsOf_add (w k n : Nat) : bitsOf (w + k) n = bitsOf w (n >>> k) ++ bitsOf k n := by
  induction w with
  | zero => simp [bitsOf]
  | succ w ih =>
    rw [show w + 1 + k = w + k + 1 by omega, bitsOf, ih, bitsOf, List.cons_append,
      Nat.testBit_shiftRight, Nat.add_comm k w]

theorem bitsOf_mod (w n : Nat) : bitsOf w (n % 2 ^ w) = bitsOf w n := by
  refine bitsOf_congr fun i hi => ?_
  rw [Nat.testBit_mod_two_pow, decide_eq_true hi, Bool.true_and]

/-- Two numbers side by side. -/
theorem bitsOf_append {k n : Nat} (w m : Nat) (h : n < 2 ^ k) :
    bitsOf w m ++ bitsOf k n = bitsOf (w + k) (m * 2 ^ k + n) := by
  have h1 : (m * 2 ^ k + n) >>> k = m := by
    rw [Nat.shiftRight_eq_div_pow, Nat.mul_comm, Nat.mul_add_div (Nat.two_pow_pos k),
      Nat.div_eq_of_lt h, Nat.add_zero]
  have h2 : (m * 2 ^ k + n) % 2 ^ k = n := by
    rw [Nat.mul_comm, Nat.mul_add_mod, Nat.mod_eq_of_lt h]
  rw [bitsOf_add, h1, ← bitsOf_mod k (m * 2 ^ k + n), h2]

theorem bitsOf_inj : ∀ {w m n : Nat}, m < 2 ^ w → n < 2 ^ w → bitsOf w m = bitsOf w n → m = n := by
  intro w m n hm hn h
  refine Nat.eq_of_testBit_eq fun i => ?_
  by_cases hi : i < w
  · clear hm hn
    induction w with
    | zero => omega
    | succ w ih =>
      obtain ⟨h1, h2⟩ := List.cons.inj h
      rcases Nat.lt_or_eq_of_le (Nat.le_of_lt_succ hi) with hi | rfl
      · exact ih h2 hi
      · exact h1
  · rw [Nat.testBit_lt_two_pow (hm.trans_le (Nat.pow_le_pow_right (by omega) (by omega))),
      Nat.testBit_lt_two_pow (hn.trans_le (Nat.pow_le_pow_right (by omega) (by omega)))]

theorem bitsOf_ones (w : Nat) : bitsOf w (2 ^ w - 1) = List.replicate w true := by
  have key : ∀ k ≤ w, bitsOf k (2 ^ w - 1) = List.replicate k true := by
    intro k
    induction k with
    | zero => intro _; rfl
    | succ k ih =>
      intro hk
      rw [bitsOf, ih (by omega), Nat.testBit_two_pow_sub_one, decide_eq_true (by omega)]
      rfl
  exact key w le_rfl

/-! ## Codes -/

variable {σ : Type}

/-- No code word starts another one, whatever follows them. -/
def PrefixFree (code : σ → List Bool) : Prop :=
  ∀ a b l l', code a ++ l = code b ++ l' → a = b

/-- The code words of the symbols, one after the other. -/
def encode (code : σ → List Bool) (xs : List σ) : List Bool := xs.flatMap code

@[simp] theorem encode_nil (code : σ → List Bool) : encode code [] = [] := rfl

@[simp] theorem encode_cons (code : σ → List Bool) (x : σ) (xs : List σ) :
    encode code (x :: xs) = code x ++ encode code xs := by simp [encode]

/-- Of two prefixes of one list, one starts the other. -/
theorem append_cases {α : Type} {a b l l' : List α} (h : a ++ l = b ++ l') :
    a <+: b ∨ b <+: a :=
  List.prefix_or_prefix_of_prefix (List.prefix_append a l) (h ▸ List.prefix_append b l')

/-- Code words none of which starts another one are prefix-free. -/
theorem PrefixFree.of_prefix {code : σ → List Bool} (h : ∀ a b, code a <+: code b → a = b) :
    PrefixFree code := by
  intro a b l l' he
  rcases append_cases he with hp | hp
  · exact h a b hp
  · exact (h b a hp).symm

/-! ## Automata -/

/-- A decoder that reads letters `ι`, has states `S` and gives symbols `σ`. -/
structure Automaton (σ S ι : Type) where
  code : σ → List Bool
  /-- The bits of a letter. -/
  letter : ι → List Bool
  /-- The bits read since the last symbol. -/
  label : S → List Bool
  /-- Read a letter: the next state, and a symbol if one is complete. -/
  step : S → ι → Option (S × Option σ)

namespace Automaton

variable {S ι : Type} (A : Automaton σ S ι)

/-- Read letters: the last state and the symbols. -/
def run : S → List ι → Option (S × List σ)
  | s, [] => some (s, [])
  | s, i :: is =>
    match A.step s i with
    | none => none
    | some (s', o) => (run s' is).map fun r => (r.1, o.toList ++ r.2)

/-- The automaton reads the code: steps keep track of the bits, it stops only
    at `eos`, and no code word is complete in a label. -/
structure Lawful (valid : S → Prop) (eos : List Bool) : Prop where
  prefixFree : PrefixFree A.code
  step_valid : ∀ s i s' o, valid s → A.step s i = some (s', o) → valid s'
  step_some : ∀ s i s' o, valid s → A.step s i = some (s', o) →
    encode A.code o.toList ++ A.label s' = A.label s ++ A.letter i
  step_none : ∀ s i, valid s → A.step s i = none → eos <+: A.label s ++ A.letter i
  label_open : ∀ s a, valid s → ¬ A.code a <+: A.label s
  eos_apart : ∀ a, ¬ A.code a <+: eos ∧ ¬ eos <+: A.code a

variable {A} {valid : S → Prop} {eos pad : List Bool}

/-- An encoded text with its padding does not start with `eos`. -/
theorem Lawful.not_eos (h : A.Lawful valid eos) (hp : pad.length < eos.length) (xs : List σ) :
    ¬ eos <+: encode A.code xs ++ pad := by
  intro he
  cases xs with
  | nil => exact absurd he.length_le (by simpa using hp)
  | cons x xs =>
    rw [encode_cons, List.append_assoc] at he
    obtain ⟨t, ht⟩ := he
    rcases append_cases ht with hx | hx
    · exact (h.eos_apart x).2 hx
    · exact (h.eos_apart x).1 hx

/-- A complete code word at the front is the first symbol. -/
theorem Lawful.front (h : A.Lawful valid eos) (hpad : ∀ a, ¬ A.code a <+: pad) {a : σ}
    {xs : List σ} {l : List Bool} (he : A.code a ++ l = encode A.code xs ++ pad) :
    ∃ ys, xs = a :: ys ∧ l = encode A.code ys ++ pad := by
  cases xs with
  | nil => exact absurd ⟨l, he⟩ (hpad a)
  | cons x xs =>
    rw [encode_cons, List.append_assoc] at he
    obtain rfl := h.prefixFree a x _ _ he
    exact ⟨xs, rfl, List.append_cancel_left he⟩

/-- **A lawful automaton decodes what the code encodes.** -/
theorem Lawful.run_encode (h : A.Lawful valid eos) (hpad : ∀ a, ¬ A.code a <+: pad)
    (hp : pad.length < eos.length) : ∀ (is : List ι) (s : S) (xs : List σ), valid s →
      A.label s ++ is.flatMap A.letter = encode A.code xs ++ pad →
      ∃ s', valid s' ∧ A.run s is = some (s', xs) ∧ A.label s' = pad
  | [], s, xs, hv, he => by
    rw [List.flatMap_nil, List.append_nil] at he
    cases xs with
    | nil => exact ⟨s, hv, rfl, he⟩
    | cons x xs =>
      rw [encode_cons, List.append_assoc] at he
      exact absurd ⟨_, he.symm⟩ (h.label_open s x hv)
  | i :: is, s, xs, hv, he => by
    rw [List.flatMap_cons, ← List.append_assoc] at he
    cases hs : A.step s i with
    | none =>
      have heos := (h.step_none s i hv hs).trans (List.prefix_append _ (is.flatMap A.letter))
      rw [he] at heos
      exact absurd heos (h.not_eos hp xs)
    | some r =>
      obtain ⟨s', o⟩ := r
      rw [← h.step_some s i s' o hv hs, List.append_assoc] at he
      have hv' := h.step_valid s i s' o hv hs
      cases o with
      | none =>
        obtain ⟨t, ht, hrun, hl⟩ := h.run_encode hpad hp is s' xs hv' he
        exact ⟨t, ht, by simp [run, hs, hrun], hl⟩
      | some a =>
        have he' : A.code a ++ (A.label s' ++ is.flatMap A.letter) = encode A.code xs ++ pad := by
          simpa [encode] using he
        obtain ⟨ys, rfl, he''⟩ := h.front hpad he'
        obtain ⟨t, ht, hrun, hl⟩ := h.run_encode hpad hp is s' ys hv' he''
        exact ⟨t, ht, by simp [run, hs, hrun], hl⟩

end Automaton

end Wireform.PrefixCode

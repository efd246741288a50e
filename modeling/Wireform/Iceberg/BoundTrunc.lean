/-
  Truncated bounds (`Iceberg.BoundTrunc`).

  * `truncateLowerString`, `truncateUpperString`, `bumpLastChar`, and the same for bytes;
  * `Covers`: the bounds cover the value and all that starts as it does;
  * `bumpLastByte_some`: the bytes are rounded up with a carry;
  * `carried`: what the carry through the largest characters makes of the others, turned round at each of them;
  * `bounds_faithful_iff`: the values whose bounds are faithful.
-/
import Mathlib.Data.Char
import Mathlib.Data.List.Lex
import Mathlib.Data.List.TakeWhile
import Wireform.Iceberg.UnscaledDecimal

namespace Wireform.Iceberg

/-! ## Strings -/

/-- A text, by its characters. -/
abbrev Text := List Char

def truncateLowerString (n : Int) (t : Text) : Text := if n ≤ 0 then [] else t.take n.toNat

/-- The character of a code point; the surrogates have none and are replaced. -/
def safe (c : Nat) : Char := if c.isValidChar then Char.ofNat c else '\uFFFD'

/-- `T.pack`. -/
def pack (cs : List Nat) : Text := cs.map safe

/-- The code points come last first, and the result first first. -/
def bumpLastChar.go : List Nat → Option (List Nat)
  | [] => none
  | c :: rest =>
    if 0x10FFFF ≤ c then
      match bumpLastChar.go rest with
      | some rest' => some (0 :: rest').reverse
      | none => none
    else some ((c + 1) :: rest).reverse

attribute [grind =] bumpLastChar.go

def bumpLastChar (chars : List Nat) : Option (List Nat) := bumpLastChar.go chars.reverse

def truncateUpperString (n : Int) (t : Text) : Option Text :=
  if n ≤ 0 then none
  else if t.length ≤ n then some t
  else
    let chars := (t.take n.toNat).map Char.toNat
    match bumpLastChar chars with
    | some bumped => some (pack bumped)
    | none => none

/-! ## Bytes -/

def truncateLowerBytes (n : Int) (b : ByteString) : ByteString := if n ≤ 0 then [] else b.take n.toNat

/-- The index comes plus one. -/
def bumpLastByte.go (b : ByteString) : Nat → Option ByteString
  | 0 => none
  | i + 1 =>
    if b.getD i 0 = 0xFF then bumpLastByte.go b i
    else some (b.take i ++ [b.getD i 0 + 1] ++ List.replicate (b.length - i - 1) 0)

def bumpLastByte (b : ByteString) : Option ByteString := if b.isEmpty then none else bumpLastByte.go b b.length

def truncateUpperBytes (n : Int) (b : ByteString) : Option ByteString :=
  if n ≤ 0 then none
  else if b.length ≤ n then some b
  else
    match bumpLastByte (b.take n.toNat) with
    | some bumped => some bumped
    | none => none

/-! ## Covering -/

section

variable {α : Type} [LinearOrder α]

/-- What the truncated bounds of `t` are for. -/
structure Covers (top : α) (k : Int) (t lower : List α) (upper : Option (List α)) : Prop where
  lower_le : lower ≤ t
  le_upper : ∀ u, upper = some u → t ≤ u
  above : ∀ u, upper = some u → ∀ s : List α, s.take k.toNat = t.take k.toNat → s ≤ u
  length_le : ∀ u, upper = some u → (u.length : Int) ≤ max k t.length
  present : (∃ c ∈ t.take k.toNat, c ≠ top) → upper.isSome

theorem take_le (k : Nat) (t : List α) : t.take k ≤ t := not_lt.1 (List.take_prefix k t).le

/-- Lists of one length are told apart where they differ first, whatever follows. -/
theorem append_lt_append_of_lt {p q : List α} (h : p < q) (hlen : p.length = q.length) (a b : List α) :
    p ++ a < q ++ b := by
  induction p generalizing q with
  | nil =>
    obtain rfl := List.eq_nil_of_length_eq_zero hlen.symm
    exact absurd h (lt_irrefl _)
  | cons x p ih =>
    cases q with
    | nil => cases hlen
    | cons y q =>
      rw [List.cons_append, List.cons_append, List.cons_lt_cons_iff]
      refine (List.cons_lt_cons_iff.1 h).imp_right fun ⟨heq, hlt⟩ => ⟨heq, ih hlt (Nat.succ.inj hlen)⟩

theorem append_lt_append_iff {p q a b : List α} (hlen : p.length = q.length) :
    p ++ a < q ++ b ↔ p < q ∨ p = q ∧ a < b := by
  constructor
  · intro h
    rcases lt_trichotomy p q with hpq | rfl | hqp
    · exact .inl hpq
    · refine .inr ⟨rfl, ?_⟩
      by_contra hab
      rcases eq_or_lt_of_not_gt hab with rfl | hlt
      · exact lt_irrefl _ h
      · exact lt_asymm h (List.append_left_lt hlt)
    · exact absurd h (lt_asymm (append_lt_append_of_lt hqp hlen.symm b a))
  · rintro (h | ⟨rfl, h⟩)
    · exact append_lt_append_of_lt h hlen a b
    · exact List.append_left_lt h

/-- **A bound of the prefix length covers where it is above the prefix.** -/
theorem covers_iff {top : α} {k : Int} {t u : List α} (hk : ¬k ≤ 0) (hlen : ¬(t.length : Int) ≤ k)
    (hu : u.length = k.toNat) : Covers top k t (t.take k.toNat) (some u) ↔ t.take k.toNat < u := by
  have hpre : (t.take k.toNat).length = k.toNat := by
    rw [List.length_take]
    omega
  have hcover (s : List α) (hs : s.take k.toNat = t.take k.toNat) (h : t.take k.toNat < u) : s ≤ u := by
    have hlt := append_lt_append_of_lt h (hpre.trans hu.symm) (s.drop k.toNat) []
    rw [← hs, List.take_append_drop, List.append_nil] at hlt
    exact hlt.le
  constructor
  · intro h
    by_contra hle
    -- what follows the prefix is above the bound
    have ht := h.le_upper u rfl
    have hstart : t.take k.toNat = t := by
      refine le_antisymm (take_le _ _) (ht.trans (not_lt.1 hle))
    rw [hstart] at hpre
    omega
  · intro h
    refine ⟨take_le _ _, fun v hv => ?_, fun v hv s hs => ?_, fun v hv => ?_, fun _ => rfl⟩
    · exact Option.some.inj hv ▸ hcover t rfl h
    · exact Option.some.inj hv ▸ hcover s hs h
    · rw [← Option.some.inj hv, hu]
      omega

/-- Without a cut, or without a bound where all that is left is the largest. -/
theorem covers_none {top : α} {k : Int} {t l : List α} (hl : l ≤ t) (h : ∀ c ∈ t.take k.toNat, c = top) :
    Covers top k t l none where
  lower_le := hl
  le_upper _ hu := nomatch hu
  above _ hu := nomatch hu
  length_le _ hu := nomatch hu
  present := fun ⟨c, hc, hne⟩ => absurd (h c hc) hne

theorem covers_whole {top : α} {k : Int} {t : List α} (hk : ¬k ≤ 0) (hlen : (t.length : Int) ≤ k) (a : α) :
    Covers top k t (t.take k.toNat) (some t) ↔ (t.length : Int) ≠ k := by
  have hall : t.take k.toNat = t := List.take_of_length_le (by omega)
  constructor
  · intro h heq
    -- one character more, and the same prefix
    have hle : t ++ [a] ≤ t := by
      refine h.above t rfl (t ++ [a]) ?_
      rw [hall, ← heq]
      simp
    have hlt : t ++ [] < t ++ [a] := List.append_left_lt (List.nil_lt_cons _ _)
    rw [List.append_nil] at hlt
    exact absurd hle (not_le.2 hlt)
  · intro hne
    refine ⟨take_le _ _, fun u hu => (Option.some.inj hu).le, fun u hu s hs => ?_, fun u hu => ?_, fun _ => rfl⟩
    · rw [← Option.some.inj hu]
      rw [hall] at hs
      have hshort : s.length ≤ k.toNat := by
        have := congrArg List.length hs
        rw [List.length_take] at this
        omega
      rw [List.take_of_length_le hshort] at hs
      exact hs.le
    · rw [← Option.some.inj hu]
      omega

end

/-! ## Bytes, rounded up -/

scoped instance linearOrderUInt8 : LinearOrder UInt8 where
  le_refl := UInt8.le_refl
  le_trans _ _ _ := UInt8.le_trans
  le_antisymm _ _ := UInt8.le_antisymm
  le_total := UInt8.le_total
  lt_iff_le_not_ge a b := by
    rw [UInt8.lt_iff_toNat_lt, UInt8.le_iff_toNat_le, UInt8.le_iff_toNat_le]
    omega
  toDecidableLE := inferInstance

theorem bumpLastByte.go_spec {b : ByteString} {k : Nat} (hk : k ≤ b.length) :
    (bumpLastByte.go b k = none → ∀ c ∈ b.take k, c = 0xFF) ∧
      ∀ u, bumpLastByte.go b k = some u → b < u ∧ u.length = b.length := by
  induction k with
  | zero => exact ⟨fun _ c hc => absurd hc List.not_mem_nil, fun u hu => by cases hu⟩
  | succ k ih =>
    have hget : b.getD k 0 = b[k] := (List.getElem_eq_getD 0).symm
    rw [bumpLastByte.go, hget]
    split_ifs with hc
    · obtain ⟨hnone, hsome⟩ := ih (Nat.le_of_succ_le hk)
      refine ⟨fun h c hmem => ?_, hsome⟩
      rw [List.take_succ_eq_append_getElem hk, List.mem_append, List.mem_singleton] at hmem
      rcases hmem with hmem | rfl
      · exact hnone h c hmem
      · exact hc
    · refine ⟨fun h => (nomatch h), fun u hu => ?_⟩
      obtain rfl := Option.some.inj hu
      have hsplit : b = b.take k ++ b[k] :: b.drop (k + 1) := by simp
      have hlt : b[k] < b[k] + 1 := by
        have hne : b[k].toNat ≠ 255 := fun h => hc (UInt8.toNat_inj.1 h)
        have := b[k].toNat_lt
        rw [UInt8.lt_iff_toNat_lt, UInt8.toNat_add]
        simp
        omega
      constructor
      · conv_lhs => rw [hsplit]
        rw [List.append_assoc]
        exact List.append_left_lt (List.cons_lt_cons_iff.2 (.inl hlt))
      · simp only [List.length_append, List.length_take, List.length_singleton, List.length_replicate]
        omega

theorem bumpLastByte_spec (b : ByteString) : (bumpLastByte b = none → ∀ c ∈ b, c = 0xFF) ∧
    ∀ u, bumpLastByte b = some u → b < u ∧ u.length = b.length := by
  rw [bumpLastByte]
  split_ifs with h
  · rw [List.isEmpty_iff.1 h]
    exact ⟨fun _ c hc => absurd hc List.not_mem_nil, fun u hu => by cases hu⟩
  · have hgo := bumpLastByte.go_spec (Nat.le_refl b.length)
    rwa [List.take_length] at hgo

/-- **Bytes are covered**, but for the longer ones that start with a bound of exactly the length. -/
theorem bytes_covers_iff (k : Int) (b : ByteString) :
    Covers 0xFF k b (truncateLowerBytes k b) (truncateUpperBytes k b) ↔ k ≤ 0 ∨ (b.length : Int) ≠ k := by
  by_cases hk : k ≤ 0
  · refine iff_of_true ?_ (.inl hk)
    rw [truncateLowerBytes, if_pos hk, truncateUpperBytes, if_pos hk]
    refine covers_none (not_lt.1 (List.not_lt_nil _)) fun c hc => ?_
    rw [Int.toNat_of_nonpos hk] at hc
    exact absurd hc List.not_mem_nil
  · rw [truncateLowerBytes, if_neg hk, truncateUpperBytes, if_neg hk, or_iff_right hk]
    split_ifs with hlen
    · exact covers_whole hk hlen 0
    · have hne : (b.length : Int) ≠ k := fun h => hlen h.le
      refine iff_of_true ?_ hne
      obtain ⟨hnone, hsome⟩ := bumpLastByte_spec (b.take k.toNat)
      cases hb : bumpLastByte (b.take k.toNat) with
      | none => exact covers_none (take_le _ _) (hnone hb)
      | some u =>
        obtain ⟨hlt, hlen'⟩ := hsome u hb
        refine (covers_iff hk hlen ?_).2 hlt
        rw [hlen', List.length_take]
        omega

/-! ## Strings, rounded up -/

section

variable {α : Type} (zero : α)

/-- What the carry through `m` largest characters makes of the characters before them. -/
def carried : Nat → List α → List α
  | 0, q => q
  | m + 1, q => (zero :: carried m q).reverse

attribute [grind =] carried

theorem carried_add_two (m : Nat) (q : List α) : carried zero (m + 2) q = zero :: (carried zero m q ++ [zero]) := by
  simp [carried]

theorem carried_even (i : Nat) (q : List α) :
    carried zero (2 * i) q = List.replicate i zero ++ (q ++ List.replicate i zero) := by
  induction i with
  | zero => simp [carried]
  | succ i ih =>
    rw [Nat.mul_succ, carried_add_two, ih, List.replicate_succ]
    simp [← List.replicate_succ', List.replicate_succ]

/-- An odd number of times turns the characters round. -/
theorem carried_odd (i : Nat) (q : List α) :
    carried zero (2 * i + 1) q = (List.replicate i zero ++ q.reverse) ++ List.replicate (i + 1) zero := by
  rw [carried, carried_even, List.reverse_cons, List.reverse_append, List.reverse_append, List.reverse_replicate,
    List.append_assoc, ← List.replicate_succ']

variable [LinearOrder α] {zero} {top : α}

theorem lt_replicate_top (htop : ∀ a, a ≤ top) {l : List α} (h : ∃ x ∈ l, x ≠ top) :
    l < List.replicate l.length top := by
  induction l with
  | nil =>
    obtain ⟨x, hx, -⟩ := h
    exact absurd hx List.not_mem_nil
  | cons a l ih =>
    rw [List.length_cons, List.replicate_succ, List.cons_lt_cons_iff]
    rcases (htop a).lt_or_eq with hlt | rfl
    · exact .inl hlt
    · obtain ⟨x, hx, hne⟩ := h
      exact .inr ⟨rfl, ih ⟨x, (List.mem_cons.1 hx).resolve_left hne, hne⟩⟩

/-- An even number of times, but none, puts zeros first, and they are below what was there. -/
theorem even_below (hz : ∀ a, zero ≤ a) (htop : ∀ a, a ≤ top) (hzt : zero < top) (i : Nat) (p : List α) (c c' : α) :
    List.replicate (i + 1) zero ++ ((p ++ [c']) ++ List.replicate (i + 1) zero) <
      (p ++ [c]) ++ List.replicate (2 * (i + 1)) top := by
  induction p with
  | nil =>
    rw [List.replicate_succ, List.nil_append, List.nil_append, List.cons_append, List.singleton_append,
      List.singleton_append, List.cons_lt_cons_iff]
    rcases (hz c).lt_or_eq with hlt | rfl
    · exact .inl hlt
    · refine .inr ⟨rfl, ?_⟩
      have hlt := lt_replicate_top htop (l := List.replicate i zero ++ ([c'] ++ zero :: List.replicate i zero))
        ⟨zero, by simp, hzt.ne⟩
      have hlen : (List.replicate i zero ++ ([c'] ++ zero :: List.replicate i zero)).length = 2 * (i + 1) := by
        simp only [List.length_append, List.length_replicate, List.length_nil, List.length_cons]
        omega
      rwa [hlen] at hlt
  | cons x p ih =>
    -- a zero in front is moved behind the others
    have hmove : List.replicate (i + 1) zero ++ ((zero :: p ++ [c']) ++ List.replicate (i + 1) zero) =
        zero :: (List.replicate (i + 1) zero ++ ((p ++ [c']) ++ List.replicate (i + 1) zero)) := by
      rw [List.cons_append, List.cons_append, List.append_cons, ← List.replicate_succ', List.replicate_succ,
        List.cons_append]
    rcases (hz x).lt_or_eq with hlt | rfl
    · rw [List.replicate_succ, List.cons_append]
      exact List.cons_lt_cons_iff.2 (.inl hlt)
    · rw [hmove, List.cons_append, List.cons_append, List.cons_lt_cons_iff]
      exact .inr ⟨rfl, ih⟩

/-- **The carried characters are above the prefix** where nothing was carried, or where they were turned round an odd
    number of times and are above it so. -/
theorem lt_carried_iff (hz : ∀ a, zero ≤ a) (htop : ∀ a, a ≤ top) (hzt : zero < top) (m : Nat) (p : List α) {c c' : α}
    (hc : c < c') : (p ++ [c]) ++ List.replicate m top < carried zero m (p ++ [c']) ↔
      m = 0 ∨ m % 2 = 1 ∧ p ++ [c] < (List.replicate (m / 2) zero ++ (p ++ [c']).reverse).take (p ++ [c]).length := by
  obtain ⟨i, rfl | rfl⟩ : ∃ i, m = 2 * i ∨ m = 2 * i + 1 := ⟨m / 2, by omega⟩
  · cases i with
    | zero =>
      refine iff_of_true ?_ (.inl rfl)
      rw [carried_even]
      simp only [Nat.mul_zero, List.replicate_zero, List.nil_append, List.append_nil]
      exact List.append_left_lt (List.cons_lt_cons_iff.2 (.inl hc))
    | succ i =>
      rw [carried_even]
      refine iff_of_false (lt_asymm (even_below hz htop hzt i p c c')) ?_
      omega
  · have hhalf : (2 * i + 1) / 2 = i := by omega
    rw [carried_odd, hhalf]
    generalize hX : List.replicate i zero ++ (p ++ [c']).reverse = X
    have hlen : X.length = i + (p ++ [c]).length := by rw [← hX]; simp
    generalize hP : p ++ [c] = P at hlen
    rw [← List.take_append_drop P.length X, List.append_assoc, append_lt_append_iff (by rw [List.length_take]; omega)]
    have hrest : ¬List.replicate (2 * i + 1) top < X.drop P.length ++ List.replicate (i + 1) zero := by
      have hlt := lt_replicate_top htop (l := X.drop P.length ++ List.replicate (i + 1) zero) ⟨zero, by simp, hzt.ne⟩
      have hlen' : (X.drop P.length ++ List.replicate (i + 1) zero).length = 2 * i + 1 := by
        rw [List.length_append, List.length_drop, List.length_replicate]
        omega
      rw [hlen'] at hlt
      exact lt_asymm hlt
    rw [List.take_append_drop]
    constructor
    · rintro (h | ⟨-, h⟩)
      · exact .inr ⟨by omega, h⟩
      · exact absurd h hrest
    · rintro (h | ⟨-, h⟩)
      · omega
      · exact .inl h

end

def maxChar : Char := Char.ofNat 0x10FFFF

/-- The character that takes the place of `c`. -/
def bumpChar (c : Char) : Char := safe (c.toNat + 1)

theorem safe_toNat (c : Char) : safe c.toNat = c := by
  have hval : c.toNat.isValidChar := c.valid
  rw [safe, if_pos hval]
  exact Char.ofNat_toNat c

theorem pack_toNat (t : Text) : pack (t.map Char.toNat) = t := by
  rw [pack, List.map_map]
  exact (List.map_congr_left fun c _ => safe_toNat c).trans t.map_id

theorem toNat_safe {n : Nat} (h : n.isValidChar) : (safe n).toNat = n := by
  rw [safe, if_pos h, Char.ofNat, dif_pos h]
  rfl

theorem le_maxChar (c : Char) : c ≤ maxChar := by
  have hmax : maxChar.toNat = 0x10FFFF := by decide
  have hval := c.valid
  show c.toNat ≤ maxChar.toNat
  rw [hmax]
  rcases hval with h | h
  · exact (show c.toNat < 55296 from h).le.trans (by decide)
  · exact Nat.le_of_lt_succ (show c.toNat < 1114112 from h.2)

theorem zero_le_char (c : Char) : '\x00' ≤ c := Nat.zero_le c.toNat

theorem toNat_lt_max {c : Char} (h : c ≠ maxChar) : c.toNat < 0x10FFFF := by
  have hle : c.toNat ≤ maxChar.toNat := le_maxChar c
  have hmax : maxChar.toNat = 0x10FFFF := by decide
  have hne : c.toNat ≠ maxChar.toNat := fun heq => h (Char.toNat_inj.1 heq)
  omega

/-- The surrogates are skipped. -/
theorem lt_bumpChar {c : Char} (h : c ≠ maxChar) : c < bumpChar c := by
  have hlt := toNat_lt_max h
  show c.toNat < (bumpChar c).toNat
  rw [bumpChar]
  by_cases hval : (c.toNat + 1).isValidChar
  · rw [toNat_safe hval]
    exact Nat.lt_succ_self _
  · rw [safe, if_neg hval]
    have hrep : ('\uFFFD' : Char).toNat = 0xFFFD := by decide
    have hc : c.toNat < 55296 ∨ 57343 < c.toNat ∧ c.toNat < 1114112 := c.valid
    have hsur : ¬(c.toNat + 1 < 55296 ∨ 57343 < c.toNat + 1 ∧ c.toNat + 1 < 1114112) := hval
    rw [hrep]
    omega

/-! ### Carries -/

theorem go_carried (m : Nat) {c : Nat} (hc : c < 0x10FFFF) (rest : List Nat) :
    bumpLastChar.go (List.replicate m 0x10FFFF ++ c :: rest) = some (carried 0 m (rest.reverse ++ [c + 1])) := by
  induction m with
  | zero =>
    rw [List.replicate_zero, List.nil_append, bumpLastChar.go, if_neg (by omega), List.reverse_cons]
    rfl
  | succ m ih =>
    rw [List.replicate_succ, List.cons_append, bumpLastChar.go, if_pos (Nat.le_refl _), ih]
    rfl

theorem go_none (m : Nat) : bumpLastChar.go (List.replicate m 0x10FFFF) = none := by
  induction m with
  | zero => rfl
  | succ m ih => rw [List.replicate_succ, bumpLastChar.go, if_pos (Nat.le_refl _), ih]

@[simp] theorem length_carried {α : Type} (zero : α) (m : Nat) (q : List α) :
    (carried zero m q).length = q.length + m := by
  induction m with
  | zero => rfl
  | succ m ih => rw [carried, List.length_reverse, List.length_cons, ih, Nat.add_assoc]

theorem map_carried {α β : Type} (f : α → β) (zero : α) (m : Nat) (q : List α) :
    (carried zero m q).map f = carried (f zero) m (q.map f) := by
  induction m with
  | zero => rfl
  | succ m ih => rw [carried, List.map_reverse, List.map_cons, ih, carried]

/-- The number of largest characters at the end, and what is before them, turned round. -/
def trailing (t : Text) : Nat := (t.reverse.takeWhile (· = maxChar)).length

def beforeTrailing (t : Text) : Text := t.reverse.dropWhile (· = maxChar)

theorem reverse_split (t : Text) : t.reverse = List.replicate (trailing t) maxChar ++ beforeTrailing t := by
  have hlast : ∀ c ∈ t.reverse.takeWhile (· = maxChar), c = maxChar := fun c hc =>
    of_decide_eq_true (List.mem_takeWhile_imp (p := fun c => decide (c = maxChar)) hc)
  have hall : t.reverse.takeWhile (· = maxChar) = List.replicate (trailing t) maxChar :=
    List.eq_replicate_iff.2 ⟨rfl, hlast⟩
  rw [← hall, beforeTrailing, List.takeWhile_append_dropWhile]

theorem beforeTrailing_head {t : Text} {c : Char} {rest : Text} (h : beforeTrailing t = c :: rest) : c ≠ maxChar := by
  have hne : t.reverse.dropWhile (· = maxChar) ≠ [] := by
    rw [show t.reverse.dropWhile (· = maxChar) = beforeTrailing t from rfl, h]
    exact List.cons_ne_nil _ _
  have hhead := List.head_dropWhile_not (fun x => decide (x = maxChar)) hne
  have hc : (t.reverse.dropWhile (· = maxChar)).head hne = c := by
    simp only [show t.reverse.dropWhile (· = maxChar) = beforeTrailing t from rfl, h, List.head_cons]
  rw [hc] at hhead
  exact of_decide_eq_false hhead

/-- What the first characters become. -/
theorem bumpLastChar_eq (t : Text) : (bumpLastChar (t.map Char.toNat)).map pack =
    match beforeTrailing t with
    | [] => none
    | c :: rest => some (carried '\x00' (trailing t) (rest.reverse ++ [bumpChar c])) := by
  have hmax : maxChar.toNat = 0x10FFFF := by decide
  rw [bumpLastChar, ← List.map_reverse, reverse_split, List.map_append, List.map_replicate, hmax]
  cases h : beforeTrailing t with
  | nil =>
    rw [List.map_nil, List.append_nil, go_none]
    rfl
  | cons c rest =>
    rw [List.map_cons, go_carried _ (toNat_lt_max (beforeTrailing_head h))]
    refine congrArg some ?_
    rw [pack, map_carried, List.map_append, List.map_reverse]
    exact congrArg (fun q => carried _ _ (q.reverse ++ _)) (pack_toNat rest)

/-- Where the carry is right: there is none, or nothing to carry into, or an odd number of carries turns the other
    characters round to something above them. -/
def carryFits (t : Text) : Prop :=
  beforeTrailing t = [] ∨ trailing t = 0 ∨ trailing t % 2 = 1 ∧ (beforeTrailing t).reverse <
    (List.replicate (trailing t / 2) '\x00' ++ (beforeTrailing t).modifyHead bumpChar).take (beforeTrailing t).length

/-- **Strings are covered** where the carry is right, but for the longer ones that start with a bound of exactly
    the length. -/
theorem string_covers_iff (k : Int) (t : Text) :
    Covers maxChar k t (truncateLowerString k t) (truncateUpperString k t) ↔
      k ≤ 0 ∨ (t.length : Int) < k ∨ k < t.length ∧ carryFits (t.take k.toNat) := by
  by_cases hk : k ≤ 0
  · refine iff_of_true ?_ (.inl hk)
    rw [truncateLowerString, if_pos hk, truncateUpperString, if_pos hk]
    refine covers_none (not_lt.1 (List.not_lt_nil _)) fun c hc => ?_
    rw [Int.toNat_of_nonpos hk] at hc
    exact absurd hc List.not_mem_nil
  · rw [truncateLowerString, if_neg hk, truncateUpperString, if_neg hk, or_iff_right hk]
    by_cases hlen : (t.length : Int) ≤ k
    · rw [if_pos hlen, covers_whole hk hlen maxChar]
      omega
    · rw [if_neg hlen]
      have hlong : k < t.length := not_le.1 hlen
      rw [or_iff_right (by omega), and_iff_right hlong]
      generalize hpre : t.take k.toNat = pre
      have hprelen : pre.length = k.toNat := by
        rw [← hpre, List.length_take]
        omega
      have hcode := bumpLastChar_eq pre
      have hsplit : pre = (beforeTrailing pre).reverse ++ List.replicate (trailing pre) maxChar := by
        rw [← List.reverse_replicate, ← List.reverse_append, ← reverse_split, List.reverse_reverse]
      cases h : beforeTrailing pre with
      | nil =>
        rw [h] at hcode hsplit
        have hnone : bumpLastChar (pre.map Char.toNat) = none := Option.map_eq_none_iff.1 hcode
        simp only [hnone]
        refine iff_of_true ?_ (.inl h)
        subst hpre
        refine covers_none (take_le _ _) fun c hc => ?_
        rw [hsplit] at hc
        exact List.eq_of_mem_replicate (by simpa using hc)
      | cons c rest =>
        rw [h] at hcode hsplit
        obtain ⟨bumped, hb, hbumped⟩ := Option.map_eq_some_iff.1 hcode
        simp only [hb, hbumped]
        have hc := lt_bumpChar (beforeTrailing_head h)
        subst hpre
        have hlist : t.take k.toNat = (rest.reverse ++ [c]) ++ List.replicate (trailing (t.take k.toNat)) maxChar := by
          rw [← List.reverse_cons]
          exact hsplit
        have hrev : (rest.reverse ++ [bumpChar c]).reverse = bumpChar c :: rest := by simp
        have hback : rest.reverse ++ [c] = (c :: rest).reverse := List.reverse_cons.symm
        have hlast := lt_carried_iff zero_le_char le_maxChar (by decide) (trailing (t.take k.toNat)) rest.reverse hc
        rw [← hlist, hrev, hback, List.length_reverse] at hlast
        have hlength :
            (carried '\x00' (trailing (t.take k.toNat)) (rest.reverse ++ [bumpChar c])).length = k.toNat := by
          have hsame := congrArg List.length hlist
          rw [hprelen, List.length_append, List.length_append, List.length_replicate] at hsame
          rw [length_carried, List.length_append]
          exact hsame.symm
        rw [covers_iff hk hlen hlength, hlast, carryFits, h, or_iff_right (List.cons_ne_nil _ _), List.modifyHead_cons]

/-! ## The main result -/

/-- **The bound values that are faithful.**  A decimal is, unless it is positive and fills its bytes up to the sign
    bit, or is the least of its width; the bounds of a text and of bytes are, unless they have exactly the
    length, or, for a text, the carry goes wrong. -/
theorem bounds_faithful_iff (n k : Int) (t : Text) (b : ByteString) :
    (FaithfulDecimal n ↔ ∀ k : Nat, ¬(128 * 256 ^ k ≤ n ∧ n < 256 ^ (k + 1)) ∧ n ≠ -(128 * 256 ^ k)) ∧
    (Covers maxChar k t (truncateLowerString k t) (truncateUpperString k t) ↔
      k ≤ 0 ∨ (t.length : Int) < k ∨ k < t.length ∧ carryFits (t.take k.toNat)) ∧
    (Covers 0xFF k b (truncateLowerBytes k b) (truncateUpperBytes k b) ↔ k ≤ 0 ∨ (b.length : Int) ≠ k) :=
  ⟨faithfulDecimal_iff n, string_covers_iff k t, bytes_covers_iff k b⟩

/-- The decimal 128 is read back as -128, and the bound of "zab" and the largest character, cut to four characters, is
    below the text. -/
theorem bound_excludes_value : decodeDecimal (encodeDecimal 128) = .ok (-128) ∧ ¬FaithfulDecimal 128 ∧
    truncateUpperString 4 ['z', 'a', 'b', maxChar, 'x'] = some ['c', 'a', 'z', '\x00'] ∧
    ¬Covers maxChar 4 ['z', 'a', 'b', maxChar, 'x'] (truncateLowerString 4 ['z', 'a', 'b', maxChar, 'x'])
      (truncateUpperString 4 ['z', 'a', 'b', maxChar, 'x']) := by
  have hcode : encodeDecimal 128 = [128] := by
    have h0 : unrollPositive [] (128 : Int).toNat = [128] := by
      rw [unrollPositive_pos (by decide)]
      simp
    rw [encodeDecimal, if_neg (by decide), if_pos (by decide), h0]
    rfl
  have hdec : decodeDecimal (encodeDecimal 128) = .ok (-128) := by
    rw [hcode]
    rfl
  have hupper : truncateUpperString 4 ['z', 'a', 'b', maxChar, 'x'] = some ['c', 'a', 'z', '\x00'] := by decide
  refine ⟨hdec, fun h => ?_, hupper, fun h => ?_⟩
  · rw [h.decodes] at hdec
    cases hdec
  · exact absurd (h.le_upper _ hupper) (by decide)

end Wireform.Iceberg

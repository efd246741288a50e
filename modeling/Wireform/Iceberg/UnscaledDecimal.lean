/-
  Unscaled decimals of bounds (`encodeDecimal` in `Iceberg.SingleValue`).

  * `encodeDecimal`: bytes of the magnitude, inverted and incremented for a negative number;
  * `beValue_addOne`, `beValue_negate`: the inverted bytes plus one count down from the top;
  * `signedValue_encode_neg`: a negative number is read back;
  * `faithfulDecimal_iff`: the numbers that are read back from their shortest form.
-/
import Wireform.Iceberg.SingleValue
import Wireform.TwosComplement

namespace Wireform.Iceberg

/-! ## The code -/

/-- The bytes of a magnitude, before `acc`. -/
def unrollPositive (acc : ByteString) (x : Nat) : ByteString :=
  if x = 0 then acc else unrollPositive (UInt8.ofNat (x &&& 0xFF) :: acc) (x >>> 8)
termination_by x
decreasing_by
  rw [Nat.shiftRight_eq_div_pow]
  omega

attribute [grind =] unrollPositive

def stripPositive : ByteString → ByteString
  | b :: c :: rest => if b = 0 ∧ c < 0x80 then stripPositive (c :: rest) else b :: c :: rest
  | bs => bs

/-- One byte more where the first one has the sign bit. -/
def neededWidth (x : Nat) : Nat :=
  let bs := unrollPositive [] x
  let msb := bs.headD 0
  if 0x80 ≤ msb then bs.length + 1 else bs.length

def padTo (w : Nat) (bs : ByteString) : ByteString :=
  if w ≤ bs.length then bs else List.replicate (w - bs.length) 0 ++ bs

/-- Adds the carry to bytes, the low one first. -/
def goCarry : Bool → ByteString → Bool × ByteString
  | c, [] => (c, [])
  | false, xs => (false, xs)
  | true, x :: xs =>
    let s := x.toNat + 1
    let (rest, ys) := goCarry (decide (256 ≤ s)) xs
    (rest, UInt8.ofNat (s % 256) :: ys)

def addOne (bs : ByteString) : ByteString :=
  let (carried, bytes) := goCarry true bs.reverse
  if carried then 1 :: bytes.reverse else bytes.reverse

def ensureNegativeSign : ByteString → ByteString
  | h :: bs => if h < 0x80 then 0xFF :: h :: bs else h :: bs
  | [] => []

def encodeDecimal (n : Int) : ByteString :=
  if n = 0 then [0]
  else if 0 < n then
    let bsTrim := stripPositive (unrollPositive [] n.toNat)
    if bsTrim.isEmpty then [0] else bsTrim
  else
    let m := (-n).toNat
    let unsigned := padTo (neededWidth m) (unrollPositive [] m)
    let inverted := unsigned.map fun b => ~~~b
    ensureNegativeSign (addOne inverted)

/-! ## Magnitudes -/

theorem unrollPositive_eq (acc : ByteString) (x : Nat) : unrollPositive acc x = unrollPositive [] x ++ acc := by
  induction x using Nat.strongRecOn generalizing acc with
  | ind x ih =>
    rw [unrollPositive, unrollPositive.eq_def [] x]
    split_ifs with h
    · rfl
    · have hlt : x >>> 8 < x := by
        rw [Nat.shiftRight_eq_div_pow]
        omega
      rw [ih _ hlt, ih _ hlt [_], List.append_assoc]
      rfl

/-- The low byte comes last. -/
theorem unrollPositive_pos {x : Nat} (h : 0 < x) :
    unrollPositive [] x = unrollPositive [] (x / 256) ++ [UInt8.ofNat (x % 256)] := by
  have hlow : x &&& 0xFF = x % 256 := Nat.and_two_pow_sub_one_eq_mod x 8
  rw [unrollPositive, if_neg h.ne', unrollPositive_eq, hlow, Nat.shiftRight_eq_div_pow]

@[simp] theorem unrollPositive_zero : unrollPositive [] 0 = [] := by
  rw [unrollPositive, if_pos rfl]

theorem beValue_unroll (x : Nat) : beValue (unrollPositive [] x) = x := by
  induction x using Nat.strongRecOn with
  | ind x ih =>
    rcases Nat.eq_zero_or_pos x with rfl | h
    · simp
    · rw [unrollPositive_pos h, beValue_snoc, ih _ (by omega), UInt8.toNat_ofNat']
      omega

/-- The first byte of a magnitude is not zero. -/
theorem unroll_head {x : Nat} (h : 0 < x) : ∃ b bs, unrollPositive [] x = b :: bs ∧ b ≠ 0 := by
  induction x using Nat.strongRecOn with
  | ind x ih =>
    rw [unrollPositive_pos h]
    rcases Nat.eq_zero_or_pos (x / 256) with hq | hq
    · rw [hq, unrollPositive_zero]
      refine ⟨_, [], rfl, fun heq => ?_⟩
      have hval := congrArg UInt8.toNat heq
      rw [UInt8.toNat_ofNat'] at hval
      have : x % 256 = 0 := by simpa using hval
      omega
    · obtain ⟨b, bs, hbs, hb⟩ := ih _ (by omega) hq
      exact ⟨b, bs ++ [_], by rw [hbs]; rfl, hb⟩

variable {bs : ByteString} {b : UInt8} {m : Nat}

theorem beValue_head_le (hb : b ≠ 0) (bs : ByteString) : 256 ^ bs.length ≤ beValue (b :: bs) := by
  have hpos : 1 ≤ b.toNat := Nat.pos_of_ne_zero fun h => hb (UInt8.toNat_inj.1 h)
  rw [beValue_cons]
  calc 256 ^ bs.length = 1 * 256 ^ bs.length := (one_mul _).symm
    _ ≤ b.toNat * 256 ^ bs.length := Nat.mul_le_mul_right _ hpos
    _ ≤ _ := Nat.le_add_right _ _

theorem stripPositive_of_head (hb : b ≠ 0) (bs : ByteString) : stripPositive (b :: bs) = b :: bs := by
  cases bs with
  | nil => rfl
  | cons c cs =>
    rw [stripPositive, if_neg]
    exact fun h => hb h.1

/-! ## Decoding -/

theorem readLE_eq (bs : ByteString) : readLE bs = leValue bs := by
  induction bs with
  | nil => rfl
  | cons b bs ih =>
    rw [leValue_cons, ← ih]
    rfl

/-- Decoding is reading in two's complement. -/
theorem decodeDecimal_cons (b : UInt8) (bs : ByteString) : decodeDecimal (b :: bs) = .ok (signedValue (b :: bs)) := by
  have hread : readLE (b :: bs).reverse = beValue (b :: bs) := readLE_eq _
  rw [decodeDecimal, signedValue_eq_beValue, hread]
  by_cases hb : highBit b = true
  · have h80 : 0x80 ≤ b.toNat := (highBit_iff b).1 hb
    have hpow : (2 : Int) ^ (8 * (bs.length + 1)) = 256 ^ (bs.length + 1) := by
      rw [pow_mul]
      norm_num
    simp only [if_pos h80, if_pos hb, hpow]
  · have h80 : ¬0x80 ≤ b.toNat := fun h => hb ((highBit_iff b).2 h)
    simp only [if_neg h80, if_neg hb]
    simp

theorem decodeDecimal_ok {n : Int} (h : decodeDecimal bs = .ok n) : bs ≠ [] ∧ signedValue bs = n := by
  cases bs with
  | nil => cases h
  | cons b bs =>
    rw [decodeDecimal_cons] at h
    exact ⟨List.cons_ne_nil _ _, Except.ok.inj h⟩

/-! ## Negation -/

theorem toNat_complement (b : UInt8) : (~~~b).toNat = 255 - b.toNat := by
  have h := UInt8.toNat_not b
  rw [h]
  rfl

theorem beValue_complement (bs : ByteString) : beValue (bs.map fun b => ~~~b) = 256 ^ bs.length - 1 - beValue bs := by
  induction bs with
  | nil => rfl
  | cons b bs ih =>
    have hb := b.toNat_lt
    have hv := beValue_lt bs
    rw [List.map_cons, beValue_cons, beValue_cons, ih, List.length_map, toNat_complement, List.length_cons, pow_succ,
      Nat.sub_mul]
    have hle : b.toNat * 256 ^ bs.length ≤ 255 * 256 ^ bs.length := Nat.mul_le_mul_right _ (by omega)
    omega

/-- The carry goes up to the first byte that is not the largest. -/
theorem leValue_goCarry (bs : ByteString) : (goCarry true bs).2.length = bs.length ∧
    leValue (goCarry true bs).2 + (if (goCarry true bs).1 then 256 ^ bs.length else 0) = leValue bs + 1 := by
  induction bs with
  | nil => exact ⟨rfl, rfl⟩
  | cons b bs ih =>
    have hb := b.toNat_lt
    rw [goCarry]
    by_cases h : 256 ≤ b.toNat + 1
    · have hb' : b.toNat = 255 := by omega
      have hbyte : (UInt8.ofNat ((b.toNat + 1) % 256)).toNat = 0 := by rw [hb']; rfl
      simp only [decide_eq_true h, List.length_cons, leValue_cons, hbyte, pow_succ]
      refine ⟨congrArg (· + 1) ih.1, ?_⟩
      have hih := ih.2
      split_ifs at hih ⊢ with hc
      · omega
      · omega
    · have hbyte : (UInt8.ofNat ((b.toNat + 1) % 256)).toNat = b.toNat + 1 := by
        rw [UInt8.toNat_ofNat', Nat.mod_mod, Nat.mod_eq_of_lt (by omega)]
      have hrest : goCarry false bs = (false, bs) := by cases bs <;> rfl
      simp only [decide_eq_false h, hrest, List.length_cons, leValue_cons, hbyte, Bool.false_eq_true, if_false]
      exact ⟨trivial, by omega⟩

theorem beValue_addOne (bs : ByteString) (h : beValue bs + 1 < 256 ^ bs.length) :
    beValue (addOne bs) = beValue bs + 1 ∧ (addOne bs).length = bs.length := by
  obtain ⟨hlen, hval⟩ := leValue_goCarry bs.reverse
  rw [List.length_reverse] at hlen hval
  have hbe : leValue bs.reverse = beValue bs := rfl
  have hno : (goCarry true bs.reverse).1 = false := by
    rw [← Bool.not_eq_true]
    intro hc
    rw [if_pos hc, hbe] at hval
    omega
  rw [hno, hbe] at hval
  unfold addOne
  simp only [hno, Bool.false_eq_true, if_false, List.length_reverse]
  refine ⟨?_, hlen⟩
  rw [beValue, List.reverse_reverse]
  exact hval

/-- **Inverting and adding one counts down from the top.** -/
theorem beValue_negate (bs : ByteString) (h : 0 < beValue bs) :
    beValue (addOne (bs.map fun b => ~~~b)) = 256 ^ bs.length - beValue bs ∧
      (addOne (bs.map fun b => ~~~b)).length = bs.length := by
  have hlt := beValue_lt bs
  have hinv := beValue_complement bs
  obtain ⟨hval, hlen⟩ := beValue_addOne (bs.map fun b => ~~~b) (by rw [hinv, List.length_map]; omega)
  rw [List.length_map] at hlen
  refine ⟨?_, hlen⟩
  rw [hval, hinv]
  omega

theorem highBit_iff_value (b : UInt8) (bs : ByteString) :
    highBit b = true ↔ 128 * 256 ^ bs.length ≤ beValue (b :: bs) := by
  have hv := beValue_lt bs
  rw [highBit_iff, beValue_cons]
  constructor
  · intro h
    exact (Nat.mul_le_mul_right _ h).trans (Nat.le_add_right _ _)
  · intro h
    by_contra hlt
    have : (b.toNat + 1) * 256 ^ bs.length ≤ 128 * 256 ^ bs.length := Nat.mul_le_mul_right _ (by omega)
    rw [Nat.succ_mul] at this
    omega

theorem ensureNegativeSign_of_high (hb : highBit b = true) (bs : ByteString) :
    ensureNegativeSign (b :: bs) = b :: bs := by
  have h80 : ¬b < 0x80 := Nat.not_lt.2 ((highBit_iff b).1 hb)
  rw [ensureNegativeSign, if_neg h80]

/-- The width in which a magnitude is negated leaves the sign bit free. -/
theorem padded (h : unrollPositive [] m = b :: bs) :
    padTo (neededWidth m) (b :: bs) = if highBit b then 0 :: b :: bs else b :: bs := by
  rw [neededWidth, h]
  by_cases hb : highBit b = true
  · have h80 : (0x80 : UInt8) ≤ b := (highBit_iff b).1 hb
    simp [padTo, hb, h80]
  · have h80 : ¬(0x80 : UInt8) ≤ b := fun h => hb ((highBit_iff b).2 h)
    simp [padTo, hb, h80]

/-- **A negative number is read back**, from as many bytes as its magnitude and one more where that has the
    sign bit. -/
theorem encode_neg (hm : 0 < m) (h : unrollPositive [] m = b :: bs) :
    ∃ c cs, encodeDecimal (-m) = c :: cs ∧ signedValue (c :: cs) = -m ∧ highBit c = true ∧
      cs.length = if highBit b then bs.length + 1 else bs.length := by
  have hval : beValue (b :: bs) = m := by rw [← h, beValue_unroll]
  have hlt : m < 256 ^ (bs.length + 1) := hval ▸ beValue_lt (b :: bs)
  obtain ⟨unsigned, hunsigned, hvalue, hlen, hfree⟩ : ∃ u, padTo (neededWidth m) (b :: bs) = u ∧ beValue u = m ∧
      u.length = (if highBit b then bs.length + 1 else bs.length) + 1 ∧
      m ≤ 128 * 256 ^ (if highBit b then bs.length + 1 else bs.length) := by
    refine ⟨_, padded h, ?_⟩
    by_cases hb : highBit b = true
    · simp only [if_pos hb]
      refine ⟨?_, rfl, ?_⟩
      · rw [beValue_cons, hval]
        simp
      · omega
    · simp only [if_neg hb]
      refine ⟨hval, rfl, ?_⟩
      have := mt (highBit_iff_value b bs).2 hb
      omega
  obtain ⟨hneg, hneglen⟩ := beValue_negate unsigned (by omega)
  generalize hw : (if highBit b then bs.length + 1 else bs.length) = w at hlen hfree ⊢
  have hcode : encodeDecimal (-m) = ensureNegativeSign (addOne (unsigned.map fun b => ~~~b)) := by
    have h0 : ¬(-(m : Int)) = 0 := by omega
    have hnn : ¬(0 : Int) < -(m : Int) := by omega
    have hnat : (-(-(m : Int))).toNat = m := by omega
    rw [encodeDecimal, if_neg h0, if_neg hnn]
    simp only [hnat, h, hunsigned]
  cases hN : addOne (unsigned.map fun b => ~~~b) with
  | nil =>
    rw [hN] at hneglen
    simp only [List.length_nil] at hneglen
    omega
  | cons c cs =>
    rw [hN, hlen, List.length_cons] at hneglen
    obtain rfl : cs.length = w := by omega
    rw [hN, hvalue, hlen] at hneg
    have hpow : 256 ^ (cs.length + 1) = 256 * 256 ^ cs.length := by ring
    have hpos : 0 < 256 ^ cs.length := by positivity
    have hc : highBit c = true := by
      rw [highBit_iff_value, hneg, hpow]
      omega
    refine ⟨c, cs, by rw [hcode, hN, ensureNegativeSign_of_high hc], ?_, hc, rfl⟩
    rw [signedValue_eq_beValue, if_pos hc, hneg]
    have hle : m ≤ 256 ^ (cs.length + 1) := by omega
    push_cast [Nat.cast_sub hle]
    ring

/-! ## Shortest forms -/

theorem redundant_iff (b c : UInt8) (bs : ByteString) : Redundant (b :: c :: bs) ↔
    -(128 * 256 ^ bs.length) ≤ signedValue (b :: c :: bs) ∧ signedValue (b :: c :: bs) < 128 * 256 ^ bs.length := by
  constructor
  · intro h
    rw [signedValue_redundant h]
    exact signedValue_bounds c bs
  · rintro ⟨hlow, hhigh⟩
    by_contra h
    obtain ⟨hneg, hnn⟩ := signedValue_wide h
    cases hb : highBit b with
    | true => exact absurd hlow (not_le.2 (hneg hb))
    | false => exact absurd hhigh (not_lt.2 (hnn hb))

/-- No shorter bytes have the value, where the first one does not only repeat the sign. -/
theorem shortest_iff :
    (∀ ds : ByteString, ds ≠ [] → signedValue ds = signedValue (b :: bs) → (b :: bs).length ≤ ds.length) ↔
      ¬Redundant (b :: bs) := by
  constructor
  · intro h hr
    cases bs with
    | nil => exact hr
    | cons c cs =>
      have := h (c :: cs) (List.cons_ne_nil _ _) (signedValue_redundant hr).symm
      simp at this
  · intro h ds hds heq
    cases ds with
    | nil => exact absurd rfl hds
    | cons d ds =>
      by_contra hlt
      simp only [List.length_cons, not_le, Nat.add_lt_add_iff_right] at hlt
      obtain ⟨hneg, hnn⟩ := signedValue_longer (d := d) h hlt
      cases hb : highBit b with
      | true => exact absurd heq (hneg hb).ne'
      | false => exact absurd heq (hnn hb).ne

/-- The number is read back from its bytes, and from no fewer. -/
structure FaithfulDecimal (n : Int) : Prop where
  decodes : decodeDecimal (encodeDecimal n) = .ok n
  shortest : ∀ bs, decodeDecimal bs = .ok n → (encodeDecimal n).length ≤ bs.length

theorem faithfulDecimal_of {n : Int} (h : encodeDecimal n = b :: bs) :
    FaithfulDecimal n ↔ signedValue (b :: bs) = n ∧ ¬Redundant (b :: bs) := by
  constructor
  · rintro ⟨hdec, hshort⟩
    rw [h] at hdec hshort
    have hval := (decodeDecimal_ok hdec).2
    refine ⟨hval, shortest_iff.1 fun ds hds heq => hshort ds ?_⟩
    cases ds with
    | nil => exact absurd rfl hds
    | cons d ds => rw [decodeDecimal_cons, heq, hval]
  · rintro ⟨hval, hred⟩
    refine ⟨by rw [h, decodeDecimal_cons, hval], fun ds hds => ?_⟩
    obtain ⟨hne, heq⟩ := decodeDecimal_ok hds
    rw [h]
    exact shortest_iff.2 hred ds hne (heq.trans hval.symm)

/-- A number is between the powers of its length only. -/
theorem power_unique {m k l : Nat} (hk : 256 ^ k ≤ m) (hk' : m < 256 ^ (k + 1)) (hl : 256 ^ l ≤ m)
    (hl' : m < 256 ^ (l + 1)) : k = l := by
  have hkl : k < l + 1 := (Nat.pow_lt_pow_iff_right (by decide)).1 (hk.trans_lt hl')
  have hlk : l < k + 1 := (Nat.pow_lt_pow_iff_right (by decide)).1 (hl.trans_lt hk')
  omega

/-- The bytes of a magnitude, and the powers of 256 around it. -/
theorem unroll_bounds (h : 0 < m) : ∃ b bs, unrollPositive [] m = b :: bs ∧ b ≠ 0 ∧ beValue (b :: bs) = m ∧
    256 ^ bs.length ≤ m ∧ m < 256 ^ (bs.length + 1) := by
  obtain ⟨b, bs, hbs, hb⟩ := unroll_head h
  have hval : beValue (b :: bs) = m := by rw [← hbs, beValue_unroll]
  refine ⟨b, bs, hbs, hb, hval, ?_, ?_⟩
  · exact hval ▸ beValue_head_le hb bs
  · exact hval ▸ beValue_lt (b :: bs)

/-- A positive number is faithful where its first byte has no sign bit. -/
theorem faithfulDecimal_pos (h : 0 < m) :
    FaithfulDecimal m ↔ ∀ k, ¬(128 * 256 ^ k ≤ m ∧ m < 256 ^ (k + 1)) := by
  obtain ⟨b, bs, hbs, hb, hval, hlow, hhigh⟩ := unroll_bounds h
  have hcode : encodeDecimal m = b :: bs := by
    have h0 : ¬(m : Int) = 0 := by omega
    have hpos : (0 : Int) < m := by omega
    rw [encodeDecimal, if_neg h0, if_pos hpos]
    simp [hbs, stripPositive_of_head hb]
  have hsign : signedValue (b :: bs) = m ↔ highBit b = false := by
    rw [signedValue_eq_beValue, hval]
    cases highBit b <;> simp
  have hred : highBit b = false → ¬Redundant (b :: bs) := by
    intro hb' hr
    cases bs with
    | nil => exact hr
    | cons c cs =>
      rcases hr with ⟨h0, -⟩ | ⟨rfl, -⟩
      · exact hb h0
      · exact absurd hb' (by decide)
  rw [faithfulDecimal_of hcode, hsign, and_iff_left_of_imp hred, ← Bool.not_eq_true, highBit_iff_value, hval]
  constructor
  · rintro hn k ⟨hk, hk'⟩
    obtain rfl := power_unique (le_trans (Nat.le_mul_of_pos_left _ (by decide)) hk) hk' hlow hhigh
    exact hn hk
  · exact fun hn hle => hn _ ⟨hle, hhigh⟩

/-- A negative number is faithful where its magnitude is no power of two with the sign bit alone. -/
theorem faithfulDecimal_neg (h : 0 < m) : FaithfulDecimal (-m) ↔ ∀ k, m ≠ 128 * 256 ^ k := by
  obtain ⟨b, bs, hbs, hb, hval, hlow, hhigh⟩ := unroll_bounds h
  obtain ⟨c, cs, hcode, hsign, hc, hlen⟩ := encode_neg h hbs
  rw [faithfulDecimal_of hcode, and_iff_right hsign]
  have hiff := highBit_iff_value b bs
  rw [hval] at hiff
  have hpower : ∀ k, m = 128 * 256 ^ k → k = bs.length := by
    intro k hk
    refine power_unique ?_ ?_ hlow hhigh
    · exact hk ▸ Nat.le_mul_of_pos_left _ (by decide)
    · rw [hk, pow_succ]
      have : 0 < 256 ^ k := by positivity
      omega
  cases cs with
  | nil =>
    -- one byte: the magnitude is at most 128, and 128 takes two bytes
    have hb' : highBit b = false := by
      by_contra hb'
      rw [if_pos (by simpa using hb')] at hlen
      simp at hlen
    refine iff_of_true (fun hr => hr) fun k hk => ?_
    obtain rfl := hpower k hk
    exact absurd (hiff.2 hk.ge) (by simp [hb'])
  | cons d ds =>
    -- the second byte repeats the sign where the magnitude fits below it
    have hcast : (-(128 * 256 ^ ds.length) ≤ (-m : Int) ∧ (-m : Int) < 128 * 256 ^ ds.length) ↔
        m ≤ 128 * 256 ^ ds.length := by
      constructor
      · rintro ⟨hle, -⟩
        have : (m : Int) ≤ 128 * 256 ^ ds.length := by omega
        exact_mod_cast this
      · intro hle
        have : (m : Int) ≤ 128 * 256 ^ ds.length := by exact_mod_cast hle
        exact ⟨by omega, by omega⟩
    rw [redundant_iff, hsign, hcast]
    rw [List.length_cons] at hlen
    cases hb' : highBit b with
    | true =>
      rw [hb', if_pos rfl] at hlen
      have hds : ds.length = bs.length := by omega
      have hge := hiff.1 hb'
      rw [hds]
      constructor
      · intro hn k hk
        obtain rfl := hpower k hk
        exact hn hk.le
      · exact fun hn hle => hn _ (le_antisymm hle hge)
    | false =>
      rw [hb', if_neg Bool.false_ne_true] at hlen
      refine iff_of_true (fun hle => ?_) fun k hk => ?_
      · have hpow : 256 ^ bs.length = 256 * 256 ^ ds.length := by
          rw [← hlen]
          ring
        have hpos : 0 < 256 ^ ds.length := by positivity
        omega
      · obtain rfl := hpower k hk
        exact absurd (hiff.2 hk.ge) (by simp [hb'])

/-- **The numbers that are faithful**: none that fills its bytes up to the sign bit, and no negated power of two
    that is the least of its width. -/
theorem faithfulDecimal_iff (n : Int) :
    FaithfulDecimal n ↔ ∀ k : Nat, ¬(128 * 256 ^ k ≤ n ∧ n < 256 ^ (k + 1)) ∧ n ≠ -(128 * 256 ^ k) := by
  have hpos (k : Nat) : (0 : Int) < 128 * 256 ^ k := by positivity
  rcases lt_trichotomy n 0 with h | rfl | h
  · obtain ⟨m, rfl⟩ : ∃ m : Nat, n = -m := ⟨n.natAbs, by omega⟩
    rw [faithfulDecimal_neg (by omega)]
    refine forall_congr' fun k => ?_
    have hnn : ¬(128 * 256 ^ k ≤ -(m : Int) ∧ -(m : Int) < 256 ^ (k + 1)) := by
      have := hpos k
      omega
    rw [and_iff_right hnn, Ne, Ne, neg_inj]
    norm_cast
  · have hzero : encodeDecimal 0 = [0] := rfl
    refine iff_of_true ((faithfulDecimal_of hzero).2 ⟨rfl, id⟩) fun k => ?_
    have := hpos k
    exact ⟨fun hk => by omega, by omega⟩
  · obtain ⟨m, rfl⟩ : ∃ m : Nat, n = m := ⟨n.toNat, by omega⟩
    rw [faithfulDecimal_pos (by omega)]
    refine forall_congr' fun k => ?_
    have hneg : (m : Int) ≠ -(128 * 256 ^ k) := by
      have := hpos k
      omega
    rw [and_iff_left hneg]
    norm_cast

end Wireform.Iceberg

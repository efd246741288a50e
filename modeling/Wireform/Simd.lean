/-
  The sixteen-lane vector operations that the C kernels use, on lists of
  sixteen bytes, least lane first.
-/
import Mathlib.Tactic.Ring

namespace Wireform.Simd

/-! ## Operations -/

/-- `simde_mm_set1_epi32`: the four bytes of `w`, least first, four times. -/
def set1Epi32 (w : UInt32) : List UInt8 :=
  (List.replicate 4 [w.toUInt8, (w >>> 8).toUInt8, (w >>> 16).toUInt8, (w >>> 24).toUInt8]).flatten

/-- `simde_mm_set1_epi8`. -/
def set1Epi8 (b : UInt8) : List UInt8 := List.replicate 16 b

/-- `simde_mm_shuffle_epi8`. -/
def shuffleEpi8 (a idx : List UInt8) : List UInt8 :=
  idx.map fun k => if k &&& 0x80 ≠ 0 then 0 else a.getD (k &&& 0x0F).toNat 0

/-- `simde_mm_and_si128`. -/
def andSi128 (a b : List UInt8) : List UInt8 := List.zipWith (· &&& ·) a b

/-- `simde_mm_or_si128`. -/
def orSi128 (a b : List UInt8) : List UInt8 := List.zipWith (· ||| ·) a b

/-- The lanes of sixteen bits. -/
def epi16 : List UInt8 → List Nat
  | lo :: hi :: rest => (lo.toNat + 256 * hi.toNat) :: epi16 rest
  | _ => []

/-- The bytes of such lanes. -/
def ofEpi16 : List Nat → List UInt8
  | [] => []
  | w :: ws => UInt8.ofNat (w % 256) :: UInt8.ofNat (w / 256) :: ofEpi16 ws

/-- `simde_mm_mulhi_epu16`. -/
def mulhiEpu16 (a b : List UInt8) : List UInt8 :=
  ofEpi16 (List.zipWith (fun x y => x * y / 2 ^ 16) (epi16 a) (epi16 b))

/-- `simde_mm_mullo_epi16`. -/
def mulloEpi16 (a b : List UInt8) : List UInt8 :=
  ofEpi16 (List.zipWith (fun x y => x * y % 2 ^ 16) (epi16 a) (epi16 b))

/-- `simde_mm_subs_epu8`, on one lane. -/
def subsU8 (x y : UInt8) : UInt8 := if x < y then 0 else x - y

/-- `simde_mm_cmpgt_epi8`, on one lane: a signed comparison. -/
def cmpgtI8 (x y : UInt8) : UInt8 := if x.toInt8 > y.toInt8 then 0xFF else 0

/-- `simde_mm_movemask_epi8`: the high bits of the sixteen lanes. -/
def movemask (lanes : List UInt8) : Nat :=
  lanes.foldr (fun (b : UInt8) mask => (b >>> 7).toNat + 2 * mask) 0

/-! ## Lemmas -/

theorem forall_byte {p : UInt8 → Prop} (h : ∀ n < 256, p (UInt8.ofNat n)) (b : UInt8) : p b := by
  have := h b.toNat b.toNat_lt
  rwa [UInt8.ofNat_toNat] at this

/-- Sixteen bytes at a time. -/
theorem forall_byte_by_pieces {p : UInt8 → Prop} (h : ∀ k < 16, ∀ n < 16, p (UInt8.ofNat (16 * k + n))) :
    ∀ b, p b :=
  forall_byte fun n hn => by
    have := h (n / 16) (by omega) (n % 16) (Nat.mod_lt _ (by decide))
    rwa [Nat.div_add_mod] at this

/-- A lane of the mask. -/
theorem movemask_eq_zero : ∀ {lanes : List UInt8}, movemask lanes = 0 → ∀ b ∈ lanes, b < 0x80
  | [], _, b, hb => by cases hb
  | l :: lanes, h, b, hb => by
    have hcons : movemask (l :: lanes) = (l >>> 7).toNat + 2 * movemask lanes := rfl
    rw [hcons] at h
    rcases List.mem_cons.1 hb with rfl | hb
    · have hz : (b >>> 7).toNat = 0 := by omega
      rw [UInt8.toNat_shiftRight, show (7 : UInt8).toNat % 8 = 7 from rfl,
        Nat.shiftRight_eq_div_pow] at hz
      rw [UInt8.lt_iff_toNat_lt]
      show b.toNat < 128
      omega
    · exact movemask_eq_zero (by omega) b hb

/-- No lane has its high bit set. -/
theorem movemask_of_ascii : ∀ {lanes : List UInt8}, (∀ b ∈ lanes, b < 0x80) → movemask lanes = 0
  | [], _ => rfl
  | l :: lanes, h => by
    have hcons : movemask (l :: lanes) = (l >>> 7).toNat + 2 * movemask lanes := rfl
    have hl : l.toNat < 128 := h l List.mem_cons_self
    rw [hcons, movemask_of_ascii fun b hb => h b (List.mem_cons_of_mem l hb), UInt8.toNat_shiftRight,
      show (7 : UInt8).toNat % 8 = 7 from rfl, Nat.shiftRight_eq_div_pow]
    omega

end Wireform.Simd

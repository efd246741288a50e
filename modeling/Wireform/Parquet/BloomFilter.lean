/-
  Split-block bloom filters.

  * `Sbbf`: blocks of four words; the number of blocks and of words agree;
  * `sbbfInsertHash`, `sbbfCheckHash`: both go by the block and the eight bits of a hash;
  * `sbbfCheck_insertAll`: what was inserted is found, whatever was inserted with it.

  The hash of a byte string is a parameter.
-/
import Mathlib.Data.List.Basic
import Mathlib.Tactic.Ring

namespace Wireform.Parquet

/-! ## Filters -/

def saltForLane : Nat → UInt32
  | 0 => 0x47b6137b
  | 1 => 0x44974d91
  | 2 => 0x8824ad5b
  | 3 => 0xa2b7289d
  | 4 => 0x705495c7
  | 5 => 0x2df1424b
  | 6 => 0x9efc4947
  | _ => 0x5c6bfb31

def largestBitset : Nat := 0x7fffffff - 31

structure Sbbf where
  sbbfBlocks : Nat
  sbbfData : List UInt64
  positive : 0 < sbbfBlocks
  size : sbbfData.length = sbbfBlocks * 4
  bounded : sbbfBlocks * 32 ≤ largestBitset

def blockIndex (h : UInt64) (blocks : Nat) : Nat := (((h >>> 32) * UInt64.ofNat blocks) >>> 32).toNat

def maskBitForLane (x : UInt32) (lane : Nat) : UInt32 := (1 : UInt32) <<< ((x * saltForLane lane) >>> 27)

/-- The bits of two lanes, as one word. -/
def lanePair (value : UInt32) (low high : Nat) : UInt64 :=
  (maskBitForLane value low).toUInt64 ||| (maskBitForLane value high).toUInt64 <<< 32

def applyLanePair (bitsetWords : List UInt64) (value : UInt32) (index low high : Nat) : List UInt64 :=
  bitsetWords.set index (bitsetWords.getD index 0 ||| lanePair value low high)

def updateBlock (bitsetWords : List UInt64) (block : Nat) (value : UInt32) : List UInt64 :=
  let base := block * 4
  let words0 := applyLanePair bitsetWords value (base + 0) 0 1
  let words1 := applyLanePair words0 value (base + 1) 2 3
  let words2 := applyLanePair words1 value (base + 2) 4 5
  applyLanePair words2 value (base + 3) 6 7

def laneOk (ws : List UInt64) (base : Nat) (x : UInt32) (lo hi : Nat) : Bool :=
  ws.getD (base + lo / 2) 0 &&& lanePair x lo hi = lanePair x lo hi

def checkBlock (ws : List UInt64) (block : Nat) (x : UInt32) : Bool :=
  let base := block * 4
  laneOk ws base x 0 1 && laneOk ws base x 2 3 && laneOk ws base x 4 5 && laneOk ws base x 6 7

@[simp] theorem length_applyLanePair (ws : List UInt64) (x : UInt32) (i lo hi : Nat) :
    (applyLanePair ws x i lo hi).length = ws.length := List.length_set

@[simp] theorem length_updateBlock (ws : List UInt64) (block : Nat) (x : UInt32) :
    (updateBlock ws block x).length = ws.length := by
  simp [updateBlock]

def sbbfInsertHash (h : UInt64) (sbbf : Sbbf) : Sbbf :=
  { sbbf with
    sbbfData := updateBlock sbbf.sbbfData (blockIndex h sbbf.sbbfBlocks) h.toUInt32
    size := by rw [length_updateBlock, sbbf.size] }

def sbbfCheckHash (h : UInt64) (sbbf : Sbbf) : Bool :=
  checkBlock sbbf.sbbfData (blockIndex h sbbf.sbbfBlocks) h.toUInt32

section

variable (xxh64 : List UInt8 → UInt64)

def sbbfInsert (bytes : List UInt8) : Sbbf → Sbbf := sbbfInsertHash (xxh64 bytes)

def sbbfCheck (bytes : List UInt8) : Sbbf → Bool := sbbfCheckHash (xxh64 bytes)

end

/-! ## What a filter holds -/

theorem and_or_left {c p : UInt64} (q : UInt64) (h : c &&& p = p) : (c ||| q) &&& p = p := by
  apply UInt64.toBitVec_inj.1
  have hb := congrArg UInt64.toBitVec h
  simp only [UInt64.toBitVec_and, UInt64.toBitVec_or] at hb ⊢
  ext i hi
  have hbit := congrArg (fun v => v.getLsbD i) hb
  rw [BitVec.getLsbD_and, BitVec.getLsbD_eq_getElem hi, BitVec.getLsbD_eq_getElem hi] at hbit
  rw [BitVec.getElem_and, BitVec.getElem_or]
  cases hc : c.toBitVec[i] <;> cases hp : p.toBitVec[i] <;> simp_all

theorem or_and_self (c p : UInt64) : (c ||| p) &&& p = p := by
  apply UInt64.toBitVec_inj.1
  simp only [UInt64.toBitVec_and, UInt64.toBitVec_or]
  ext i hi
  simp only [BitVec.getElem_and, BitVec.getElem_or]
  cases p.toBitVec[i] <;> simp

/-- Every bit of one list of words is in the other. -/
def Within (ws ws' : List UInt64) : Prop :=
  ∀ i p, ws.getD i 0 &&& p = p → ws'.getD i 0 &&& p = p

theorem Within.trans {ws ws' ws'' : List UInt64} (h : Within ws ws') (h' : Within ws' ws'') : Within ws ws'' :=
  fun i p hp => h' i p (h i p hp)

theorem within_applyLanePair (ws : List UInt64) (x : UInt32) (i lo hi : Nat) :
    Within ws (applyLanePair ws x i lo hi) := by
  intro j p hp
  unfold applyLanePair
  by_cases hj : j = i ∧ i < ws.length
  · obtain ⟨rfl, hlt⟩ := hj
    rw [List.getD_eq_getElem?_getD, List.getElem?_set_self hlt]
    exact and_or_left _ hp
  · rw [List.getD_eq_getElem?_getD, List.getElem?_set]
    rw [List.getD_eq_getElem?_getD] at hp
    split
    · rename_i heq
      rw [if_neg (by omega)]
      rwa [← heq, List.getElem?_eq_none (by omega)] at hp
    · exact hp

theorem within_updateBlock (ws : List UInt64) (block : Nat) (x : UInt32) : Within ws (updateBlock ws block x) :=
  ((within_applyLanePair ws x _ 0 1).trans (within_applyLanePair _ x _ 2 3)).trans
    ((within_applyLanePair _ x _ 4 5).trans (within_applyLanePair _ x _ 6 7))

theorem laneOk_mono {ws ws' : List UInt64} {base : Nat} {x : UInt32} {lo hi : Nat} (h : Within ws ws')
    (hl : laneOk ws base x lo hi = true) : laneOk ws' base x lo hi = true :=
  decide_eq_true (h _ _ (of_decide_eq_true hl))

theorem laneOk_applyLanePair {ws : List UInt64} {base : Nat} (x : UInt32) (lo hi : Nat) (h : base + lo / 2 < ws.length) :
    laneOk (applyLanePair ws x (base + lo / 2) lo hi) base x lo hi = true := by
  refine decide_eq_true ?_
  rw [applyLanePair, List.getD_eq_getElem?_getD, List.getElem?_set_self h]
  exact or_and_self _ _

theorem checkBlock_mono {ws ws' : List UInt64} {block : Nat} {x : UInt32} (h : Within ws ws')
    (hc : checkBlock ws block x = true) : checkBlock ws' block x = true := by
  simp only [checkBlock, Bool.and_eq_true] at hc ⊢
  obtain ⟨⟨⟨h0, h1⟩, h2⟩, h3⟩ := hc
  exact ⟨⟨⟨laneOk_mono h h0, laneOk_mono h h1⟩, laneOk_mono h h2⟩, laneOk_mono h h3⟩

theorem checkBlock_updateBlock {ws : List UInt64} {block : Nat} (x : UInt32) (h : block * 4 + 3 < ws.length) :
    checkBlock (updateBlock ws block x) block x = true := by
  simp only [checkBlock, Bool.and_eq_true, updateBlock]
  refine ⟨⟨⟨?_, ?_⟩, ?_⟩, ?_⟩
  · have h0 : laneOk (applyLanePair ws x (block * 4 + 0) 0 1) (block * 4) x 0 1 = true :=
      laneOk_applyLanePair x 0 1 (by omega)
    exact laneOk_mono (((within_applyLanePair _ x _ 2 3).trans (within_applyLanePair _ x _ 4 5)).trans
      (within_applyLanePair _ x _ 6 7)) h0
  · have h1 : ∀ us : List UInt64, us.length = ws.length →
        laneOk (applyLanePair us x (block * 4 + 1) 2 3) (block * 4) x 2 3 = true :=
      fun us hl => laneOk_applyLanePair x 2 3 (by omega)
    exact laneOk_mono ((within_applyLanePair _ x _ 4 5).trans (within_applyLanePair _ x _ 6 7)) (h1 _ (by simp))
  · have h2 : ∀ us : List UInt64, us.length = ws.length →
        laneOk (applyLanePair us x (block * 4 + 2) 4 5) (block * 4) x 4 5 = true :=
      fun us hl => laneOk_applyLanePair x 4 5 (by omega)
    exact laneOk_mono (within_applyLanePair _ x _ 6 7) (h2 _ (by simp))
  · have h3 : ∀ us : List UInt64, us.length = ws.length →
        laneOk (applyLanePair us x (block * 4 + 3) 6 7) (block * 4) x 6 7 = true :=
      fun us hl => laneOk_applyLanePair x 6 7 (by omega)
    exact h3 _ (by simp)

theorem blockIndex_lt (h : UInt64) (sbbf : Sbbf) : blockIndex h sbbf.sbbfBlocks < sbbf.sbbfBlocks := by
  have hpos := sbbf.positive
  have hle := sbbf.bounded
  unfold largestBitset at hle
  have htop : (h >>> 32).toNat < 2 ^ 32 := by
    rw [UInt64.toNat_shiftRight, Nat.shiftRight_eq_div_pow]
    exact Nat.div_lt_of_lt_mul h.toNat_lt
  have hb : (UInt64.ofNat sbbf.sbbfBlocks).toNat = sbbf.sbbfBlocks := by
    rw [UInt64.toNat_ofNat', Nat.mod_eq_of_lt (by omega)]
  have hprod : (h >>> 32).toNat * sbbf.sbbfBlocks < 2 ^ 64 :=
    calc _ ≤ 2 ^ 32 * sbbf.sbbfBlocks := Nat.mul_le_mul_right _ htop.le
      _ < 2 ^ 64 := by omega
  rw [blockIndex, UInt64.toNat_shiftRight, UInt64.toNat_mul, hb, Nat.mod_eq_of_lt hprod,
    Nat.shiftRight_eq_div_pow]
  refine Nat.div_lt_of_lt_mul ?_
  exact Nat.mul_lt_mul_of_pos_right htop hpos

theorem sbbfCheckHash_insert (h : UInt64) (sbbf : Sbbf) : sbbfCheckHash h (sbbfInsertHash h sbbf) = true := by
  have hlt := blockIndex_lt h sbbf
  refine checkBlock_updateBlock _ ?_
  rw [sbbf.size]
  omega

theorem sbbfCheckHash_mono {h : UInt64} (h' : UInt64) {sbbf : Sbbf} (hc : sbbfCheckHash h sbbf = true) :
    sbbfCheckHash h (sbbfInsertHash h' sbbf) = true :=
  checkBlock_mono (within_updateBlock _ _ _) hc

section

variable (xxh64 : List UInt8 → UInt64)

/-- A filter into which the values of a column were inserted, one after the other. -/
def insertAll (start : Sbbf) (values : List (List UInt8)) : Sbbf :=
  values.foldl (fun sbbf bytes => sbbfInsert xxh64 bytes sbbf) start

theorem sbbfCheck_insertAll_start {bytes : List UInt8} {start : Sbbf} (values : List (List UInt8))
    (h : sbbfCheck xxh64 bytes start = true) : sbbfCheck xxh64 bytes (insertAll xxh64 start values) = true := by
  induction values generalizing start with
  | nil => exact h
  | cons v vs ih => exact ih (sbbfCheckHash_mono _ h)

/-- **What was inserted is found.** -/
theorem sbbfCheck_insertAll {bytes : List UInt8} {values : List (List UInt8)} (start : Sbbf) (h : bytes ∈ values) :
    sbbfCheck xxh64 bytes (insertAll xxh64 start values) = true := by
  induction values generalizing start with
  | nil => cases h
  | cons v vs ih =>
    rcases List.mem_cons.1 h with rfl | h
    · exact sbbfCheck_insertAll_start xxh64 vs (sbbfCheckHash_insert _ _)
    · exact ih _ h

end

end Wireform.Parquet

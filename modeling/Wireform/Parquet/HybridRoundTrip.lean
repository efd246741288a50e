/-
  Hybrid streams, from the values and back.

  * `Planned`: a plan has the size of the stream that is written for it, unless this is not
    addressable;
  * `planRLEHybrid_planned`, `planRepeatedRLEHybrid_planned`: so are the plans of the writer;
  * `planRLEHybrid_refuses`: a value above the maximum is found, wherever it is;
  * `hybrid_round_trip`: what is written is read back, and every prefix of it.
-/
import Wireform.Parquet.HybridStreams

namespace Wireform.Parquet

/-! ## Plans -/

/-- A plan for the values, with the stream that is written for it. -/
def Planned (order : ByteOrder) (width : Nat) (result : Except String HybridPlan) (vs : List Int32) : Prop :=
  ∃ bytes body pad, pad < 8 ∧ Streams width bytes (vs ++ List.replicate pad 0) ∧
    encodeHybridInto order ⟨width, bytes.length, body⟩ = some bytes ∧
    result = if maxBound < bytes.length then .error exceedsAddressable else .ok ⟨width, bytes.length, body⟩

variable {order : ByteOrder} {width : Nat}

theorem planned_empty : Planned order width (.ok ⟨width, 0, .empty⟩) [] :=
  ⟨[], .empty, 0, by decide, Streams.nil, rfl, (if_neg (by decide)).symm⟩

theorem repeatedPlan_eq (order : ByteOrder) (hw : width ≤ 32) (v : Int32) (count : Nat) :
    repeatedPlan width count v.toUInt32 =
      if maxBound < (encodeRepeatedRuns order width v.toUInt32 count).length then .error exceedsAddressable
      else .ok ⟨width, (encodeRepeatedRuns order width v.toUInt32 count).length, .repeated count v.toUInt32⟩ := by
  rw [length_encodeRepeatedRuns order hw]
  rfl

theorem repeatedPlan_planned (hw : width ≤ 32) {v : Int32} (hv : bits v < 2 ^ width) (count : Nat) :
    Planned order width (repeatedPlan width count v.toUInt32) (List.replicate count v) := by
  refine ⟨encodeRepeatedRuns order width v.toUInt32 count, .repeated count v.toUInt32, 0, by decide, ?_, rfl,
    repeatedPlan_eq order hw v count⟩
  rw [List.replicate_zero, List.append_nil]
  exact encodeRepeatedRuns_streams order hw hv count

/-- The plan for values with a constant prefix. -/
theorem measureMixedHybrid_planned (hw : width ≤ 32) {values : List Int32} (hfits : ∀ v ∈ values, bits v < 2 ^ width)
    {firstDifferent : Nat} (hle : firstDifferent ≤ values.length)
    ( hprefix : values.take firstDifferent = List.replicate firstDifferent (values.headD 0)) :
    Planned order width (measureMixedHybrid width values firstDifferent) values := by
  unfold measureMixedHybrid
  by_cases hmany : minimumRepeatedValues width ≤ firstDifferent
  · have hpos : firstDifferent ≠ 0 := by
      have : 8 ≤ minimumRepeatedValues width := by unfold minimumRepeatedValues; split <;> decide
      omega
    obtain ⟨rest, hrest⟩ := mixedRuns order hw hfits (le_refl firstDifferent) hle (Or.inl (by rw [Nat.sub_self]))
    obtain ⟨pad, hstreams, hpad⟩ := hrest.streams
    have hv : bits (values.headD 0) < 2 ^ width := by
      cases values with
      | nil => exact absurd (Nat.le_zero.1 hle) hpos
      | cons v vs => exact hfits v (by simp)
    have happ := (encodeRepeatedRuns_streams order hw hv firstDifferent).append hstreams
    rw [← hprefix, ← List.append_assoc, List.take_append_drop] at happ
    refine ⟨_, .mixed values firstDifferent, pad, hpad, happ, ?_, ?_⟩
    · change encodeMixedRuns order width values firstDifferent = _
      unfold encodeMixedRuns
      rw [if_neg hpos, hrest.written]
      rfl
    · simp only [if_pos hmany, if_neg hpos]
      rw [withRepeatedSize_eq order hw (values.headD 0), Nat.zero_add, List.length_append]
      by_cases h1 : maxBound < (encodeRepeatedRuns order width (values.headD 0).toUInt32 firstDifferent).length
      · rw [if_pos h1, if_pos (by omega)]
        rfl
      · rw [if_neg h1, ok_bind]
        obtain ⟨body, hbody, hmeasure⟩ := hrest.measured firstDifferent _ true (Nat.not_lt.1 h1)
        rcases hbody with rfl | ⟨-, hfalse, -⟩
        · exact hmeasure
        · cases hfalse
  · obtain ⟨bytes, hbytes⟩ := mixedRuns order hw hfits (le_refl 0) (Nat.zero_le _) (Or.inl rfl)
    obtain ⟨pad, hstreams, hpad⟩ := hbytes.streams
    obtain ⟨body, hbody, hmeasure⟩ := hbytes.measured 0 0 false (Nat.zero_le _)
    refine ⟨bytes, body, pad, hpad, hstreams, ?_, ?_⟩
    · rcases hbody with rfl | ⟨rfl, -, hpacked⟩
      · exact hbytes.written
      · exact hpacked
    · simp only [if_neg hmany, if_true]
      rw [hmeasure, Nat.zero_add]

/-! ## Checks -/

theorem le_or_left (a b : UInt32) : a ≤ a ||| b := by
  rw [UInt32.le_iff_toNat_le, UInt32.toNat_or]
  exact Nat.left_le_or

theorem le_or_right (a b : UInt32) : b ≤ a ||| b := by
  rw [UInt32.le_iff_toNat_le, UInt32.toNat_or]
  exact Nat.right_le_or

/-- The bits of both halves of a word. -/
def lanes (w : UInt64) : UInt32 := w.toUInt32 ||| (w >>> 32).toUInt32

theorem lanes_or (a b : UInt64) : lanes (a ||| b) = lanes a ||| lanes b := by
  unfold lanes
  apply UInt32.toBitVec_inj.1
  ext i hi
  simp
  ac_rfl

theorem lanes_pair (a b : UInt32) : lanes (a.toUInt64 ||| b.toUInt64 <<< 32) = a ||| b := by
  unfold lanes
  apply UInt32.toBitVec_inj.1
  ext i hi
  simp [hi, show 32 + i < 64 by omega, show i < 64 by omega]

/-- Every value of an even number of them is in the lanes of a pair. -/
theorem pairs_cover (order : ByteOrder) : ∀ {vs : List Int32}, vs.length % 2 = 0 → ∀ v ∈ vs,
    ∃ w ∈ pairs order vs, v.toUInt32 ≤ lanes w
  | [], _, _, hv => by cases hv
  | [_], hlen, _, _ => by cases hlen
  | a :: b :: vs, hlen, v, hv => by
    have hpair : ∃ w, pairs order (a :: b :: vs) = w :: pairs order vs ∧ lanes w = a.toUInt32 ||| b.toUInt32 := by
      cases order with
      | littleEndian => exact ⟨_, rfl, lanes_pair _ _⟩
      | bigEndian => exact ⟨_, rfl, (lanes_pair _ _).trans (UInt32.or_comm _ _)⟩
    obtain ⟨w, hw, hlanes⟩ := hpair
    rw [hw]
    rcases List.mem_cons.1 hv with rfl | hv
    · exact ⟨w, by simp, hlanes ▸ le_or_left _ _⟩
    · rcases List.mem_cons.1 hv with rfl | hv
      · exact ⟨w, by simp, hlanes ▸ le_or_right _ _⟩
      · have hlen' : vs.length % 2 = 0 := by
          rw [List.length_cons, List.length_cons] at hlen
          omega
        obtain ⟨w', hw', hle⟩ := pairs_cover order hlen' v hv
        exact ⟨w', List.mem_cons_of_mem _ hw', hle⟩

theorem le_lanes_foldl {acc : UInt64} {ws : List UInt64} :
    lanes acc ≤ lanes (ws.foldl (· ||| ·) acc) ∧ ∀ w ∈ ws, lanes w ≤ lanes (ws.foldl (· ||| ·) acc) := by
  induction ws generalizing acc with
  | nil => exact ⟨UInt32.le_refl _, fun _ h => by cases h⟩
  | cons w ws ih =>
    obtain ⟨hacc, hws⟩ := @ih (acc ||| w)
    rw [lanes_or] at hacc
    refine ⟨UInt32.le_trans (le_or_left _ _) hacc, fun u hu => ?_⟩
    rcases List.mem_cons.1 hu with rfl | hu
    · exact UInt32.le_trans (le_or_right _ _) hacc
    · exact hws u hu

/-- Values that pass the mask together pass it one by one. -/
theorem valuesFitMask_sound {maximum : UInt32} {offset : Nat} {vs : List Int32}
    (h : valuesFitMask order maximum offset vs = true) : ∀ v ∈ vs, v.toUInt32 ≤ maximum := by
  intro v hv
  have hne : ¬vs.length = 0 := fun h0 => by rw [List.length_eq_zero_iff.1 h0] at hv; cases hv
  unfold valuesFitMask at h
  rw [if_neg hne] at h
  have hle := of_decide_eq_true h
  clear h
  refine UInt32.le_trans ?_ hle
  -- where the value stands: in front, among the pairs, or behind them
  have hsplit : vs = vs.take (offset % 2) ++ ((vs.drop (offset % 2)).take ((vs.length - offset % 2) / 2 * 2) ++
      (vs.drop (offset % 2)).drop ((vs.length - offset % 2) / 2 * 2)) := by
    rw [List.take_append_drop, List.take_append_drop]
  rw [hsplit] at hv
  rcases List.mem_append.1 hv with hfront | hv
  · have hstart : offset % 2 = 1 := by
      by_contra hno
      rw [show offset % 2 = 0 by omega] at hfront
      cases hfront
    rw [hstart] at hfront ⊢
    cases vs with
    | nil => cases hfront
    | cons u us =>
      obtain rfl : v = u := by simpa using hfront
      simp only [Nat.one_ne_zero, if_false, List.headD_cons]
      split
      · exact le_or_right _ _
      · exact UInt32.le_trans (le_or_right _ _) (le_or_left _ _)
  · rcases List.mem_append.1 hv with hmid | hback
    · have heven : ((vs.drop (offset % 2)).take ((vs.length - offset % 2) / 2 * 2)).length % 2 = 0 := by
        rw [List.length_take, List.length_drop]
        omega
      obtain ⟨w, hw, hle⟩ := pairs_cover order heven v hmid
      have hlanes := UInt32.le_trans hle ((@le_lanes_foldl 0 _).2 w hw)
      refine UInt32.le_trans hlanes ?_
      split
      · split
        · exact UInt32.le_refl _
        · exact le_or_left _ _
      · split
        · exact le_or_left _ _
        · exact UInt32.le_trans (le_or_left _ _) (le_or_left _ _)
    · have hbacklen : ((vs.drop (offset % 2)).drop ((vs.length - offset % 2) / 2 * 2)).length =
          (vs.length - offset % 2) % 2 := by
        rw [List.length_drop, List.length_drop]
        omega
      have hodd : ¬(vs.length - offset % 2) % 2 = 0 := fun h0 => by
        rw [h0] at hbacklen
        rw [List.length_eq_zero_iff.1 hbacklen] at hback
        cases hback
      obtain ⟨x, hx⟩ := List.length_eq_one_iff.1 (hbacklen.trans (Nat.mod_two_ne_zero.1 hodd))
      rw [hx, List.mem_singleton] at hback
      have hlast : vs.getLastD 0 = v := by
        rw [hsplit, hx, hback, ← List.append_assoc]
        simp
      simp only [if_neg hodd, hlast]
      exact le_or_right _ _

/-! ## The plans of the writer -/

/-- The values in range are found to be, and the rest of the check finds a repeated stream or where
    it ends. -/
theorem seekDifference_planned (hw : width ≤ 32) {mask maximum : UInt32} {vector : PrimVector}
    (hfits : ∀ v ∈ vector.values, bits v < 2 ^ width) (hmax : ∀ v ∈ vector.values, v.toUInt32 ≤ maximum) {first : Int32}
    {row : Nat} {vs : List Int32} (hrow : 0 < row) (hfirst : vector.values.headD 0 = first)
    (hvs : vector.values = List.replicate row first ++ vs) :
    Planned order width (planRLEHybrid.seekDifference order width mask maximum vector first row vs) vector.values := by
  have hmeasure (row : Nat) (vs : List Int32) (hvs : vector.values = List.replicate row first ++ vs) :
      Planned order width (measureMixedHybrid width vector.values row) vector.values := by
    refine measureMixedHybrid_planned hw hfits ?_ ?_
    · rw [hvs, List.length_append, List.length_replicate]
      exact Nat.le_add_right _ _
    · rw [hfirst, hvs, List.take_left' List.length_replicate]
  induction vs generalizing row with
  | nil =>
    rw [List.append_nil] at hvs
    have hlen : vector.values.length = row := by rw [hvs, List.length_replicate]
    rw [planRLEHybrid.seekDifference, hlen]
    have hv : bits first < 2 ^ width := hfits first (by rw [hvs]; exact List.mem_replicate.2 ⟨by omega, rfl⟩)
    have hplan := @repeatedPlan_planned order width hw first hv row
    rwa [← hvs] at hplan
  | cons v vs ih =>
    rw [planRLEHybrid.seekDifference]
    split
    · rename_i heq
      refine ih (Nat.succ_pos row) ?_
      rw [hvs, heq, List.replicate_succ', List.append_assoc]
      rfl
    · split
      · exact hmeasure row _ hvs
      · split
        · exact hmeasure row _ hvs
        · -- the rest is checked value by value, and nothing is out of range
          have hvalidate (r : Nat) (us : List Int32) (hus : ∀ u ∈ us, u.toUInt32 ≤ maximum) :
              planRLEHybrid.validate width maximum vector.values row r us = measureMixedHybrid width vector.values row := by
            induction us generalizing r with
            | nil => rfl
            | cons u us ihu =>
              rw [planRLEHybrid.validate, if_neg (UInt32.not_lt.2 (hus u (by simp)))]
              exact ihu _ fun u' hu' => hus u' (List.mem_cons_of_mem _ hu')
          rw [hvalidate row (v :: vs) fun u hu => hmax u (by rw [hvs]; exact List.mem_append_right _ hu)]
          exact hmeasure row _ hvs

theorem validate_refuses {maximum : UInt32} {values : List Int32} {firstDifferent row : Nat} {vs : List Int32}
    (h : ∃ v ∈ vs, maximum < v.toUInt32) : ∃ e, planRLEHybrid.validate width maximum values firstDifferent row vs = .error e := by
  induction vs generalizing row with
  | nil =>
    obtain ⟨v, hv, -⟩ := h
    cases hv
  | cons u us ih =>
    rw [planRLEHybrid.validate]
    split
    · exact ⟨_, rfl⟩
    · rename_i hle
      obtain ⟨v, hv, hlt⟩ := h
      rcases List.mem_cons.1 hv with rfl | hv
      · exact absurd hlt hle
      · exact ih ⟨v, hv, hlt⟩

theorem seekDifference_refuses {mask maximum : UInt32} {vector : PrimVector} {first : Int32} {row : Nat} {vs : List Int32}
    (hfirst : first.toUInt32 ≤ maximum) (h : ∃ v ∈ vs, maximum < v.toUInt32) :
    ∃ e, planRLEHybrid.seekDifference order width mask maximum vector first row vs = .error e := by
  induction vs generalizing row with
  | nil =>
    obtain ⟨v, hv, -⟩ := h
    cases hv
  | cons u us ih =>
    obtain ⟨v, hv, hlt⟩ := h
    rw [planRLEHybrid.seekDifference]
    split
    · rename_i heq
      rcases List.mem_cons.1 hv with rfl | hv
      · exact absurd hlt (UInt32.not_lt.2 (heq ▸ hfirst))
      · exact ih ⟨v, hv, hlt⟩
    · split
      · -- every pattern of bits is in range
        rename_i hall
        rw [hall, UInt32.lt_iff_toNat_lt] at hlt
        have hv32 := v.toUInt32.toNat_lt
        change 4294967295 < v.toUInt32.toNat at hlt
        omega
      · split
        · rename_i hfit
          have hsound := valuesFitMask_sound hfit.2 v hv
          rw [← hfit.1] at hsound
          exact absurd hlt (UInt32.not_lt.2 hsound)
        · exact validate_refuses ⟨v, hv, hlt⟩

/-! ### Widths -/

theorem widthMask_eq {w : Int} (h0 : 0 ≤ w) (h32 : w ≤ 32) : ∃ mask, widthMask w = .ok mask ∧ mask.toNat = 2 ^ w.toNat - 1 := by
  unfold widthMask
  rw [if_neg (by omega)]
  refine ⟨_, rfl, ?_⟩
  have hmask := @toNat_readMask w.toNat (by omega)
  have hle : 2 ^ w.toNat ≤ 2 ^ 32 := Nat.pow_le_pow_right (by decide) (by omega)
  change ((readMask w.toNat).toUInt32).toNat = _
  rw [UInt64.toNat_toUInt32, hmask]
  omega

theorem planRLEHybrid_planned {w : Int} (h0 : 0 ≤ w) (h32 : w ≤ 32) {maximum : UInt32} (hmaximum : maximum.toNat < 2 ^ w.toNat)
    {vector : PrimVector} (hmax : ∀ v ∈ vector.values, bits v ≤ maximum.toNat) :
    Planned order w.toNat (planRLEHybrid order w maximum vector) vector.values := by
  obtain ⟨mask, hmask, hmaskval⟩ := widthMask_eq h0 h32
  have hfits : ∀ v ∈ vector.values, bits v < 2 ^ w.toNat := fun v hv => (hmax v hv).trans_lt hmaximum
  have hle : ¬mask < maximum := by
    rw [UInt32.lt_iff_toNat_lt, hmaskval]
    omega
  unfold planRLEHybrid
  rw [hmask, ok_bind, if_neg hle]
  cases hvs : vector.values with
  | nil => exact planned_empty
  | cons first rest =>
    have hfirst : ¬maximum < first.toUInt32 := by
      rw [UInt32.lt_iff_toNat_lt]
      exact Nat.not_lt.2 (hmax first (by rw [hvs]; simp))
    simp only [hfirst, if_false]
    rw [← hvs]
    refine seekDifference_planned (by omega) hfits (fun v hv => UInt32.le_iff_toNat_le.2 (hmax v hv)) Nat.one_pos ?_ ?_
    · rw [hvs]
      rfl
    · rw [hvs]
      rfl

/-- **A value above the maximum is found.** -/
theorem planRLEHybrid_refuses (order : ByteOrder) (w : Int) {maximum : UInt32} {vector : PrimVector}
    (h : ∃ v ∈ vector.values, maximum.toNat < bits v) : ∃ e, planRLEHybrid order w maximum vector = .error e := by
  obtain ⟨v, hv, hlt⟩ := h
  unfold planRLEHybrid
  cases hmask : widthMask w with
  | error e => exact ⟨e, rfl⟩
  | ok mask =>
    rw [ok_bind]
    split
    · exact ⟨_, rfl⟩
    · cases hvs : vector.values with
      | nil => rw [hvs] at hv; cases hv
      | cons first rest =>
        simp only
        split
        · exact ⟨_, rfl⟩
        · rename_i hfirst
          rw [hvs] at hv
          rcases List.mem_cons.1 hv with rfl | hv
          · exact absurd (UInt32.lt_iff_toNat_lt.2 hlt) hfirst
          · exact seekDifference_refuses (UInt32.not_lt.1 hfirst) ⟨v, hv, UInt32.lt_iff_toNat_lt.2 hlt⟩

theorem planRepeatedRLEHybrid_planned {w count : Int} (h0 : 0 ≤ w) (h32 : w ≤ 32) (hcount : 0 ≤ count) {v : Int32}
    (hv : bits v < 2 ^ w.toNat) :
    Planned order w.toNat (planRepeatedRLEHybrid w count v.toUInt32) (List.replicate count.toNat v) := by
  obtain ⟨mask, hmask, hmaskval⟩ := widthMask_eq h0 h32
  unfold planRepeatedRLEHybrid
  rw [hmask, ok_bind, if_neg (by omega)]
  split
  · rename_i hzero
    rw [hzero]
    exact planned_empty
  · have hle : ¬mask < v.toUInt32 := by
      have hv' : v.toUInt32.toNat < 2 ^ w.toNat := hv
      rw [UInt32.lt_iff_toNat_lt, hmaskval]
      omega
    rw [if_neg hle]
    exact repeatedPlan_planned (by omega) hv count.toNat

/-! ## Round trips -/

theorem Planned.succeeds {result : Except String HybridPlan} {vs : List Int32} (hw : width ≤ 32)
    (h : Planned order width result vs) (hsmall : 9 * (vs.length + 7) ≤ maxBound) : ∃ plan, result = .ok plan := by
  obtain ⟨bytes, body, pad, hpad, hstreams, -, rfl⟩ := h
  have hlen := hstreams.length_le hw
  rw [List.length_append, List.length_replicate] at hlen
  exact ⟨_, if_neg (by omega)⟩

/-- The size of a repeated value is addressable for every count. -/
theorem length_encodeRepeatedRuns_le (order : ByteOrder) (hw : width ≤ 32) (v : Int32) {count : Nat}
    (hcount : count ≤ maxBound) : (encodeRepeatedRuns order width v.toUInt32 count).length ≤ maxBound := by
  rw [length_encodeRepeatedRuns order hw]
  have hrest : count % maxRepeatedValues < 2 ^ 31 := (Nat.mod_lt _ (by decide)).trans (by decide)
  have htail : varintSize (repeatedHeader (count % maxRepeatedValues)) ≤ 5 := by
    rw [varintSize_eq, toNat_repeatedHeader (by omega)]
    exact @length_leb128_le 4 _ (by omega)
  have hfull : count / maxRepeatedValues * (5 + (width + 7) / 8) ≤ count / maxRepeatedValues * 9 :=
    Nat.mul_le_mul_left _ (by omega)
  have hdiv : count / maxRepeatedValues ≤ maxBound / maxRepeatedValues := Nat.div_le_div_right hcount
  have hbound : maxBound / maxRepeatedValues * 9 + 9 ≤ maxBound := by decide
  split <;> omega

theorem planRepeatedRLEHybrid_succeeds {w count : Int} (h0 : 0 ≤ w) (h32 : w ≤ 32) (hcount : 0 ≤ count)
    (hle : count ≤ maxBound) {v : Int32} (hv : bits v < 2 ^ w.toNat) :
    ∃ plan, planRepeatedRLEHybrid w count v.toUInt32 = .ok plan := by
  obtain ⟨mask, hmask, hmaskval⟩ := widthMask_eq h0 h32
  unfold planRepeatedRLEHybrid
  rw [hmask, ok_bind, if_neg (by omega)]
  split
  · exact ⟨_, rfl⟩
  · have hnot : ¬mask < v.toUInt32 := by
      have hv' : v.toUInt32.toNat < 2 ^ w.toNat := hv
      rw [UInt32.lt_iff_toNat_lt, hmaskval]
      omega
    have hlen := @length_encodeRepeatedRuns_le w.toNat .littleEndian (by omega) v count.toNat (by omega)
    rw [if_neg hnot, repeatedPlan_eq .littleEndian (by omega)]
    exact ⟨_, if_neg (Nat.not_lt.2 hlen)⟩

theorem decode_width_zero (bytes : List UInt8) {k : Nat} (hk : k ≤ maxBound / 4) :
    decodeHybridRleUnsigned32 0 k bytes = .ok (List.replicate k 0) := by
  unfold decodeHybridRleUnsigned32
  rw [if_neg (by omega), if_neg (by decide)]
  by_cases h0 : k = 0
  · rw [h0]
    rfl
  · rw [if_neg (by omega), if_neg (by omega), if_pos rfl]
    rfl

/-- Whatever is written for a plan has the size of the plan, and gives back the values, all of them or
    the first ones. -/
def RoundTrips (order : ByteOrder) (width : Int) (result : Except String HybridPlan) (vs : List Int32) : Prop :=
  ∀ plan, result = .ok plan → ∃ bytes, encodeHybridPlan order plan = some bytes ∧ bytes.length = plan.encodedSize ∧
    ∀ k ≤ vs.length, decodeHybridRleUnsigned32 width k bytes = .ok (vs.take k)

theorem Planned.roundTrips {w : Int} (h0 : 0 ≤ w) (h32 : w ≤ 32) {result : Except String HybridPlan} {vs : List Int32}
    (h : Planned order w.toNat result vs) (hfits : ∀ v ∈ vs, bits v < 2 ^ w.toNat) (hlen : vs.length ≤ maxBound / 4) :
    RoundTrips order w result vs := by
  rintro plan hplan
  obtain ⟨bytes, body, pad, hpad, ⟨rs, rfl, hvalues⟩, hwritten, rfl⟩ := h
  split at hplan
  · cases hplan
  · cases hplan
    refine ⟨bytesOf rs, ?_, rfl, fun k hk => ?_⟩
    · unfold encodeHybridPlan
      split
      · rename_i hzero
        rw [List.length_eq_zero_iff.1 hzero]
      · exact hwritten
    · by_cases hw0 : w = 0
      · -- a width of zero leaves no value but zero
        subst hw0
        have hall : vs = List.replicate vs.length 0 := by
          refine List.eq_replicate_iff.2 ⟨rfl, fun v hv => bits_injective ?_⟩
          have hv0 := hfits v hv
          rw [bits_zero]
          exact Nat.lt_one_iff.1 hv0
        rw [decode_width_zero _ (hk.trans hlen)]
        rw [hall, List.take_replicate]
        congr 2
        omega
      · have hcast : ((w.toNat : Nat) : Int) = w := Int.toNat_of_nonneg h0
        have hread := @decode_runs w.toNat (by omega) (by omega) rs k
          (by rw [hvalues, List.length_append]; omega) (hk.trans hlen)
        rw [hcast, hvalues, List.take_append_of_le_length hk] at hread
        exact hread

end Wireform.Parquet

/-
  Soundness of filter evaluation over file metrics.

  * `inclusivePredicate_of`: a predicate that a row satisfies may match;
  * `strictPredicate_holds`: one that must match is satisfied by every row;
  * `evaluation_sound`: so it is for whole expressions that are safe;
  * `negation_prunes`: a negation over part of the rows is not.
-/
import Wireform.Iceberg.Metrics

namespace Wireform.Iceberg

open Columnar

section
variable {ty : IcebergType} {fm : FileMetrics} {rows : List Row} {fid : Int} {row : Row} {x y b : Scalar}
  {lit : Literal}
  {o : Ordering}

/-! ## Order of a bound and a literal -/

theorem Orders.lt_iff (h : Orders (some b) (some y) o) : o = .lt ↔ b < y := by
  rw [h.lt]
  constructor
  · rintro ⟨_, _, hb, hy, hlt⟩
    cases hb
    cases hy
    exact hlt
  · intro hlt
    exact ⟨_, _, rfl, rfl, hlt⟩

theorem Orders.eq_iff (h : Orders (some b) (some y) o) : o = .eq ↔ b = y := by
  rw [h.eq]
  constructor
  · rintro ⟨_, hb, hy⟩
    cases hb
    cases hy
    rfl
  · rintro rfl
    exact ⟨_, rfl, rfl⟩

theorem Orders.gt_iff (h : Orders (some b) (some y) o) : o = .gt ↔ y < b := by
  constructor
  · rintro rfl
    have hne : b ≠ y := fun heq => by cases h.eq_iff.2 heq
    have hnlt : ¬ b < y := fun hlt => by cases h.lt_iff.2 hlt
    rcases h.total b y rfl rfl with hle | hle
    · exact absurd (lt_of_le_of_ne hle hne) hnlt
    · exact lt_of_le_of_ne hle hne.symm
  · intro hlt
    cases ho : o with
    | lt => exact absurd (h.lt_iff.1 ho) hlt.asymm
    | eq => exact absurd (h.eq_iff.1 ho) hlt.ne'
    | gt => rfl

/-- What is not above something is not above a number. -/
theorem Orders.not_gt {Y : Option Scalar} (h : Orders (some b) Y o) (ho : o ≠ .gt) : ∃ y, Y = some y ∧ b ≤ y := by
  cases o with
  | lt =>
    obtain ⟨_, y, hb, hy, hlt⟩ := h.lt.1 rfl
    cases hb
    exact ⟨y, hy, hlt.le⟩
  | eq =>
    obtain ⟨y, hb, hy⟩ := h.eq.1 rfl
    cases hb
    exact ⟨b, hy, le_rfl⟩
  | gt => exact absurd rfl ho

/-- What has bytes has a meaning, and its type is supported. -/
theorem literalBytes_some {litB : ByteString} (h : literalBytes ty lit = some litB) :
    ty ≠ .other ∧ ∃ Y, meaning ty litB = some Y ∧ literalMeaning ty lit = some Y := by
  have hmeaning := literalBytes_meaning ty lit
  rw [h, Option.bind_some] at hmeaning
  constructor
  · rintro rfl
    cases lit <;> cases h
  · cases ty <;> cases lit <;> cases h <;> exact ⟨_, hmeaning, rfl⟩

/-- A lower bound of a value is compared with a literal as the bound's meaning. -/
theorem CorrectColumn.lower_orders (hc : CorrectColumn fm rows fid ty) (hr : row ∈ rows) (hx : row fid = some (some x))
    {litB lb : ByteString} (hlit : literalBytes ty lit = some litB) (hlb : AssocMap.lookup fid fm.fmLowerBounds = some lb) :
    ∃ b Y, literalMeaning ty lit = some Y ∧ b ≤ x ∧ Orders (some b) Y (compareTy ty lb litB) := by
  obtain ⟨hty, Y, hY, hlitY⟩ := literalBytes_some hlit
  obtain ⟨B, hB, hbound⟩ := hc.lower lb hlb hty
  obtain ⟨b, rfl, hb⟩ := hbound row hr x hx
  exact ⟨b, Y, hlitY, hb, compareTy_orders hB hY⟩

/-- An upper bound of a value too. -/
theorem CorrectColumn.upper_orders (hc : CorrectColumn fm rows fid ty) (hr : row ∈ rows) (hx : row fid = some (some x))
    {litB ub : ByteString} (hlit : literalBytes ty lit = some litB) (hub : AssocMap.lookup fid fm.fmUpperBounds = some ub) :
    ∃ b Y, literalMeaning ty lit = some Y ∧ x ≤ b ∧ Orders (some b) Y (compareTy ty ub litB) := by
  obtain ⟨hty, Y, hY, hlitY⟩ := literalBytes_some hlit
  obtain ⟨B, hB, hbound⟩ := hc.upper ub hub hty
  obtain ⟨b, rfl, hb⟩ := hbound row hr x hx
  exact ⟨b, Y, hlitY, hb, compareTy_orders hB hY⟩

/-- A lower bound is not above a value that it is compared through. -/
theorem CorrectColumn.lower_value (hc : CorrectColumn fm rows fid ty) (hr : row ∈ rows) (hx : row fid = some (some x))
    (hy : literalMeaning ty lit = some (some y)) {litB lb : ByteString} (hlit : literalBytes ty lit = some litB)
    (hlb : AssocMap.lookup fid fm.fmLowerBounds = some lb) : ∃ b ≤ x, Orders (some b) (some y) (compareTy ty lb litB) := by
  obtain ⟨b, Y, hY, hb, horders⟩ := hc.lower_orders hr hx hlit hlb
  rw [hy] at hY
  cases hY
  exact ⟨b, hb, horders⟩

theorem CorrectColumn.upper_value (hc : CorrectColumn fm rows fid ty) (hr : row ∈ rows) (hx : row fid = some (some x))
    (hy : literalMeaning ty lit = some (some y)) {litB ub : ByteString} (hlit : literalBytes ty lit = some litB)
    (hub : AssocMap.lookup fid fm.fmUpperBounds = some ub) : ∃ b, x ≤ b ∧ Orders (some b) (some y) (compareTy ty ub litB) := by
  obtain ⟨b, Y, hY, hb, horders⟩ := hc.upper_orders hr hx hlit hub
  rw [hy] at hY
  cases hY
  exact ⟨b, hb, horders⟩

/-! ## Ranges that may match -/

theorem rangeCovers_of (hc : CorrectColumn fm rows fid ty) (hr : row ∈ rows) (h : Compares (· = ·) ty (row fid) lit) :
    rangeCovers ty fm fid lit lit = true := by
  obtain ⟨x, y, hx, hy, rfl⟩ := h
  unfold rangeCovers
  cases hlit : literalBytes ty lit with
  | none => rfl
  | some litB =>
    cases hlb : AssocMap.lookup fid fm.fmLowerBounds with
    | none => rfl
    | some lb =>
      cases hub : AssocMap.lookup fid fm.fmUpperBounds with
      | none => rfl
      | some ub =>
        obtain ⟨l, hl, hlower⟩ := hc.lower_value hr hx hy hlit hlb
        obtain ⟨u, hu, hupper⟩ := hc.upper_value hr hx hy hlit hub
        have hngt : compareTy ty lb litB ≠ .gt := fun hgt => (hlower.gt_iff.1 hgt).not_ge hl
        have hnlt : compareTy ty ub litB ≠ .lt := fun hlt => (hupper.lt_iff.1 hlt).not_ge hu
        simp [hngt, hnlt]

theorem rangeStartsBefore_of (hc : CorrectColumn fm rows fid ty) (hr : row ∈ rows) (inclusive : Bool)
    (h : Compares (fun x y => if inclusive then x ≤ y else x < y) ty (row fid) lit) :
    rangeStartsBefore ty fm fid lit inclusive = true := by
  obtain ⟨x, y, hx, hy, hrel⟩ := h
  unfold rangeStartsBefore
  cases hlit : literalBytes ty lit with
  | none => rfl
  | some litB =>
    cases hlb : AssocMap.lookup fid fm.fmLowerBounds with
    | none => rfl
    | some lb =>
      obtain ⟨l, hl, horders⟩ := hc.lower_value hr hx hy hlit hlb
      cases inclusive with
      | false => simpa using horders.lt_iff.2 (hl.trans_lt hrel)
      | true => simpa using fun hgt => (horders.gt_iff.1 hgt).not_ge (hl.trans hrel)

theorem rangeEndsAfter_of (hc : CorrectColumn fm rows fid ty) (hr : row ∈ rows) (inclusive : Bool)
    (h : Compares (fun x y => if inclusive then x ≥ y else x > y) ty (row fid) lit) :
    rangeEndsAfter ty fm fid lit inclusive = true := by
  obtain ⟨x, y, hx, hy, hrel⟩ := h
  unfold rangeEndsAfter
  cases hlit : literalBytes ty lit with
  | none => rfl
  | some litB =>
    cases hub : AssocMap.lookup fid fm.fmUpperBounds with
    | none => rfl
    | some ub =>
      obtain ⟨u, hu, horders⟩ := hc.upper_value hr hx hy hlit hub
      cases inclusive with
      | false => simpa using horders.gt_iff.2 (lt_of_lt_of_le hrel hu)
      | true => simpa using fun hlt => (horders.lt_iff.1 hlt).not_ge (le_trans hrel hu)

/-! ## Ranges that must match -/

theorem rangeIs_eq (hc : CorrectColumn fm rows fid ty) (hr : row ∈ rows) (hx : row fid = some (some x))
    (h : rangeIs ty fm fid lit = true) : Compares (· = ·) ty (row fid) lit := by
  unfold rangeIs at h
  cases hlit : literalBytes ty lit with
  | none => simp [hlit] at h
  | some litB =>
    cases hlb : AssocMap.lookup fid fm.fmLowerBounds with
    | none => simp [hlit, hlb] at h
    | some lb =>
      cases hub : AssocMap.lookup fid fm.fmUpperBounds with
      | none => simp [hlit, hlb, hub] at h
      | some ub =>
        obtain ⟨l, Y, hY, hl, hlower⟩ := hc.lower_orders hr hx hlit hlb
        obtain ⟨u, Y', hY', hu, hupper⟩ := hc.upper_orders hr hx hlit hub
        rw [hY] at hY'
        cases hY'
        have hboth : compareTy ty lb litB = .eq ∧ compareTy ty ub litB = .eq := by simpa [hlit, hlb, hub] using h
        obtain ⟨y, hly, rfl⟩ := hlower.eq.1 hboth.1
        cases hly
        have huy := hupper.eq_iff.1 hboth.2
        exact ⟨x, l, hx, hY, le_antisymm (hu.trans huy.le) hl⟩

theorem rangeStrictlyBelow_compares (hc : CorrectColumn fm rows fid ty) (hr : row ∈ rows) (hx : row fid = some (some x))
    {inclusive : Bool} (h : rangeStrictlyBelow ty fm fid lit inclusive = true) :
    Compares (fun x y => if inclusive then x ≤ y else x < y) ty (row fid) lit := by
  unfold rangeStrictlyBelow at h
  cases hlit : literalBytes ty lit with
  | none => simp [hlit] at h
  | some litB =>
    cases hub : AssocMap.lookup fid fm.fmUpperBounds with
    | none => simp [hlit, hub] at h
    | some ub =>
      obtain ⟨u, Y, hY, hu, horders⟩ := hc.upper_orders hr hx hlit hub
      cases inclusive with
      | false =>
        have hlt : compareTy ty ub litB = .lt := by simpa [hlit, hub] using h
        obtain ⟨y, rfl, -⟩ := horders.not_gt (by rw [hlt]; simp)
        exact ⟨x, y, hx, hY, hu.trans_lt (horders.lt_iff.1 hlt)⟩
      | true =>
        have hngt : compareTy ty ub litB ≠ .gt := by simpa [hlit, hub] using h
        obtain ⟨y, rfl, hle⟩ := horders.not_gt hngt
        exact ⟨x, y, hx, hY, hu.trans hle⟩

/-- What is no number is taken for a value above everything. -/
theorem rangeStrictlyAbove_compares (hc : CorrectColumn fm rows fid ty) (hr : row ∈ rows) (hx : row fid = some (some x))
    {inclusive : Bool} (h : rangeStrictlyAbove ty fm fid lit inclusive = true) (hnum : literalMeaning ty lit ≠ some none) :
    Compares (fun x y => if inclusive then x ≥ y else x > y) ty (row fid) lit := by
  unfold rangeStrictlyAbove at h
  cases hlit : literalBytes ty lit with
  | none => simp [hlit] at h
  | some litB =>
    cases hlb : AssocMap.lookup fid fm.fmLowerBounds with
    | none => simp [hlit, hlb] at h
    | some lb =>
      obtain ⟨l, Y, hY, hl, horders⟩ := hc.lower_orders hr hx hlit hlb
      cases Y with
      | none => exact absurd hY hnum
      | some y =>
        refine ⟨x, y, hx, hY, ?_⟩
        cases inclusive with
        | false =>
          have hgt : compareTy ty lb litB = .gt := by simpa [hlit, hlb] using h
          exact lt_of_lt_of_le (horders.gt_iff.1 hgt) hl
        | true =>
          have hnlt : compareTy ty lb litB ≠ .lt := by simpa [hlit, hlb] using h
          cases ho : compareTy ty lb litB with
          | lt => exact absurd ho hnlt
          | eq => exact (horders.eq_iff.1 ho).ge.trans hl
          | gt => exact (horders.gt_iff.1 ho).le.trans hl

/-! ## Prefixes -/

theorem lt_of_take_lt {as bs : List ℕ} (n : ℕ) (h : as.take n < bs.take n) : as < bs := by
  induction n generalizing as bs with
  | zero => simp at h
  | succ n ih =>
    cases bs with
    | nil => simp at h
    | cons b bs =>
      cases as with
      | nil => exact List.nil_lt_cons b bs
      | cons a as =>
        rw [List.take_succ_cons, List.take_succ_cons, List.cons_lt_cons_iff] at h
        exact List.cons_lt_cons_iff.2 (h.imp id fun ⟨heq, hlt⟩ => ⟨heq, ih hlt⟩)

theorem take_le_take {as bs : List ℕ} (n : ℕ) (h : as ≤ bs) : as.take n ≤ bs.take n :=
  not_lt.1 fun hlt => (lt_of_take_lt n hlt).not_ge h

theorem octets_take (bs : ByteString) (n : ℕ) : octets (bs.take n) = (octets bs).take n := List.map_take

theorem compareBytes_not_gt {as bs : ByteString} (h : octets as ≤ octets bs) : compareBytes as bs ≠ .gt := by
  intro hgt
  exact ((orders_bytes as bs).gt_iff.1 hgt).not_ge h

/-- The bounds of byte strings, as byte strings. -/
theorem ByteLike.meaning_eq (h : ByteLike ty) (bs : ByteString) : ty ≠ .other ∧ meaning ty bs = some (some (.bytes bs)) := by
  cases ty <;> first
    | exact h.elim
    | exact ⟨nofun, rfl⟩

theorem CorrectColumn.lower_bytes (hc : CorrectColumn fm rows fid ty) (hr : row ∈ rows) (hty : ByteLike ty)
    {bs lb : ByteString} (hx : row fid = some (some (.bytes bs))) (hlb : AssocMap.lookup fid fm.fmLowerBounds = some lb) :
    octets lb ≤ octets bs := by
  obtain ⟨B, hB, hbound⟩ := hc.lower lb hlb (hty.meaning_eq lb).1
  rw [(hty.meaning_eq lb).2] at hB
  cases hB
  obtain ⟨b, hb, hle⟩ := hbound row hr _ hx
  cases hb
  exact hle

theorem CorrectColumn.upper_bytes (hc : CorrectColumn fm rows fid ty) (hr : row ∈ rows) (hty : ByteLike ty)
    {bs ub : ByteString} (hx : row fid = some (some (.bytes bs))) (hub : AssocMap.lookup fid fm.fmUpperBounds = some ub) :
    octets bs ≤ octets ub := by
  obtain ⟨B, hB, hbound⟩ := hc.upper ub hub (hty.meaning_eq ub).1
  rw [(hty.meaning_eq ub).2] at hB
  cases hB
  obtain ⟨b, hb, hle⟩ := hbound row hr _ hx
  cases hb
  exact hle

/-- What a byte string bounds is one. -/
theorem CorrectColumn.value_bytes (hc : CorrectColumn fm rows fid ty) (hr : row ∈ rows) (hty : ByteLike ty)
    (hx : row fid = some (some x)) {lb : ByteString} (hlb : AssocMap.lookup fid fm.fmLowerBounds = some lb) :
    ∃ bs, x = .bytes bs := by
  obtain ⟨B, hB, hbound⟩ := hc.lower lb hlb (hty.meaning_eq lb).1
  rw [(hty.meaning_eq lb).2] at hB
  cases hB
  obtain ⟨b, hb, hle⟩ := hbound row hr x hx
  cases hb
  cases x with
  | bytes bs => exact ⟨bs, rfl⟩
  | _ => exact hle.elim

theorem rangeMatchesPrefix_of (hc : CorrectColumn fm rows fid ty) (hr : row ∈ rows) (h : HasPrefix ty (row fid) lit) :
    rangeMatchesPrefix fm fid lit = true := by
  obtain ⟨bs, pre, hty, hx, hpre, hprefix⟩ := h
  unfold rangeMatchesPrefix
  rw [hpre]
  cases hlb : AssocMap.lookup fid fm.fmLowerBounds with
  | none => rfl
  | some lb =>
    cases hub : AssocMap.lookup fid fm.fmUpperBounds with
    | none => rfl
    | some ub =>
      have htake : octets pre = (octets bs).take pre.length := by
        rw [← octets_take, ← List.prefix_iff_eq_take.1 hprefix]
      have hlower : octets (lb.take pre.length) ≤ octets pre := by
        rw [htake, octets_take]
        exact take_le_take _ (hc.lower_bytes hr hty hx hlb)
      have hupper : octets pre ≤ octets (ub.take pre.length) := by
        rw [htake, octets_take]
        exact take_le_take _ (hc.upper_bytes hr hty hx hub)
      simp [compareBytes_not_gt hlower, compareBytes_not_gt hupper]

theorem rangeAlwaysHasPrefix_hasPrefix (hc : CorrectColumn fm rows fid ty) (hr : row ∈ rows) (hty : ByteLike ty)
    (hx : row fid = some (some x)) (h : rangeAlwaysHasPrefix fm fid lit = true) : HasPrefix ty (row fid) lit := by
  unfold rangeAlwaysHasPrefix at h
  cases hpre : literalRawBytes lit with
  | none => simp [hpre] at h
  | some pre =>
    cases hlb : AssocMap.lookup fid fm.fmLowerBounds with
    | none => simp [hpre, hlb] at h
    | some lb =>
      cases hub : AssocMap.lookup fid fm.fmUpperBounds with
      | none => simp [hpre, hlb, hub] at h
      | some ub =>
        obtain ⟨bs, rfl⟩ := hc.value_bytes hr hty hx hlb
        have hboth : pre <+: lb ∧ pre <+: ub := by simpa [hpre, hlb, hub] using h
        have htake {as : ByteString} (has : pre <+: as) : octets pre = (octets as).take pre.length := by
          rw [← octets_take, ← List.prefix_iff_eq_take.1 has]
        have hlower : octets pre ≤ (octets bs).take pre.length := by
          rw [htake hboth.1]
          exact take_le_take _ (hc.lower_bytes hr hty hx hlb)
        have hupper : (octets bs).take pre.length ≤ octets pre := by
          rw [htake hboth.2]
          exact take_le_take _ (hc.upper_bytes hr hty hx hub)
        have heq : octets pre = octets (bs.take pre.length) := by
          rw [octets_take]
          exact le_antisymm hlower hupper
        exact ⟨bs, pre, hty, hx, hpre, List.prefix_iff_eq_take.2 (octets_inj heq)⟩

/-! ## Counts -/

theorem CorrectColumn.hasAnyNull_of (hc : CorrectColumn fm rows fid ty) (hr : row ∈ rows) (hx : row fid = none) :
    hasAnyNull fm fid = true := by
  unfold hasAnyNull
  cases hnull : AssocMap.lookup fid fm.fmNullCounts with
  | none => rfl
  | some c =>
    have hpos : 0 < rows.countP fun r => (r fid).isNone := List.countP_pos_iff.2 ⟨row, hr, by rw [hx]; rfl⟩
    have hcount := hc.nulls c hnull
    exact decide_eq_true (by omega)

theorem CorrectColumn.hasAnyNonNull_of (hc : CorrectColumn fm rows fid ty) (hr : row ∈ rows) (hx : row fid ≠ none) :
    hasAnyNonNull fm fid = true := by
  unfold hasAnyNonNull
  cases hnull : AssocMap.lookup fid fm.fmNullCounts with
  | none => rfl
  | some nc =>
    cases hvalue : AssocMap.lookup fid fm.fmValueCounts with
    | none => rfl
    | some vc =>
      have hne : (rows.countP fun r => (r fid).isNone) ≠ rows.length := by
        intro hall
        exact hx (Option.isNone_iff_eq_none.1 (List.countP_eq_length.1 hall row hr))
      have hle : (rows.countP fun r => (r fid).isNone) ≤ rows.length := List.countP_le_length
      have hnulls := hc.nulls nc hnull
      have hvalues := hc.values vc hvalue
      exact decide_eq_true (by omega)

theorem CorrectColumn.hasAnyNan_of (hc : CorrectColumn fm rows fid ty) (hr : row ∈ rows) (hx : row fid = some none) :
    hasAnyNan fm fid = true := by
  unfold hasAnyNan
  cases hnan : AssocMap.lookup fid fm.fmNanCounts with
  | none => rfl
  | some c =>
    have hpos : 0 < rows.countP fun r => (r fid).elim false Option.isNone :=
      List.countP_pos_iff.2 ⟨row, hr, by rw [hx]; rfl⟩
    have hcount := hc.nans c hnan
    exact decide_eq_true (by omega)

/-! ## Predicates -/

variable {schema : Schema} {p : Predicate} {f : Literal → Bool}

theorem withLit_head (h : p.predLits.head? = some lit) : withLit p f = f lit := by
  obtain ⟨rest, hlits⟩ := List.head?_eq_some_iff.1 h
  rw [withLit, hlits]

theorem withLitFalse_true (h : withLitFalse p f = true) : ∃ lit, p.predLits.head? = some lit ∧ f lit = true := by
  unfold withLitFalse at h
  cases hlits : p.predLits with
  | nil => simp [hlits] at h
  | cons lit rest => exact ⟨lit, rfl, by simpa [hlits] using h⟩

/-- **A predicate that a row satisfies may match.** -/
theorem inclusivePredicate_of (hc : CorrectMetrics schema fm rows) (hr : row ∈ rows) (h : p.Holds schema row) :
    inclusivePredicate schema fm p = true := by
  obtain ⟨fid, ty, hfield, hsat⟩ := h
  have hcol := hc _ _ _ hfield
  unfold inclusivePredicate
  rw [hfield]
  cases hop : p.predOp <;> rw [hop] at hsat
  case isNull => exact hcol.hasAnyNull_of hr hsat
  case notNull => exact hcol.hasAnyNonNull_of hr hsat
  case isNan => exact hcol.hasAnyNan_of hr hsat
  case eq =>
    obtain ⟨lit, hlit, hsat⟩ := hsat
    exact (withLit_head hlit).trans (rangeCovers_of hcol hr hsat)
  case lt =>
    obtain ⟨lit, hlit, hsat⟩ := hsat
    exact (withLit_head hlit).trans (rangeStartsBefore_of hcol hr false hsat)
  case ltEq =>
    obtain ⟨lit, hlit, hsat⟩ := hsat
    exact (withLit_head hlit).trans (rangeStartsBefore_of hcol hr true hsat)
  case gt =>
    obtain ⟨lit, hlit, hsat⟩ := hsat
    exact (withLit_head hlit).trans (rangeEndsAfter_of hcol hr false hsat)
  case gtEq =>
    obtain ⟨lit, hlit, hsat⟩ := hsat
    exact (withLit_head hlit).trans (rangeEndsAfter_of hcol hr true hsat)
  case startsWith =>
    obtain ⟨lit, hlit, hsat⟩ := hsat
    exact (withLit_head hlit).trans (rangeMatchesPrefix_of hcol hr hsat)
  case isIn =>
    obtain ⟨lit, hlit, hsat⟩ := hsat
    exact Bool.or_eq_true_iff.2 (Or.inl (List.any_eq_true.2 ⟨lit, hlit, rangeCovers_of hcol hr hsat⟩))

/-- **A predicate that must match is satisfied by every row**, where it is safe. -/
theorem strictPredicate_holds (hc : CorrectMetrics schema fm rows) (hr : row ∈ rows)
    (hsafe : ∀ fid ty, lookupField schema p.predField = some (fid, ty) →
      OpSafe ty (rows.map fun r => r fid) p.predLits p.predOp)
    (h : strictPredicate schema fm p = true) : p.Holds schema row := by
  unfold strictPredicate at h
  cases hfield : lookupField schema p.predField with
  | none => simp [hfield] at h
  | some field =>
    obtain ⟨fid, ty⟩ := field
    have hcol := hc _ _ _ hfield
    have hop := hsafe fid ty hfield
    have hcell : row fid ∈ rows.map fun r => r fid := List.mem_map_of_mem hr
    rw [hfield] at h
    refine ⟨fid, ty, hfield, ?_⟩
    cases hpred : p.predOp <;> rw [hpred] at h hop
    case isNull =>
      by_contra hne
      have hany := hcol.hasAnyNonNull_of hr hne
      simp [hany] at h
    case notNull =>
      intro hnone
      have hany := hcol.hasAnyNull_of hr hnone
      simp [hany] at h
    case eq =>
      obtain ⟨lit, hlit, hrange⟩ := withLitFalse_true h
      obtain ⟨x, hx⟩ := hop _ hcell
      exact ⟨lit, hlit, rangeIs_eq hcol hr hx hrange⟩
    case lt =>
      obtain ⟨lit, hlit, hrange⟩ := withLitFalse_true h
      obtain ⟨x, hx⟩ := hop _ hcell
      exact ⟨lit, hlit, rangeStrictlyBelow_compares hcol hr hx hrange⟩
    case ltEq =>
      obtain ⟨lit, hlit, hrange⟩ := withLitFalse_true h
      obtain ⟨x, hx⟩ := hop _ hcell
      exact ⟨lit, hlit, rangeStrictlyBelow_compares hcol hr hx hrange⟩
    case gt =>
      obtain ⟨lit, hlit, hrange⟩ := withLitFalse_true h
      obtain ⟨x, hx⟩ := hop.1 _ hcell
      exact ⟨lit, hlit, rangeStrictlyAbove_compares hcol hr hx hrange (hop.2 lit hlit)⟩
    case gtEq =>
      obtain ⟨lit, hlit, hrange⟩ := withLitFalse_true h
      obtain ⟨x, hx⟩ := hop.1 _ hcell
      exact ⟨lit, hlit, rangeStrictlyAbove_compares hcol hr hx hrange (hop.2 lit hlit)⟩
    case startsWith =>
      obtain ⟨lit, hlit, hrange⟩ := withLitFalse_true h
      obtain ⟨x, hx⟩ := hop.1 _ hcell
      exact ⟨lit, hlit, rangeAlwaysHasPrefix_hasPrefix hcol hr hop.2 hx hrange⟩
    all_goals cases h

/-! ## Expressions -/

variable {e : Expression}

/-- Inclusive evaluation, in both polarities: an answer no is right, and under a
    negation an answer yes. -/
theorem evaluateInclusive_sound (hc : CorrectMetrics schema fm rows) (hr : row ∈ rows) (e : Expression) :
    (e.InclusiveSafe schema rows false → e.Holds schema row → evaluateInclusive schema fm e = true) ∧
      (e.InclusiveSafe schema rows true → evaluateInclusive schema fm e = true → e.Holds schema row) := by
  induction e with
  | true => exact ⟨fun _ _ => rfl, fun _ _ => trivial⟩
  | false => exact ⟨fun _ h => h.elim, fun _ h => by cases h⟩
  | predicate p => exact ⟨fun _ h => inclusivePredicate_of hc hr h, fun hsafe _ => hsafe rfl row hr⟩
  | and a b iha ihb =>
    constructor
    · rintro ⟨hsa, hsb⟩ ⟨ha, hb⟩
      exact Bool.and_eq_true_iff.2 ⟨iha.1 hsa ha, ihb.1 hsb hb⟩
    · rintro ⟨hsa, hsb⟩ h
      exact (Bool.and_eq_true_iff.1 h).imp (iha.2 hsa) (ihb.2 hsb)
  | or a b iha ihb =>
    constructor
    · rintro ⟨hsa, hsb⟩ h
      exact Bool.or_eq_true_iff.2 (h.imp (iha.1 hsa) (ihb.1 hsb))
    · rintro ⟨hsa, hsb⟩ h
      exact (Bool.or_eq_true_iff.1 h).imp (iha.2 hsa) (ihb.2 hsb)
  | not e ih =>
    constructor
    · intro hsafe hnot
      by_contra h
      exact hnot (ih.2 hsafe (by simpa [evaluateInclusive] using h))
    · intro hsafe h hholds
      have hinner := ih.1 hsafe hholds
      simp [evaluateInclusive, hinner] at h

/-- Strict evaluation: an answer yes is right. -/
theorem evaluateStrict_sound (hc : CorrectMetrics schema fm rows) (hr : row ∈ rows) (hsafe : e.StrictSafe schema rows)
    (h : evaluateStrict schema fm e = true) : e.Holds schema row := by
  induction e with
  | true => trivial
  | false => cases h
  | predicate p => exact strictPredicate_holds hc hr hsafe h
  | and a b iha ihb => exact (Bool.and_eq_true_iff.1 h).imp (iha hsafe.1) (ihb hsafe.2)
  | or a b iha ihb => exact (Bool.or_eq_true_iff.1 h).imp (iha hsafe.1) (ihb hsafe.2)
  | not e =>
    intro hholds
    have hinner := (evaluateInclusive_sound hc hr e).1 hsafe hholds
    simp [evaluateStrict, hinner] at h

end

/-! ## A file with a null -/

def sampleSchema : Schema := ⟨[⟨1, "x", .int⟩]⟩

def sampleRow (c : Cell) : Row := fun fid => if fid = 1 then c else none

/-- Null, zero and ten. -/
def sampleRows : List Row :=
  [sampleRow none, sampleRow (some (some (rational (0 : Int)))), sampleRow (some (some (rational (10 : Int))))]

def sampleMetrics : FileMetrics := ⟨3, [(1, 3)], [(1, 1)], [], [(1, intLE 0)], [(1, intLE 10)]⟩

def comparison (op : PredicateOp) (n : Int32) : Expression := .predicate ⟨op, "x", [.int n]⟩

theorem sampleSchema_field {name : String} {fid : Int} {ty : IcebergType}
    (h : lookupField sampleSchema name = some (fid, ty)) : fid = 1 ∧ ty = .int := by
  obtain ⟨sf, hfind, hsf⟩ := Option.map_eq_some_iff.1 h
  have hmem := List.mem_of_find?_eq_some hfind
  rw [sampleSchema, List.mem_singleton] at hmem
  subst hmem
  cases hsf
  exact ⟨rfl, rfl⟩

/-- A value of the file is between its bounds. -/
theorem sampleRows_bounds {r : Row} (hr : r ∈ sampleRows) {x : Scalar} (hx : r 1 = some (some x)) :
    rational (0 : Int) ≤ x ∧ x ≤ rational (10 : Int) := by
  simp only [sampleRows, List.mem_cons, List.not_mem_nil, or_false] at hr
  rcases hr with rfl | rfl | rfl
  · cases hx
  · cases hx
    exact ⟨le_rfl, rational_le.2 (by norm_num)⟩
  · cases hx
    exact ⟨rational_le.2 (by norm_num), le_rfl⟩

theorem sampleMetrics_correct : CorrectMetrics sampleSchema sampleMetrics sampleRows := by
  intro name fid ty h
  obtain ⟨rfl, rfl⟩ := sampleSchema_field h
  constructor
  · intro c hcount
    cases hcount
    rfl
  · intro c hcount
    cases hcount
    rfl
  · intro c hcount
    cases hcount
  · intro lb hlb _
    cases hlb
    exact ⟨_, rfl, fun r hr x hx => ⟨_, rfl, (sampleRows_bounds hr hx).1⟩⟩
  · intro ub hub _
    cases hub
    exact ⟨_, rfl, fun r hr x hx => ⟨_, rfl, (sampleRows_bounds hr hx).2⟩⟩

end Wireform.Iceberg

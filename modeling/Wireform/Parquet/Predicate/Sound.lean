/-
  What is skipped has no matching row.

  * `AtMost`, `LegacyAtMost`: the orders that bounds are declared in;
  * `Truthful`, `TruthfulGroup`, `TruthfulIndex`: bounds that hold of the values;
  * `Satisfies`: when a row makes a predicate true, and when false;
  * `evalRowGroup_keeps`, `evalPages_keeps`: row groups and pages with matching rows are kept
    where no column is misread.
-/
import Wireform.Parquet.Predicate.Meaning

namespace Wireform.Parquet

open Columnar

/-! ## Declared orders -/

/-- The format of a floating-point column. -/
def floatFormat (field : SchemaElement) : Option Ieee :=
  if field.seLogicalType = some .float16 then some .binary16
  else
    match field.seType with
    | some .float => some .binary32
    | some .double => some .binary64
    | _ => none

attribute [grind =] floatFormat

/-- The order a file declares for a column. Of other orders nothing is promised. -/
def AtMost (context : StatisticsContext) (a b : List UInt8) : Prop :=
  match context.statisticsOrder with
  | some .typeDefinedOrder =>
    ∀ x y, meaning context.statisticsField a = some x → meaning context.statisticsField b = some y → x ≤ y
  | some .ieee754TotalOrder =>
    ∀ f, floatFormat context.statisticsField = some f → f.rank (leValue a) ≤ f.rank (leValue b)
  | _ => True

/-- The older bounds go by the carrier alone; of byte strings nothing is promised. -/
def LegacyAtMost (field : SchemaElement) (a b : List UInt8) : Prop :=
  ∀ ty, field.seType = some ty → ty ≠ .byteArray → ty ≠ .fixedLenByteArray →
    ∀ x y, readAs ty .carrier a = some x → readAs ty .carrier b = some y → x ≤ y

theorem map_number {f : Ieee} {bits : Nat} {x : Scalar} (h : (f.value bits).map Scalar.number = some x) :
    ∃ v, f.value bits = some v ∧ x = .number v := by
  obtain ⟨v, hv, rfl⟩ := Option.map_eq_some_iff.1 h
  exact ⟨v, hv, rfl⟩

theorem float_le {f : Ieee} {a b : Nat} {x y : Scalar} (hx : (f.value a).map Scalar.number = some x)
    (hy : (f.value b).map Scalar.number = some y) (h : f.rank a ≤ f.rank b) : x ≤ y := by
  obtain ⟨v, hv, rfl⟩ := map_number hx
  obtain ⟨w, hw, rfl⟩ := map_number hy
  exact f.value_le hv hw h

variable {context : StatisticsContext} {field : SchemaElement} {values : List (Option (List UInt8))}
  {cell : Option (List UInt8)} {cp : PColPredicate} {stats : Statistics} {metadata : FileMetadata} {a : List UInt8}
  {v : PValue}

/-- What a floating-point column stores. -/
theorem meaning_float {f : Ieee} {x : Scalar}
    (hcompat : hasCompatiblePhysicalType field = true) (hf : floatFormat field = some f)
    (hx : meaning field a = some x) : (f.value (leValue a)).map Scalar.number = some x := by
  unfold floatFormat at hf
  split at hf
  · rename_i hl
    cases hf
    have hty : field.seType = some .fixedLenByteArray := by
      simp only [hasCompatiblePhysicalType, hl, SchemaElement.fixed, Bool.and_eq_true] at hcompat
      exact of_decide_eq_true hcompat.1
    rw [meaning, hty, reading, hl] at hx
    exact (Option.ite_none_right_eq_some.1 hx).2
  · split at hf
    case h_1 hty =>
      cases hf
      rw [meaning, hty, Option.bind_some] at hx
      cases hr : reading field <;> rw [hr] at hx
      case carrier => exact (Option.ite_none_right_eq_some.1 hx).2
      all_goals cases hx
    case h_2 hty =>
      cases hf
      rw [meaning, hty, Option.bind_some] at hx
      cases hr : reading field <;> rw [hr] at hx
      case carrier => exact (Option.ite_none_right_eq_some.1 hx).2
      all_goals cases hx
    case h_3 => cases hf

theorem meaning_int96 (hty : field.seType = some .int96) (a : List UInt8) :
    meaning field a = none := by
  rw [meaning, hty, Option.bind_some]
  cases reading field <;> rfl

theorem modern_le {a b : List UInt8} {x y : Scalar}
    (hs : modernOrderSupported context = true) (h : AtMost context a b)
    (hx : meaning context.statisticsField a = some x) (hy : meaning context.statisticsField b = some y) : x ≤ y := by
  rw [modernOrderSupported, Bool.and_eq_true] at hs
  obtain ⟨hdef, hs⟩ := hs
  have hcompat := (Bool.and_eq_true_iff.1 hdef).1
  unfold AtMost at h
  split at hs
  case h_1 ho =>
    rw [ho] at h
    exact h x y hx hy
  case h_2 ho =>
    rw [ho] at h
    obtain ⟨f, hf⟩ : ∃ f, floatFormat context.statisticsField = some f := by
      unfold floatFormat
      by_cases hl : context.statisticsField.seLogicalType = some .float16
      · exact ⟨_, if_pos hl⟩
      · rw [if_neg hl]
        simp only [hl, List.mem_cons, List.not_mem_nil, or_false, decide_false, Bool.or_false, decide_eq_true_eq] at hs
        rcases hs with hs | hs <;> rw [hs] <;> exact ⟨_, rfl⟩
    exact float_le (meaning_float hcompat hf hx) (meaning_float hcompat hf hy) (h f hf)
  case h_3 ho =>
    rw [meaning_int96 (of_decide_eq_true hs)] at hx
    cases hx
  case h_4 => cases hs

theorem scaled_le {m n : Int} (scale : Int) (h : rational m ≤ rational n) : scaled m scale ≤ scaled n scale := by
  refine rational_le.2 (div_le_div_of_nonneg_right (rational_le.1 h) ?_)
  positivity

theorem legacy_le {a b : List UInt8} {x y : Scalar} (hs : legacyOrderMatches field = true)
    (h : LegacyAtMost field a b) (hx : meaning field a = some x) (hy : meaning field b = some y) : x ≤ y := by
  rw [legacyOrderMatches, Bool.and_eq_true] at hs
  obtain ⟨hty, hs⟩ := hs
  simp only [List.mem_cons, List.not_mem_nil, or_false, decide_eq_true_eq] at hty
  have hunsigned : reading field ≠ .unsigned := by
    unfold reading
    split
    case h_1 => simp
    case h_2 => simp
    case h_3 hl =>
      rw [hl] at hs
      cases hs
    case h_4 => simp
    case h_5 hl =>
      rw [hl] at hs
      split
      case h_5 => simp
      case h_6 => simp
      all_goals
        rename_i hc
        simp [hc, unsignedConverted] at hs
  obtain ⟨ty, ht, hb, hf⟩ : ∃ ty, field.seType = some ty ∧ ty ≠ .byteArray ∧ ty ≠ .fixedLenByteArray := by
    rcases hty with hty | hty | hty | hty | hty <;> exact ⟨_, hty, by decide, by decide⟩
  have hle := h ty ht hb hf
  rw [meaning, ht, Option.bind_some] at hx hy
  cases hr : reading field with
  | carrier =>
    rw [hr] at hx hy
    exact hle x y hx hy
  | unsigned => exact absurd hr hunsigned
  | half =>
    rw [hr] at hx
    cases ty <;> first
      | cases hx
      | exact absurd rfl hf
  | decimal scale =>
    rw [hr] at hx hy
    cases ty <;> first
      | cases hx
      | exact absurd rfl hf
      | exact absurd rfl hb
      | skip
    · obtain ⟨hla, hx⟩ := Option.ite_none_right_eq_some.1 hx
      obtain ⟨hlb, hy⟩ := Option.ite_none_right_eq_some.1 hy
      rw [← Option.some.inj hx, ← Option.some.inj hy]
      exact scaled_le scale (hle _ _ (if_pos hla) (if_pos hlb))
    · obtain ⟨hla, hx⟩ := Option.ite_none_right_eq_some.1 hx
      obtain ⟨hlb, hy⟩ := Option.ite_none_right_eq_some.1 hy
      rw [← Option.some.inj hx, ← Option.some.inj hy]
      exact scaled_le scale (hle _ _ (if_pos hla) (if_pos hlb))

/-! ## Statistics -/

/-- Every bound holds of every value, and the nulls are counted. -/
structure Truthful (context : StatisticsContext) (stats : Statistics) (values : List (Option (List UInt8))) : Prop where
  minValue : ∀ b, stats.statMinValue = some b → ∀ a, some a ∈ values → AtMost context b a
  maxValue : ∀ b, stats.statMaxValue = some b → ∀ a, some a ∈ values → AtMost context a b
  min : ∀ b, stats.statMin = some b → ∀ a, some a ∈ values → LegacyAtMost context.statisticsField b a
  max : ∀ b, stats.statMax = some b → ∀ a, some a ∈ values → LegacyAtMost context.statisticsField a b
  nullCount : ∀ n, stats.statNullCount = some n → n = values.count none

/-- A misread column whose bounds are used. -/
def MisreadBounds (context : StatisticsContext) : Prop :=
  Misread context.statisticsField ∧ context.statisticsOrder = some .typeDefinedOrder

theorem decimal_number {x : Scalar} (hr : reading field = .decimal 0)
    (hx : meaning field a = some x) : ∃ q, x = rational q := by
  obtain ⟨ty, -, hx⟩ := Option.bind_eq_some_iff.1 hx
  rw [hr] at hx
  cases ty <;> first
    | cases hx
    | exact ⟨_, (Option.some.inj (Option.ite_none_right_eq_some.1 hx).2).symm⟩

theorem Faithful.not_lt {b a : List UInt8} {x lo : Scalar} (hv : Faithful field b v)
    (hle : ∀ y, meaning field b = some y → y ≤ x) (hx : meaning field a = some x) (hlo : v.meaning = some lo) : ¬x < lo := by
  rcases hv with ⟨y, hy, hb⟩ | ⟨⟨bs, rfl⟩, hr⟩
  · rw [hlo] at hy
    cases hy
    exact (hle lo hb).not_gt
  · obtain ⟨q, rfl⟩ := decimal_number hr hx
    cases hlo
    exact fun hlt => hlt.le

theorem Faithful.not_gt {b a : List UInt8} {x hi : Scalar} (hv : Faithful field b v)
    (hle : ∀ y, meaning field b = some y → x ≤ y) (hx : meaning field a = some x) (hhi : v.meaning = some hi) : ¬hi < x := by
  rcases hv with ⟨y, hy, hb⟩ | ⟨⟨bs, rfl⟩, hr⟩
  · rw [hhi] at hy
    cases hy
    exact (hle hi hb).not_gt
  · obtain ⟨q, rfl⟩ := decimal_number hr hx
    cases hhi
    exact fun hlt => hlt.le

theorem misread_modern (hm : Misread context.statisticsField)
    (hs : modernOrderSupported context = true) : context.statisticsOrder = some .typeDefinedOrder := by
  obtain ⟨-, -, hr, ht⟩ := hm
  rw [modernOrderSupported, Bool.and_eq_true] at hs
  obtain ⟨-, hs⟩ := hs
  split at hs
  case h_1 ho => exact ho
  case h_2 =>
    have hl : context.statisticsField.seLogicalType ≠ some .float16 := by
      intro hl
      rw [reading, hl] at hr
      cases hr
    rcases ht with ht | ht <;> simp [ht, hl] at hs
  case h_3 => rcases ht with ht | ht <;> simp [ht] at hs
  case h_4 => cases hs

theorem misread_legacy (hm : Misread field) : legacyOrderMatches field = false := by
  obtain ⟨-, hu, hr, -⟩ := hm
  rw [legacyOrderMatches, Bool.and_eq_false_iff]
  right
  unfold SchemaElement.unsigned at hu
  split
  case h_1 => rfl
  case h_2 hl =>
    rw [reading, hl] at hr
    cases hr
  case h_3 hi hd =>
    split at hu
    case h_1 w signed hl =>
      cases signed with
      | true => cases hu
      | false => exact absurd hl (hi w)
    case h_2 =>
      rw [decide_eq_false_iff_not, not_not]
      exact List.mem_append_left _ (of_decide_eq_true hu)

/-- Where a bound comes from. -/
theorem statisticValue_cases {current legacy : Option (List UInt8)}
    (h : statisticValue context current legacy = some v) :
    ∃ b, decodePValueForSchema context.statisticsField b = some v ∧
      (current = some b ∧ modernOrderSupported context = true ∨
        legacy = some b ∧ legacyOrderMatches context.statisticsField = true) := by
  unfold statisticValue at h
  obtain ⟨b, hb, hv⟩ := Option.bind_eq_some_iff.1 h
  refine ⟨b, hv, ?_⟩
  have old : (if legacyOrderMatches context.statisticsField then legacy else none) = some b →
      legacy = some b ∧ legacyOrderMatches context.statisticsField = true := by
    intro hb
    obtain ⟨hmatch, hb⟩ := Option.ite_none_right_eq_some.1 hb
    exact ⟨hb, hmatch⟩
  cases current with
  | none => exact Or.inr (old hb)
  | some value =>
    dsimp only at hb
    by_cases hs : modernOrderSupported context = true
    · rw [if_pos hs] at hb
      exact Or.inl ⟨hb, hs⟩
    · rw [if_neg hs] at hb
      exact Or.inr (old hb)

/-- A bound that is used comes from a column that is not misread. -/
theorem statisticValue_faithful (hm : ¬MisreadBounds context)
    {current legacy : Option (List UInt8)} (h : statisticValue context current legacy = some v) :
    ∃ b, Faithful context.statisticsField b v ∧
      (current = some b ∧ modernOrderSupported context = true ∨
        legacy = some b ∧ legacyOrderMatches context.statisticsField = true) := by
  obtain ⟨b, hv, hfrom⟩ := statisticValue_cases h
  refine ⟨b, decode_faithful (fun hmis => ?_) hv, hfrom⟩
  rcases hfrom with ⟨-, hs⟩ | ⟨-, hs⟩
  · exact hm ⟨hmis, misread_modern hmis hs⟩
  · rw [misread_legacy hmis] at hs
    cases hs

theorem not_lt_minimum (hm : ¬MisreadBounds context)
    (ht : Truthful context stats values) (ha : some a ∈ values)
    {mn : PValue} (hmn : minimumStatistic context stats = some mn) :
    ∀ x lo, meaning context.statisticsField a = some x → mn.meaning = some lo → ¬x < lo := by
  intro x lo hx hlo
  obtain ⟨b, hf, hfrom⟩ := statisticValue_faithful hm hmn
  refine hf.not_lt (fun y hy => ?_) hx hlo
  rcases hfrom with ⟨hb, hs⟩ | ⟨hb, hs⟩
  · exact modern_le hs (ht.minValue b hb a ha) hy hx
  · exact legacy_le hs (ht.min b hb a ha) hy hx

theorem not_gt_maximum (hm : ¬MisreadBounds context)
    (ht : Truthful context stats values) (ha : some a ∈ values)
    {mx : PValue} (hmx : maximumStatistic context stats = some mx) :
    ∀ x hi, meaning context.statisticsField a = some x → mx.meaning = some hi → ¬hi < x := by
  intro x hi hx hhi
  obtain ⟨b, hf, hfrom⟩ := statisticValue_faithful hm hmx
  refine hf.not_gt (fun y hy => ?_) hx hhi
  rcases hfrom with ⟨hb, hs⟩ | ⟨hb, hs⟩
  · exact modern_le hs (ht.maxValue b hb a ha) hx hy
  · exact legacy_le hs (ht.max b hb a ha) hx hy

/-- A null makes only the test for nulls true. -/
theorem holds_null {α : Type} {read : α → Option Scalar} (h : cp.holds read true none) :
    cp = .isNull := by
  cases cp with
  | isNull => rfl
  | isNotNull => cases h
  | isIn vs =>
    obtain ⟨_, -, _, _, _, h, -⟩ := h
    cases h
  | _ =>
    obtain ⟨_, _, _, h, -⟩ := h
    cases h

/-- **A column chunk with a matching value is kept.** -/
theorem evalLeaf_keeps (hm : ¬MisreadBounds context)
    (ht : Truthful context stats values)
    (hc : cell ∈ values) (h : cp.holds (meaning context.statisticsField) true cell) :
    evalLeaf context stats cp = .maybeKeep := by
  cases cell with
  | none =>
    rw [holds_null h]
    refine if_neg fun hzero => ?_
    have hcount := ht.nullCount 0 hzero
    have hpos := List.count_pos_iff.2 hc
    omega
  | some a =>
    unfold evalLeaf
    split
    · exact absurd h (by simp [PColPredicate.holds])
    · rfl
    · split
      · rename_i hmn hmx
        exact evalRange_keeps (not_lt_minimum hm ht hc hmn) (not_gt_maximum hm ht hc hmx) h
      · rfl

theorem evalColumnChunk_keeps (hm : ¬MisreadBounds context) {cc : ColumnChunk}
    (ht : ∀ md stats, cc.ccMetadata = some md → md.cmStatistics = some stats → Truthful context stats values)
    (hc : cell ∈ values)
    (h : cp.holds (meaning context.statisticsField) true cell) : evalColumnChunk context cc cp = .maybeKeep := by
  unfold evalColumnChunk
  split
  · rfl
  · rename_i md hmd
    split
    · rfl
    · rename_i stats hstats
      split
      · exact evalLeaf_keeps hm (ht md stats hmd hstats) hc h
      · rfl

/-! ## Row groups -/

/-- A row: the cells of each column; a column inside a repeated group has any number of them. -/
abbrev Row := Nat → List (Option (List UInt8))

def column (rows : List Row) (i : Nat) : List (Option (List UInt8)) := rows.flatMap fun row => row i

/-- The statistics of every column chunk are truthful. -/
def TruthfulGroup (metadata : FileMetadata) (rg : RowGroup) (rows : List Row) : Prop :=
  ∀ i context chunk md stats, statisticsContext metadata i = some context → rg.rgColumns[i]? = some chunk →
    chunk.ccMetadata = some md → md.cmStatistics = some stats → Truthful context stats (column rows i)

/-- What a cell of a column stands for. -/
def meaningAt (metadata : FileMetadata) (i : Nat) (bytes : List UInt8) : Option Scalar :=
  metadata.leaves[i]?.bind fun field => meaning field bytes

/-- A row makes a predicate true, or false; it may do neither. -/
def Satisfies (metadata : FileMetadata) (rg : RowGroup) (row : Row) : Bool → Predicate → Prop
  | true, .col name cp =>
    ∃ i chunk, rg.rgColumns[i]? = some chunk ∧ chunk.named name = true ∧
      ∃ cell ∈ row i, cp.holds (meaningAt metadata i) true cell
  | false, .col name cp =>
    ∀ i chunk, rg.rgColumns[i]? = some chunk → chunk.named name = true →
      ∀ cell ∈ row i, cp.holds (meaningAt metadata i) false cell
  | true, .and a b => Satisfies metadata rg row true a ∧ Satisfies metadata rg row true b
  | false, .and a b => Satisfies metadata rg row false a ∨ Satisfies metadata rg row false b
  | true, .or a b => Satisfies metadata rg row true a ∨ Satisfies metadata rg row true b
  | false, .or a b => Satisfies metadata rg row false a ∧ Satisfies metadata rg row false b
  | b, .not a => Satisfies metadata rg row (!b) a
  | b, .tt => b = true
  | b, .ff => b = false

/-- The context of a leaf. -/
theorem statisticsContext_eq_some {i : Nat}
    (h : statisticsContext metadata i = some context) :
    metadata.leaves[i]? = some context.statisticsField ∧
      context.statisticsOrder = metadata.fmColumnOrders.bind (·[i]?) := by
  obtain ⟨field, hf, h⟩ := Option.bind_eq_some_iff.1 h
  cases h
  exact ⟨hf, rfl⟩

theorem mem_findIndices {α : Type} {p : α → Bool} {xs : List α} {i : Nat} :
    i ∈ findIndices p xs ↔ ∃ x, xs[i]? = some x ∧ p x = true := by
  simp only [findIndices, List.mem_filter, List.mem_range]
  constructor
  · rintro ⟨hi, hp⟩
    rw [List.getElem?_eq_getElem hi] at hp
    exact ⟨_, List.getElem?_eq_getElem hi, hp⟩
  · rintro ⟨x, hx, hp⟩
    obtain ⟨hi, rfl⟩ := List.getElem?_eq_some_iff.1 hx
    exact ⟨hi, by rw [hx]; exact hp⟩

/-- The statistics that are looked up are those of the only column with the name. -/
theorem lookupStats_eq_some {rg : RowGroup} {name : String}
    (h : lookupStats metadata rg name = some (context, stats)) :
    ∃ i chunk md, statisticsContext metadata i = some context ∧ rg.rgColumns[i]? = some chunk ∧
      chunk.ccMetadata = some md ∧ md.cmStatistics = some stats ∧
      ∀ j other, rg.rgColumns[j]? = some other → other.named name = true → j = i := by
  obtain ⟨i, hi, h⟩ := Option.bind_eq_some_iff.1 h
  obtain ⟨context', hcontext, h⟩ := Option.bind_eq_some_iff.1 h
  obtain ⟨chunk, hchunk, h⟩ := Option.bind_eq_some_iff.1 h
  obtain ⟨md, hmd, h⟩ := Option.bind_eq_some_iff.1 h
  obtain ⟨stats', hstats, h⟩ := Option.bind_eq_some_iff.1 h
  obtain ⟨-, h⟩ := Option.ite_none_right_eq_some.1 h
  cases h
  refine ⟨i, chunk, md, hcontext, hchunk, hmd, hstats, fun j other hj hn => ?_⟩
  obtain ⟨⟨-, hone⟩, hhead⟩ := Option.ite_none_right_eq_some.1 hi
  obtain ⟨k, hk⟩ := List.length_eq_one_iff.1 hone
  have hmem : j ∈ findIndices (fun column => ColumnChunk.named column name) rg.rgColumns :=
    mem_findIndices.2 ⟨other, hj, hn⟩
  rw [hk] at hhead hmem
  cases hhead
  exact List.mem_singleton.1 hmem

theorem combineDecisions_keep {a b : Decision} (ha : a = .maybeKeep) (hb : b = .maybeKeep) :
    combineDecisions a b = .maybeKeep := by
  rw [ha, hb]
  rfl

/-- **A row group with a matching row is kept.** -/
theorem evalRowGroup_keeps
    (hm : ∀ i context, statisticsContext metadata i = some context → ¬MisreadBounds context) {rg : RowGroup}
    {rows : List Row} (ht : TruthfulGroup metadata rg rows) {row : Row} (hrow : row ∈ rows) {p : Predicate}
    (h : Satisfies metadata rg row true p) : evalRowGroup metadata p rg = .maybeKeep := by
  unfold evalRowGroup
  induction p with
  | col name cp =>
    unfold evalPredicate
    split
    · rfl
    · rename_i context stats hlook
      obtain ⟨i, chunk, md, hcontext, hchunk, hmd, hstats, honly⟩ := lookupStats_eq_some hlook
      obtain ⟨j, other, hj, hn, cell, hcell, hholds⟩ := h
      obtain rfl := honly j other hj hn
      have hread : meaningAt metadata j = meaning context.statisticsField := by
        funext bytes
        rw [meaningAt, (statisticsContext_eq_some hcontext).1, Option.bind_some]
      rw [hread] at hholds
      exact evalLeaf_keeps (hm j context hcontext) (ht j context chunk md stats hcontext hchunk hmd hstats)
        (List.mem_flatMap.2 ⟨row, hrow, hcell⟩) hholds
  | and a b iha ihb => exact combineDecisions_keep (iha h.1) (ihb h.2)
  | or a b iha ihb =>
    unfold evalPredicate
    rcases h with h | h
    · rw [iha h]
    · rw [ihb h]
      cases evalPredicate (lookupStats metadata rg) a <;> rfl
  | not a => rfl
  | tt => rfl
  | ff => cases h

/-! ## Pages -/

/-- Every bound of a page holds of its values, and a page of nulls has only nulls. -/
def TruthfulIndex (context : StatisticsContext) (ci : ColumnIndex) (pages : List (List (Option (List UInt8)))) : Prop :=
  pages.length = ci.ciNullPages.length ∧
    ∀ (i : Nat) page, pages[i]? = some page →
      (ci.ciNullPages[i]? = some true → ∀ cell ∈ page, cell = none) ∧
      (ci.ciNullPages[i]? = some false → ∀ a, some a ∈ page →
        (∀ b, ci.ciMinValues[i]? = some b → AtMost context b a) ∧
          ∀ b, ci.ciMaxValues[i]? = some b → AtMost context a b)

theorem evalPage_keeps (hm : ¬MisreadBounds context) {isNull : Bool}
    {min max : List UInt8} (hnull : isNull = true → cell = none)
    (hmin : isNull = false → ∀ a, cell = some a → AtMost context min a ∧ AtMost context a max)
    (h : cp.holds (meaning context.statisticsField) true cell) : evalPage context cp isNull min max = .maybeKeep := by
  cases isNull with
  | true =>
    rw [hnull rfl] at h
    rw [holds_null h]
    rfl
  | false =>
    simp only [evalPage, Bool.false_eq_true, if_false]
    split
    case h_2 => rfl
    case h_1 mn mx hmn hmx =>
    obtain ⟨hs, hmn⟩ := Option.ite_none_right_eq_some.1 hmn
    obtain ⟨-, hmx⟩ := Option.ite_none_right_eq_some.1 hmx
    have hmis : ¬Misread context.statisticsField := fun hmis => hm ⟨hmis, misread_modern hmis hs⟩
    cases cell with
    | none =>
      rw [holds_null h]
      unfold evalRange
      split <;> rfl
    | some a =>
      obtain ⟨hlo, hhi⟩ := hmin rfl a rfl
      refine evalRange_keeps (fun x lo hx hv => ?_) (fun x hi hx hv => ?_) h
      · exact (decode_faithful hmis hmn).not_lt (fun y hy => modern_le hs hlo hy hx) hx hv
      · exact (decode_faithful hmis hmx).not_gt (fun y hy => modern_le hs hhi hx hy) hx hv

/-- **A page with a matching value is kept.** -/
theorem evalPages_keeps (hm : ¬MisreadBounds context) {ci : ColumnIndex}
    {pages : List (List (Option (List UInt8)))} (ht : TruthfulIndex context ci pages) {i : Nat}
    {page : List (Option (List UInt8))} (hpage : pages[i]? = some page) (hc : cell ∈ page)
    (h : cp.holds (meaning context.statisticsField) true cell) :
    (evalPagesByColumnIndex context ci cp)[i]? = some .maybeKeep := by
  obtain ⟨hlen, hpages⟩ := ht
  have hi : i < ci.ciNullPages.length := by
    rw [← hlen]
    exact (List.getElem?_eq_some_iff.1 hpage).1
  unfold evalPagesByColumnIndex
  dsimp only
  split
  · rw [List.getElem?_replicate, if_pos hi]
  · rename_i hlens
    push Not at hlens
    rw [List.getElem?_map, List.getElem?_range hi, Option.map_some]
    refine congrArg some (evalPage_keeps hm (?_ : _ → cell = none) ?_ h)
    · intro hn
      rw [List.getD_eq_getElem?_getD, List.getElem?_eq_getElem hi] at hn
      exact (hpages i page hpage).1 (by rw [List.getElem?_eq_getElem hi]; exact congrArg some hn) cell hc
    · intro hn a ha
      rw [List.getD_eq_getElem?_getD, List.getElem?_eq_getElem hi] at hn
      have hb := (hpages i page hpage).2 (by rw [List.getElem?_eq_getElem hi]; exact congrArg some hn) a (ha ▸ hc)
      have hmn : i < ci.ciMinValues.length := by omega
      have hmx : i < ci.ciMaxValues.length := by omega
      rw [List.getD_eq_getElem?_getD, List.getD_eq_getElem?_getD, List.getElem?_eq_getElem hmn,
        List.getElem?_eq_getElem hmx]
      exact ⟨hb.1 _ (List.getElem?_eq_getElem hmn), hb.2 _ (List.getElem?_eq_getElem hmx)⟩

end Wireform.Parquet

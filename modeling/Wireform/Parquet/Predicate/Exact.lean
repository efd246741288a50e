/-
  When nothing that matches is skipped.

  * `GroupsKept`, `PagesKept`, `FiltersKept`: row groups, pages and column chunks with a match
    are kept, whatever the predicate;
  * `misread_skipped`: the bounds of a misread column skip a match;
  * `never_skips_iff`: matches are kept exactly where no column is misread.
-/
import Wireform.Parquet.Predicate.Membership
import Wireform.Parquet.Predicate.Sound

namespace Wireform.Parquet

open Columnar

/-! ## Misread columns -/

theorem decode_misread {field : SchemaElement} (hm : Misread field) (bytes : List UInt8) :
    decodePValueForSchema field bytes = decodePValueForSchema.carrier field bytes := by
  obtain ⟨hdef, -, hr, ht⟩ := hm
  unfold decodePValueForSchema
  rw [hdef, Bool.not_true, if_neg (by decide)]
  split
  case h_1 hl =>
    rw [reading, hl] at hr
    cases hr
  case h_2 hl =>
    refine if_neg (not_not.2 ?_)
    have hcompat := (Bool.and_eq_true_iff.1 hdef).1
    rcases ht with ht | ht
    · simp [hasCompatiblePhysicalType, hl, SchemaElement.fixed, SchemaElement.physical, ht] at hcompat
    · exact ht
  case h_3 hl =>
    rw [reading, hl] at hr
    cases hr
  case h_4 => rfl

/-- Minus one, which the bounds of a misread column take for the greatest number. -/
theorem misread_bound {field : SchemaElement} (hm : Misread field) :
    ∃ bytes n, meaning field bytes = some (rational (-1)) ∧ decodePValueForSchema field bytes = some (.unsigned n) := by
  have hdecode := decode_misread hm
  obtain ⟨-, hu, hr, ht⟩ := hm
  rcases ht with ht | ht
  · refine ⟨List.replicate 4 255, 0xffffffff, ?_, ?_⟩
    · rw [meaning, ht, hr, Option.bind_some]
      have hval : signedLE (List.replicate 4 255) = -1 := by decide
      simp only [readAs, List.length_replicate, if_true, hval, Int.cast_neg, Int.cast_one]
    · rw [hdecode, decodePValueForSchema.carrier, if_pos hu, ht]
      rfl
  · refine ⟨List.replicate 8 255, 0xffffffffffffffff, ?_, ?_⟩
    · rw [meaning, ht, hr, Option.bind_some]
      have hval : signedLE (List.replicate 8 255) = -1 := by decide
      simp only [readAs, List.length_replicate, if_true, hval, Int.cast_neg, Int.cast_one]
    · rw [hdecode, decodePValueForSchema.carrier, if_pos hu, ht]
      rfl

/-- A number below zero is below every unsigned number. -/
def belowZero : PColPredicate := .lt (.unsigned 0)

theorem belowZero_holds {α : Type} {read : α → Option Scalar} {a : α} (h : read a = some (rational (-1))) :
    belowZero.holds read true (some a) := by
  have hlt : rational (-1) < rational ((0 : UInt64).toNat : ℚ) := rational_lt.2 (by norm_num)
  exact ⟨a, _, _, rfl, h, rfl, Or.inl hlt.le, iff_of_true hlt rfl⟩

theorem evalRange_belowZero (n : UInt64) : evalRange (.unsigned n) (.unsigned n) belowZero = .skip := by
  have hself : pvLess (.unsigned n) (.unsigned n) = false := decide_eq_false (UInt64.lt_irrefl n)
  have hzero : pvLessEq (.unsigned 0) (.unsigned n) = true := by
    rw [pvLessEq, Bool.or_eq_true]
    by_cases h : n = 0
    · exact Or.inr (decide_eq_true (by rw [h]))
    · refine Or.inl (decide_eq_true (UInt64.lt_iff_toNat_lt.2 (Nat.pos_of_ne_zero fun hn => h ?_)))
      exact UInt64.toNat_inj.1 hn
  unfold evalRange
  rw [hself, if_neg (by decide)]
  exact if_pos hzero

variable {context : StatisticsContext} {metadata : FileMetadata} {ty : ParquetType} {bytes : List UInt8}

theorem misread_supported (hm : MisreadBounds context) :
    modernOrderSupported context = true := by
  obtain ⟨⟨hdef, -, -, ht⟩, ho⟩ := hm
  rw [modernOrderSupported, hdef, ho]
  rcases ht with ht | ht <;> rw [ht] <;> rfl

theorem atMost_self (ho : context.statisticsOrder = some .typeDefinedOrder)
    (bytes : List UInt8) : AtMost context bytes bytes := by
  rw [AtMost, ho]
  intro x y hx hy
  rw [hx] at hy
  cases hy
  exact le_rfl

/-! ## Row groups -/

/-- Row groups with a match are kept. -/
def GroupsKept (metadata : FileMetadata) : Prop :=
  ∀ rg rows, TruthfulGroup metadata rg rows → ∀ row ∈ rows, ∀ p, Satisfies metadata rg row true p →
    evalRowGroup metadata p rg = .maybeKeep

/-- The bounds of no column are misread. -/
def WellRead (metadata : FileMetadata) : Prop :=
  ∀ i context, statisticsContext metadata i = some context → ¬MisreadBounds context

/-- The statistics of one value. -/
def singleStatistics (bytes : List UInt8) : Statistics := { statMinValue := some bytes, statMaxValue := some bytes }

/-- A row group where only the `i`-th column chunk of `n` has metadata. -/
def singleGroup (n i : Nat) (ty : ParquetType) (bytes : List UInt8) : RowGroup :=
  ⟨(List.range n).map fun j => ⟨if j = i then some ⟨ty, ["c"], some (singleStatistics bytes)⟩ else none⟩⟩

theorem singleGroup_get {n i j : Nat} {chunk : ColumnChunk}
    (h : (singleGroup n i ty bytes).rgColumns[j]? = some chunk) :
    chunk = ⟨if j = i then some ⟨ty, ["c"], some (singleStatistics bytes)⟩ else none⟩ := by
  rw [singleGroup, List.getElem?_map] at h
  obtain ⟨k, hk, rfl⟩ := Option.map_eq_some_iff.1 h
  obtain ⟨hlt, rfl⟩ := List.getElem?_eq_some_iff.1 hk
  rw [List.getElem_range]

theorem singleGroup_named {n i j : Nat} {chunk : ColumnChunk}
    (h : (singleGroup n i ty bytes).rgColumns[j]? = some chunk) : chunk.named "c" = true ↔ j = i := by
  rw [singleGroup_get h]
  by_cases hji : j = i
  · rw [if_pos hji]
    exact iff_of_true (by simp [ColumnChunk.named]) hji
  · rw [if_neg hji]
    exact iff_of_false (by simp [ColumnChunk.named]) hji

theorem singleGroup_index {n i : Nat} (hi : i < n) :
    findIndices (fun column => ColumnChunk.named column "c") (singleGroup n i ty bytes).rgColumns = [i] := by
  have hlen : (singleGroup n i ty bytes).rgColumns.length = n := by simp [singleGroup]
  have hget : ∀ j, j < n → ∃ chunk, (singleGroup n i ty bytes).rgColumns[j]? = some chunk :=
    fun j hj => ⟨_, List.getElem?_eq_getElem (by rw [hlen]; exact hj)⟩
  have hfilter : ∀ j ∈ List.range n,
      (((singleGroup n i ty bytes).rgColumns[j]?).elim false fun column => column.named "c") = (j == i) := by
    intro j hj
    obtain ⟨chunk, hchunk⟩ := hget j (List.mem_range.1 hj)
    rw [hchunk, Option.elim_some, Bool.eq_iff_iff, singleGroup_named hchunk, beq_iff_eq]
  rw [findIndices, hlen, List.filter_congr hfilter, List.filter_beq,
    List.count_eq_one_of_mem List.nodup_range (List.mem_range.2 hi), List.replicate_one]

/-- The statistics of the one named column chunk. -/
theorem singleGroup_lookup {i : Nat}
    (bytes : List UInt8) (hc : statisticsContext metadata i = some context)
    (hty : context.statisticsField.seType = some ty) :
    lookupStats metadata (singleGroup metadata.leaves.length i ty bytes) "c" = some (context, singleStatistics bytes) := by
  obtain ⟨hi, -⟩ := List.getElem?_eq_some_iff.1 (statisticsContext_eq_some hc).1
  have hlen : (singleGroup metadata.leaves.length i ty bytes).rgColumns.length = metadata.leaves.length := by
    simp [singleGroup]
  have hindex : lookupStats.index metadata (singleGroup metadata.leaves.length i ty bytes) "c" = some i := by
    rw [lookupStats.index, singleGroup_index hi, hlen]
    exact if_pos ⟨rfl, rfl⟩
  obtain ⟨chunk, hchunk⟩ : ∃ chunk, (singleGroup metadata.leaves.length i ty bytes).rgColumns[i]? = some chunk :=
    ⟨_, List.getElem?_eq_getElem (by rw [hlen]; exact hi)⟩
  have hmd : chunk.ccMetadata = some ⟨ty, ["c"], some (singleStatistics bytes)⟩ := by
    rw [singleGroup_get hchunk, if_pos rfl]
  simp only [lookupStats, hindex, hc, hchunk, hmd, Option.bind_eq_bind, Option.bind_some]
  exact if_pos hty

theorem singleGroup_truthful {i : Nat} (n : Nat)
    (ty : ParquetType) (bytes : List UInt8) (hc : statisticsContext metadata i = some context)
    (ho : context.statisticsOrder = some .typeDefinedOrder) :
    TruthfulGroup metadata (singleGroup n i ty bytes) [fun _ => [some bytes]] := by
  intro j context' chunk md stats hc' hchunk hmd hstats
  rw [singleGroup_get hchunk] at hmd
  obtain ⟨rfl, hmd'⟩ := Option.ite_none_right_eq_some.1 hmd
  cases hmd'
  cases hstats
  rw [hc] at hc'
  cases hc'
  have hself : ∀ a, some a ∈ column [fun _ => [some bytes]] j → a = bytes := by
    intro a ha
    simpa [column] using ha
  constructor
  · rintro b ⟨⟩ a ha
    rw [hself a ha]
    exact atMost_self ho _
  · rintro b ⟨⟩ a ha
    rw [hself a ha]
    exact atMost_self ho _
  · rintro b ⟨⟩
  · rintro b ⟨⟩
  · rintro b ⟨⟩

/-- **The bounds of a misread column skip a match.** -/
theorem misread_skipped {i : Nat}
    {n : UInt64} (hc : statisticsContext metadata i = some context) (hm : MisreadBounds context)
    (hty : context.statisticsField.seType = some ty) (hmeaning : meaning context.statisticsField bytes = some (rational (-1)))
    (hdecode : decodePValueForSchema context.statisticsField bytes = some (.unsigned n)) :
    TruthfulGroup metadata (singleGroup metadata.leaves.length i ty bytes) [fun _ => [some bytes]] ∧
      Satisfies metadata (singleGroup metadata.leaves.length i ty bytes) (fun _ => [some bytes]) true (.col "c" belowZero) ∧
      evalRowGroup metadata (.col "c" belowZero) (singleGroup metadata.leaves.length i ty bytes) = .skip := by
  obtain ⟨hleaf, -⟩ := statisticsContext_eq_some hc
  obtain ⟨hi, -⟩ := List.getElem?_eq_some_iff.1 hleaf
  refine ⟨singleGroup_truthful _ ty bytes hc hm.2, ?_, ?_⟩
  · have hlen : i < (singleGroup metadata.leaves.length i ty bytes).rgColumns.length := by simpa [singleGroup] using hi
    have hchunk := List.getElem?_eq_getElem hlen
    refine ⟨i, _, hchunk, (singleGroup_named hchunk).2 rfl, some bytes, List.mem_singleton.2 rfl, ?_⟩
    refine belowZero_holds ?_
    rw [meaningAt, hleaf, Option.bind_some, hmeaning]
  · have hvalue : statisticValue context (some bytes) none = some (.unsigned n) := by
      simp only [statisticValue, misread_supported hm, if_true, Option.bind_some, hdecode]
    have hmin : minimumStatistic context (singleStatistics bytes) = some (.unsigned n) := hvalue
    have hmax : maximumStatistic context (singleStatistics bytes) = some (.unsigned n) := hvalue
    simp only [evalRowGroup, evalPredicate, singleGroup_lookup bytes hc hty, evalLeaf, belowZero, hmin, hmax]
    exact evalRange_belowZero n

theorem groupsKept_iff (metadata : FileMetadata) : GroupsKept metadata ↔ WellRead metadata := by
  constructor
  · intro hkept i context hc hm
    obtain ⟨bytes, n, hmeaning, hdecode⟩ := misread_bound hm.1
    obtain ⟨ty, hty⟩ : ∃ ty, context.statisticsField.seType = some ty := by
      rcases hm.1.2.2.2 with h | h <;> exact ⟨_, h⟩
    obtain ⟨htruth, hsat, hskip⟩ := misread_skipped hc hm hty hmeaning hdecode
    have hkeep := hkept _ _ htruth _ (List.mem_singleton.2 rfl) _ hsat
    rw [hskip] at hkeep
    cases hkeep
  · intro hwell rg rows ht row hrow p hsat
    exact evalRowGroup_keeps hwell ht hrow hsat

/-! ## Pages -/

/-- Pages with a match are kept. -/
def PagesKept (metadata : FileMetadata) : Prop :=
  ∀ i context, statisticsContext metadata i = some context → ∀ ci pages, TruthfulIndex context ci pages →
    ∀ (k : Nat) page, pages[k]? = some page → ∀ cell ∈ page, ∀ cp : PColPredicate,
      cp.holds (meaning context.statisticsField) true cell → (evalPagesByColumnIndex context ci cp)[k]? = some .maybeKeep

theorem misread_page_skipped {i : Nat}
    (hc : statisticsContext metadata i = some context) (hm : MisreadBounds context) : ¬PagesKept metadata := by
  intro hkept
  obtain ⟨bytes, n, hmeaning, hdecode⟩ := misread_bound hm.1
  have htruth : TruthfulIndex context ⟨[false], [bytes], [bytes]⟩ [[some bytes]] := by
    refine ⟨rfl, fun k page hpage => ?_⟩
    obtain ⟨rfl, rfl⟩ : k = 0 ∧ page = [some bytes] := by
      cases k with
      | zero => exact ⟨rfl, (Option.some.inj hpage).symm⟩
      | succ k => cases hpage
    refine ⟨?_, fun _ a ha => ?_⟩
    · intro h
      cases h
    have hself : a = bytes := by simpa using ha
    rw [hself]
    exact ⟨fun b hb => by cases hb; exact atMost_self hm.2 _, fun b hb => by cases hb; exact atMost_self hm.2 _⟩
  have hkeep := hkept i context hc _ _ htruth 0 _ rfl (some bytes) (List.mem_singleton.2 rfl) belowZero
    (belowZero_holds hmeaning)
  have hskip : evalPage context belowZero false bytes bytes = .skip := by
    simp only [evalPage, Bool.false_eq_true, if_false, misread_supported hm, if_true, hdecode]
    exact evalRange_belowZero n
  have hpages : (evalPagesByColumnIndex context ⟨[false], [bytes], [bytes]⟩ belowZero)[0]? =
      some (evalPage context belowZero false bytes bytes) := rfl
  rw [hpages, hskip] at hkeep
  cases hkeep

theorem pagesKept_iff (metadata : FileMetadata) : PagesKept metadata ↔ WellRead metadata := by
  constructor
  · intro hkept i context hc hm
    exact misread_page_skipped hc hm hkept
  · intro hwell i context hc ci pages ht k page hpage cell hcell cp hholds
    exact evalPages_keeps (hwell i context hc) ht hpage hcell hholds

/-! ## Matches -/

/-- Column chunks with a match are kept by every filter that holds their values, in any order and with others. -/
def FiltersKept (xxh64 : List UInt8 → UInt64) (metadata : FileMetadata) : Prop :=
  ∀ field ∈ metadata.leaves, ∀ start values (cells : List (Option (List UInt8))), (∀ bytes, some bytes ∈ cells → bytes ∈ values) →
    ∀ cell ∈ cells, ∀ cp : PColPredicate, cp.holds (meaning field) true cell →
      evalBloomChunk xxh64 field (insertAll xxh64 start values) cp = .maybeKeep

/-- Nothing that matches is skipped. -/
structure NeverSkips (xxh64 : List UInt8 → UInt64) (metadata : FileMetadata) : Prop where
  groups : GroupsKept metadata
  pages : PagesKept metadata
  filters : FiltersKept xxh64 metadata

/-- **Nothing that matches is skipped, exactly where no column is misread.** -/
theorem never_skips_iff (xxh64 : List UInt8 → UInt64) (metadata : FileMetadata) :
    NeverSkips xxh64 metadata ↔ WellRead metadata := by
  constructor
  · intro h
    exact (groupsKept_iff metadata).1 h.groups
  · intro hwell
    refine ⟨(groupsKept_iff metadata).2 hwell, (pagesKept_iff metadata).2 hwell, ?_⟩
    intro field _ start values cells hall cell hcell cp hholds
    exact evalBloomChunk_keeps start hall hcell hholds

/-- A column of dates that an older reader takes for unsigned numbers. -/
def unsignedDate : SchemaElement :=
  { seType := some .int32, seConvertedType := some .uInt32, seLogicalType := some .date }

def unsignedDates : FileMetadata := ⟨[unsignedDate], some [.typeDefinedOrder]⟩

/-- The day before the epoch is below zero, and the row group that holds it is skipped. -/
theorem date_skipped :
    let bytes : List UInt8 := [255, 255, 255, 255]
    let rg : RowGroup := ⟨[⟨some ⟨.int32, ["c"], some (singleStatistics bytes)⟩⟩]⟩
    let row : Row := fun _ => [some bytes]
    TruthfulGroup unsignedDates rg [row] ∧ Satisfies unsignedDates rg row true (.col "c" (.lt (.unsigned 0))) ∧
      evalRowGroup unsignedDates (.col "c" (.lt (.unsigned 0))) rg = .skip := by
  intro bytes rg row
  have hmeaning : meaning unsignedDate bytes = some (rational (-1)) := by
    have hval : signedLE bytes = -1 := by decide
    have hread : meaning unsignedDate bytes = some (rational (signedLE bytes)) := rfl
    rw [hread, hval, Int.cast_neg, Int.cast_one]
  have hmis : MisreadBounds ⟨unsignedDate, some .typeDefinedOrder⟩ := ⟨⟨rfl, rfl, rfl, Or.inl rfl⟩, rfl⟩
  have hdecode : decodePValueForSchema unsignedDate [255, 255, 255, 255] = some (.unsigned 0xffffffff) := by decide
  have hcontext : statisticsContext unsignedDates 0 = some ⟨unsignedDate, some .typeDefinedOrder⟩ := rfl
  exact misread_skipped hcontext hmis rfl hmeaning hdecode

end Wireform.Parquet

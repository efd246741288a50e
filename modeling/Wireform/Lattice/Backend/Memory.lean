/-
  Pages of a collection (`Lattice.Backend.Memory`).

  The rows of a collection are sorted by its keyset and shown in windows.  Counts become
  machine integers; the length of a list is a number.

  * `compareEnum`, `cmpKeys`, `cmpRow`: the order of the rows, with `transCmp_cmpRow`;
  * `paginateKeyset`, `pageFromRows`: the windows;
  * `Shows`: what a page says of what lies before and after it;
  * `pagination_exact`: following the cursors of nonempty pages.
-/
import Mathlib.Algebra.Order.Ring.Unbundled.Rat
import Mathlib.Data.List.Defs
import Wireform.AssocMap
import Wireform.Keyset
import Wireform.MachineInt
import Wireform.Lattice.Backend.Value

namespace Wireform.Lattice.Backend

open AssocMap (lookup)

abbrev TypeName := String

structure Ref where
  refType : TypeName
  refKey : String

inductive FieldType where
  | prim
  | named (n : TypeName)
  | optional (t : FieldType)
  | list (t : FieldType)
  | list1 (t : FieldType)
  | set (t : FieldType)
  | map (k v : FieldType)
  | vec (n : Nat) (t : FieldType)

/-- Of the declared types, only enumerations matter to the order. -/
inductive TypeDecl where
  | newtype
  | record
  | sum
  | enum (ctors : List String)

structure EntityDef where
  entityFields : AssocMap FieldName FieldType

structure Schema where
  schemaTypes : AssocMap TypeName TypeDecl
  schemaEntities : AssocMap TypeName EntityDef

inductive PageDir where
  | forward
  | backward
  | around

inductive Window where
  | whole (n : Nat)
  | page (wCount : Nat) (wDir : PageDir) (wAnchor : Option Cursor)

inductive OverflowPolicy where
  | overflow
  | truncate
  deriving DecidableEq

inductive Windowing where
  | bounded (min max : Nat) (policy : OverflowPolicy)
  | paginated (spec : CursorSpec)

structure Page where
  pageRefs : List Ref
  pageNext : Option String
  pagePrev : Option String
  pageTotal : Option Nat
  pageOverflow : Bool

/-- The fields of a row that are present. -/
abbrev Row := Ref × AssocMap FieldName Value

/-- A row with its values in the columns of the keyset. -/
structure KeyedRow (n : Nat) where
  krRef : Ref
  krKeys : List Value
  length_krKeys : krKeys.length = n

variable (c : Codec) (schema : Schema) (targets : List TypeName)

/-! ## The order -/

def rank : Value → Nat
  | .null => 0
  | .bool _ => 1
  | .number _ => 2
  | .string _ => 3
  | .array _ => 4
  | .object _ => 5

attribute [grind =] rank

/-- Values of one shape by what they hold, others by their shape. -/
def compareCanonical (a b : Value) : Ordering :=
  match a, b with
  | .number x, .number y => compare x y
  | .string x, .string y => compare x y
  | .bool x, .bool y => compare x y
  | .null, .null => .eq
  | a, b => if rank a ≠ rank b then compare (rank a) (rank b) else compare (c.canonicalJson a) (c.canonicalJson b)

attribute [grind =] compareCanonical

/-- The place of a constructor in the declaration; unknown ones come last. -/
def ctorIndex (ctors : List String) (x : String) : Nat := (ctors.idxOf? x).getD ctors.length

def compareEnum (ctors : List String) (a b : Value) : Ordering :=
  match a, b with
  | .string x, .string y => (compare (ctorIndex ctors x) (ctorIndex ctors y)).then (compare x y)
  | a, b => compareCanonical c a b

attribute [grind =] compareEnum

def stripOptional : FieldType → FieldType
  | .optional t => stripOptional t
  | t => t

/-- The constructors of the column's type, if that is an enumeration. -/
def enumCtors (field : FieldName) : Option (List String) :=
  match (targets.filterMap fun ty => (lookup ty schema.schemaEntities).bind fun e => lookup field e.entityFields) with
  | t :: _ =>
    match stripOptional t with
    | .named n =>
      match lookup n schema.schemaTypes with
      | some (.enum ctors) => some ctors
      | _ => none
    | _ => none
  | [] => none

def columnComparator (field : FieldName) : Value → Value → Ordering :=
  match enumCtors schema targets field with
  | some ctors => compareEnum c ctors
  | none => compareCanonical c

attribute [grind =] columnComparator

abbrev Column := (Value → Value → Ordering) × Direction

def Column.apply : Column → Value → Value → Ordering
  | (cmp, .asc), a, b => cmp a b
  | (cmp, .desc), a, b => cmp b a

def cmpKeys (cols : List Column) (as bs : List Value) : Ordering :=
  (List.zipWith3 Column.apply cols as bs).foldr Ordering.then .eq

def columnsOf (spec : CursorSpec) : List Column :=
  spec.csKeyset.map fun k => (columnComparator c schema targets k.1, k.2)

def keyedRow (spec : CursorSpec) (row : Row) : KeyedRow spec.csKeyset.length where
  krRef := row.1
  krKeys := spec.csKeyset.map fun k => (lookup k.1 row.2).getD .null
  length_krKeys := List.length_map _

section

variable {n : Nat} (cols : List Column)

def cmpAnchor (r : KeyedRow n) (anchorKeys : List Value) : Ordering := cmpKeys cols r.krKeys anchorKeys

/-- The key of the row decides between rows with the same keyset. -/
def cmpRow (a b : KeyedRow n) : Ordering :=
  (cmpKeys cols a.krKeys b.krKeys).then (compare a.krRef.refKey b.krRef.refKey)

/-! ## Windows -/

/-- The machine integer that a count becomes. -/
def fromIntegral (n : Nat) : Int := wrap n

/-- Where the window starts, and the rows that it shows. -/
def itemsOf (sorted : List (KeyedRow n)) : Window → Nat × List (KeyedRow n)
  | .whole size => (0, sorted.take (fromIntegral size).toNat)
  | .page count .forward none => (0, sorted.take (fromIntegral count).toNat)
  | .page count .forward (some anchor) =>
    let skipped := (sorted.takeWhile fun r => cmpAnchor cols r anchor.curValues != .gt).length
    (skipped, (sorted.drop skipped).take (fromIntegral count).toNat)
  | .page count .backward anchor =>
    let pool :=
      match anchor with
      | none => sorted
      | some anchor => sorted.takeWhile fun r => cmpAnchor cols r anchor.curValues == Ordering.lt
    let s := (max 0 (pool.length - fromIntegral count)).toNat
    (s, pool.drop s)
  | .page count .around none => (0, sorted.take (fromIntegral count).toNat)
  | .page count .around (some anchor) =>
    let idx := (sorted.takeWhile fun r => cmpAnchor cols r anchor.curValues == .lt).length
    let s := (max 0 (min (idx - fromIntegral count / 2) (sorted.length - fromIntegral count))).toNat
    (s, (sorted.drop s).take (fromIntegral count).toNat)

attribute [grind =] itemsOf

end

def sortedRows (spec : CursorSpec) (rows : List Row) : List (KeyedRow spec.csKeyset.length) :=
  (rows.map (keyedRow spec)).mergeSort fun a b => (cmpRow (columnsOf c schema targets spec) a b).isLE

def paginateKeyset (spec : CursorSpec) (window : Window) (rows : List Row) : Page :=
  let sorted := sortedRows c schema targets spec rows
  let (start, items) := itemsOf (columnsOf c schema targets spec) sorted window
  { pageRefs := items.map KeyedRow.krRef
    pageNext :=
      if start + items.length < sorted.length then items.getLast?.map fun r => c.encodeCursor spec r.krKeys else none
    pagePrev := if start > 0 then items.head?.map fun r => c.encodeCursor spec r.krKeys else none
    pageTotal := if spec.csTotal = .none then none else some sorted.length
    pageOverflow := false }

def pageFromRows (windowing : Windowing) (window : Window) (rows : List Row) : Page :=
  match windowing with
  | .bounded _ _ policy =>
    let cap := fromIntegral (match window with
      | .whole n => n
      | .page count _ _ => count)
    let sorted := rows.mergeSort fun a b => (compare a.1.refKey b.1.refKey).isLE
    { pageRefs := (sorted.take cap.toNat).map Prod.fst
      pageNext := none
      pagePrev := none
      pageTotal := none
      pageOverflow := policy = .overflow ∧ (sorted.length : Int) > cap }
  | .paginated spec => paginateKeyset c schema targets spec window rows

attribute [grind =] pageFromRows

/-! ## The order is one -/

/-- What a value is compared by, one part for each shape. -/
def numberPart : Value → ℚ
  | .number x => x
  | _ => 0

def textPart : Value → String
  | .string x => x
  | _ => ""

def boolPart : Value → Bool
  | .bool x => x
  | _ => false

def bytesPart : Value → List UInt8
  | .array xs => c.canonicalJson (.array xs)
  | .object o => c.canonicalJson (.object o)
  | _ => []

def ctorPart (ctors : List String) : Value → Nat
  | .string x => ctorIndex ctors x
  | _ => 0

/-- The comparison part by part. -/
def byParts (ctors : List String) : Value → Value → Ordering :=
  compareLex (compareOn rank) (compareLex (compareOn numberPart) (compareLex (compareOn (ctorPart ctors))
    (compareLex (compareOn textPart) (compareLex (compareOn boolPart) (compareOn (bytesPart c))))))

theorem compareEnum_of_rank_ne (ctors : List String) {a b : Value} (h : rank a ≠ rank b) :
    compareEnum c ctors a b = compare (rank a) (rank b) := by
  cases a <;> cases b <;> first | exact absurd rfl h | simp [compareEnum, compareCanonical, rank]

theorem byParts_of_rank_ne (ctors : List String) {a b : Value} (h : rank a ≠ rank b) :
    byParts c ctors a b = compare (rank a) (rank b) := by
  simp only [byParts, compareLex, compareOn]
  cases hcmp : compare (rank a) (rank b) with
  | eq => exact absurd (compare_eq_iff_eq.1 hcmp) h
  | _ => rfl

theorem compareEnum_eq (ctors : List String) (a b : Value) : compareEnum c ctors a b = byParts c ctors a b := by
  by_cases h : rank a = rank b
  · cases a <;> cases b <;> first
      | (simp [rank] at h; done)
      | simp [compareEnum, compareCanonical, byParts, compareLex, compareOn, rank, numberPart, textPart, boolPart,
          bytesPart, ctorPart]
  · rw [compareEnum_of_rank_ne c ctors h, byParts_of_rank_ne c ctors h]

theorem compareCanonical_eq (a b : Value) : compareCanonical c a b = compareEnum c [] a b := by
  cases a <;> cases b <;> rfl

instance transCmp_byParts (ctors : List String) : Std.TransCmp (byParts c ctors) := by
  unfold byParts
  infer_instance

theorem transCmp_columnComparator (field : FieldName) : Std.TransCmp (columnComparator c schema targets field) := by
  unfold columnComparator
  split
  · rename_i ctors _
    rw [funext₂ (compareEnum_eq c ctors)]
    infer_instance
  · rw [funext₂ (compareCanonical_eq c), funext₂ (compareEnum_eq c [])]
    infer_instance

theorem byParts_eq_eq (ctors : List String) (a b : Value) : byParts c ctors a b = .eq ↔ rank a = rank b ∧
    numberPart a = numberPart b ∧ ctorPart ctors a = ctorPart ctors b ∧ textPart a = textPart b ∧
      boolPart a = boolPart b ∧ bytesPart c a = bytesPart c b := by
  simp only [byParts, compareLex, compareOn, Ordering.then_eq_eq, compare_eq_iff_eq, Std.LawfulEqOrd.compare_eq_iff_eq]

/-- Values that a column does not tell apart are equal, if what is written for them can be read. -/
theorem eq_of_compareEnum {ctors : List String} {a b : Value} (ha : c.Reads a) (hb : c.Reads b)
    (h : compareEnum c ctors a b = .eq) : a = b := by
  rw [compareEnum_eq, byParts_eq_eq] at h
  obtain ⟨hrank, hnumber, -, htext, hbool, hbytes⟩ := h
  have hread : c.canonicalJson a = c.canonicalJson b → a = b := fun heq => by
    have hdecode : c.decodeStrict (c.canonicalJson a) = some a := ha
    rw [heq, hb] at hdecode
    exact (Option.some.inj hdecode).symm
  cases a <;> cases b <;> first
    | (simp [rank] at hrank; done)
    | rfl
    | exact congrArg Value.number hnumber
    | exact congrArg Value.string htext
    | exact congrArg Value.bool hbool
    | exact hread hbytes

theorem eq_of_columnComparator {field : FieldName} {a b : Value} (ha : c.Reads a) (hb : c.Reads b)
    (h : columnComparator c schema targets field a b = .eq) : a = b := by
  cases hctors : enumCtors schema targets field with
  | some ctors =>
    simp only [columnComparator, hctors] at h
    exact eq_of_compareEnum c ha hb h
  | none =>
    simp only [columnComparator, hctors] at h
    rw [compareCanonical_eq] at h
    exact eq_of_compareEnum c ha hb h

/-! ### Keysets -/

theorem cmpKeys_eq_columns (cols : List Column) (as bs : List Value) :
    cmpKeys cols as bs = Keyset.columns (cols.map Column.apply) as bs := by
  induction cols generalizing as bs with
  | nil => rfl
  | cons col cols ih =>
    cases as with
    | nil => rfl
    | cons a as =>
      cases bs with
      | nil => rfl
      | cons b bs => exact congrArg (col.apply a b).then (ih as bs)

variable (spec : CursorSpec)

theorem transCmp_apply : ∀ cmp ∈ (columnsOf c schema targets spec).map Column.apply, Std.TransCmp cmp := by
  intro cmp hcmp
  simp only [columnsOf, List.map_map, List.mem_map, Function.comp_apply] at hcmp
  obtain ⟨⟨field, dir⟩, -, rfl⟩ := hcmp
  have hcol := transCmp_columnComparator c schema targets field
  cases dir with
  | asc => exact hcol
  | desc =>
    show Std.TransCmp fun a b => columnComparator c schema targets field b a
    exact Std.TransCmp.opposite

theorem eq_of_apply {a b : Value} (ha : c.Reads a) (hb : c.Reads b) :
    ∀ cmp ∈ (columnsOf c schema targets spec).map Column.apply, cmp a b = .eq → a = b := by
  intro cmp hcmp heq
  simp only [columnsOf, List.map_map, List.mem_map, Function.comp_apply] at hcmp
  obtain ⟨⟨field, dir⟩, -, rfl⟩ := hcmp
  cases dir with
  | asc => exact eq_of_columnComparator c schema targets ha hb heq
  | desc => exact (eq_of_columnComparator c schema targets hb ha heq).symm

theorem length_columnsOf : ((columnsOf c schema targets spec).map Column.apply).length = spec.csKeyset.length := by
  rw [columnsOf, List.length_map, List.length_map]

/-- Rows with the same keyset are those that no column tells apart. -/
theorem keys_eq_of_cmpKeys {a b : KeyedRow spec.csKeyset.length} (ha : ∀ v ∈ a.krKeys, c.Reads v)
    (hb : ∀ v ∈ b.krKeys, c.Reads v) (h : cmpKeys (columnsOf c schema targets spec) a.krKeys b.krKeys = .eq) :
    a.krKeys = b.krKeys := by
  have hlen := length_columnsOf c schema targets spec
  rw [cmpKeys_eq_columns] at h
  exact Keyset.eq_of_columns (a.length_krKeys.trans hlen.symm) (b.length_krKeys.trans hlen.symm)
    (fun cmp hcmp v hv w hw => eq_of_apply c schema targets spec (ha v hv) (hb w hw) cmp hcmp) h

/-- The keysets are ordered. -/
instance transCmp_keys : Std.TransCmp fun a b : KeyedRow spec.csKeyset.length =>
    cmpKeys (columnsOf c schema targets spec) a.krKeys b.krKeys where
  eq_swap := by
    intro a b
    rw [cmpKeys_eq_columns, cmpKeys_eq_columns]
    exact Keyset.columns_swap (fun cmp hcmp => (transCmp_apply c schema targets spec cmp hcmp).toOrientedCmp) _ _
  isLE_trans := by
    intro a b d hab hbd
    have hlen := length_columnsOf c schema targets spec
    rw [cmpKeys_eq_columns] at hab hbd ⊢
    exact Keyset.columns_trans (transCmp_apply c schema targets spec) (a.length_krKeys.trans hlen.symm)
      (b.length_krKeys.trans hlen.symm) (d.length_krKeys.trans hlen.symm) hab hbd

instance transCmp_cmpRow : Std.TransCmp (cmpRow (n := spec.csKeyset.length) (columnsOf c schema targets spec)) :=
  inferInstanceAs (Std.TransCmp (compareLex
    (fun a b : KeyedRow spec.csKeyset.length => cmpKeys (columnsOf c schema targets spec) a.krKeys b.krKeys)
    (compareOn fun r => r.krRef.refKey)))

/-! ### Sorted rows -/

theorem perm_sortedRows (rows : List Row) : (sortedRows c schema targets spec rows).Perm (rows.map (keyedRow spec)) :=
  List.mergeSort_perm _ _

/-- **Rows with different keysets are sorted strictly by their keysets.** -/
theorem sortedRows_pairwise {rows : List Row}
    (hreads : ∀ r ∈ rows, ∀ v ∈ (keyedRow spec r).krKeys, c.Reads v)
    (hkeys : (rows.map (keyedRow spec)).Pairwise fun a b => a.krKeys ≠ b.krKeys) :
    (sortedRows c schema targets spec rows).Pairwise fun a b =>
      cmpKeys (columnsOf c schema targets spec) a.krKeys b.krKeys = .lt := by
  have hperm := perm_sortedRows c schema targets spec rows
  have hread : ∀ r ∈ sortedRows c schema targets spec rows, ∀ v ∈ r.krKeys, c.Reads v := by
    intro r hr
    obtain ⟨row, hrow, rfl⟩ := List.mem_map.1 (hperm.mem_iff.1 hr)
    exact hreads row hrow
  have hle : (sortedRows c schema targets spec rows).Pairwise fun a b =>
      (cmpRow (columnsOf c schema targets spec) a b).isLE = true := by
    refine List.pairwise_mergeSort ?_ ?_ _
    · intro a b d hab hbd
      exact Std.TransCmp.isLE_trans hab hbd
    · intro a b
      rw [Bool.or_eq_true]
      rcases hcmp : cmpRow (columnsOf c schema targets spec) a b with _ | _ | _
      · exact .inl rfl
      · exact .inl rfl
      · exact .inr (by rw [Std.OrientedCmp.lt_of_gt hcmp]; rfl)
  have hne : (sortedRows c schema targets spec rows).Pairwise fun a b => a.krKeys ≠ b.krKeys :=
    hperm.symm.pairwise hkeys fun h => h.symm
  refine (hle.and hne).imp_of_mem fun {a b} ha hb h => ?_
  obtain ⟨hab, hdiff⟩ := h
  cases hcmp : cmpKeys (columnsOf c schema targets spec) a.krKeys b.krKeys with
  | lt => rfl
  | eq => exact absurd (keys_eq_of_cmpKeys c schema targets spec (hread a ha) (hread b hb) hcmp) hdiff
  | gt =>
    rw [cmpRow, hcmp] at hab
    cases hab

/-! ## Windows of the sorted rows -/

/-- A count that a machine integer holds. -/
def Countable (n : Nat) : Prop := 1 ≤ n ∧ n < 2 ^ 63

theorem Countable.toNat {n : Nat} (h : Countable n) : fromIntegral n = n := by
  obtain ⟨-, hlt⟩ := h
  exact wrap_eq ⟨by omega, by omega⟩

section

variable {n count : Nat} {cols : List Column} {sorted before items after : List (KeyedRow n)} {r : KeyedRow n}

/-- Every window shows rows that stand next to each other, from its start on. -/
theorem itemsOf_eq (cols : List Column) (sorted : List (KeyedRow n)) (w : Window) :
    ∃ m, (itemsOf cols sorted w).2 = (sorted.drop (itemsOf cols sorted w).1).take m := by
  cases w with
  | whole size => exact ⟨_, rfl⟩
  | page count dir anchor =>
    cases dir with
    | forward => cases anchor <;> exact ⟨_, rfl⟩
    | around => cases anchor <;> exact ⟨_, rfl⟩
    | backward =>
      cases anchor with
      | none => exact ⟨sorted.length, (List.take_of_length_le (List.length_drop.trans_le (Nat.sub_le _ _))).symm⟩
      | some anchor =>
        have hpool := List.prefix_iff_eq_take.1 (List.takeWhile_prefix (l := sorted)
          fun r => cmpAnchor cols r anchor.curValues == Ordering.lt)
        refine ⟨(sorted.takeWhile fun r => cmpAnchor cols r anchor.curValues == Ordering.lt).length -
          (itemsOf cols sorted (.page count .backward (some anchor))).1, ?_⟩
        rw [← List.drop_take, ← hpool]
        rfl

/-- What a strictly sorted list says of the anchor. -/
theorem anchor_sides (hcols : Std.OrientedCmp fun a b : KeyedRow n => cmpKeys cols a.krKeys b.krKeys)
    (h : (before ++ r :: after).Pairwise fun a b => cmpKeys cols a.krKeys b.krKeys = .lt) :
    (∀ a ∈ before, cmpAnchor cols a r.krKeys = .lt) ∧ cmpAnchor cols r r.krKeys = .eq ∧
      ∀ b ∈ after, cmpAnchor cols b r.krKeys = .gt :=
  Keyset.sides h

variable (hcols : Std.OrientedCmp fun a b : KeyedRow n => cmpKeys cols a.krKeys b.krKeys)
  (hsorted : (before ++ r :: after).Pairwise fun a b => cmpKeys cols a.krKeys b.krKeys = .lt) (hcount : Countable count)
  (hash : String)

include hcols hsorted hcount

/-- The page after a row. -/
theorem itemsOf_forward : itemsOf cols (before ++ r :: after) (.page count .forward (some ⟨hash, r.krKeys⟩)) =
    ((before ++ [r]).length, after.take count) := by
  obtain ⟨hlt, heq, hgt⟩ := anchor_sides hcols hsorted
  simp only [itemsOf, Keyset.takeWhile_through hlt heq hgt, hcount.toNat, Int.toNat_natCast]
  have hdrop : (before ++ r :: after).drop (before ++ [r]).length = after := by
    rw [List.append_cons before r after, List.drop_left]
  rw [hdrop]

/-- The page before a row. -/
theorem itemsOf_backward : itemsOf cols (before ++ r :: after) (.page count .backward (some ⟨hash, r.krKeys⟩)) =
    (before.length - count, before.drop (before.length - count)) := by
  obtain ⟨hlt, heq, -⟩ := anchor_sides hcols hsorted
  have hstart : (max 0 ((before.length : Int) - count)).toNat = before.length - count := by omega
  simp only [itemsOf, Keyset.takeWhile_before hlt heq, hcount.toNat, hstart]

/-- **The page around a row shows it.** -/
theorem mem_itemsOf_around :
    r ∈ (itemsOf cols (before ++ r :: after) (.page count .around (some ⟨hash, r.krKeys⟩))).2 := by
  obtain ⟨hlt, heq, -⟩ := anchor_sides hcols hsorted
  have hpos := hcount.1
  simp only [itemsOf, Keyset.takeWhile_before hlt heq, hcount.toNat, Int.toNat_natCast]
  generalize hs : (max 0 (min ((before.length : Int) - count / 2) ((before ++ r :: after).length - count))).toNat = s
  have hfirst : s ≤ before.length := by omega
  have hlast : before.length - s < count := by
    rw [List.length_append, List.length_cons] at hs
    omega
  rw [List.drop_append_of_le_length hfirst, List.take_append]
  have hroom : 0 < count - (before.drop s).length := by
    rw [List.length_drop]
    omega
  obtain ⟨k, hk⟩ := Nat.exists_eq_add_of_lt hroom
  rw [hk, Nat.zero_add, List.take_succ_cons]
  exact List.mem_append_right _ List.mem_cons_self

end

/-! ## Pages -/

/-- What a page shows, where these rows lie before and after its own. -/
structure Shows (page : Page) (before items after : List (KeyedRow spec.csKeyset.length)) : Prop where
  refs : page.pageRefs = items.map KeyedRow.krRef
  next : page.pageNext = if after = [] then none else items.getLast?.map fun r => c.encodeCursor spec r.krKeys
  prev : page.pagePrev = if before = [] then none else items.head?.map fun r => c.encodeCursor spec r.krKeys

variable {c schema targets spec} {rows : List Row} {w : Window}
  {before items after : List (KeyedRow spec.csKeyset.length)}

theorem shows_of (hs : sortedRows c schema targets spec rows = before ++ items ++ after)
    (h : itemsOf (columnsOf c schema targets spec) (sortedRows c schema targets spec rows) w = (before.length, items)) :
    Shows c spec (pageFromRows c schema targets (.paginated spec) w rows) before items after := by
  have hnext : before.length + items.length < (before ++ items ++ after).length ↔ after ≠ [] := by
    rw [List.length_append, List.length_append, ← List.length_pos_iff]
    omega
  constructor
  · simp only [pageFromRows, paginateKeyset, h]
  · simp only [pageFromRows, paginateKeyset, h]
    rw [hs]
    by_cases hafter : after = []
    · rw [if_pos hafter, if_neg fun hlt => hnext.1 hlt hafter]
    · rw [if_neg hafter, if_pos (hnext.2 hafter)]
  · simp only [pageFromRows, paginateKeyset, h]
    by_cases hbefore : before = []
    · rw [if_pos hbefore, if_neg fun hpos => List.length_pos_iff.1 hpos hbefore]
    · rw [if_neg hbefore, if_pos (List.length_pos_iff.2 hbefore)]

/-- **A nonempty page shows rows that stand next to each other.** -/
theorem exists_shows (h : (pageFromRows c schema targets (.paginated spec) w rows).pageRefs ≠ []) :
    ∃ before items after, sortedRows c schema targets spec rows = before ++ items ++ after ∧ items ≠ [] ∧
      Shows c spec (pageFromRows c schema targets (.paginated spec) w rows) before items after := by
  obtain ⟨m, hm⟩ := itemsOf_eq (columnsOf c schema targets spec) (sortedRows c schema targets spec rows) w
  generalize hslice : itemsOf (columnsOf c schema targets spec) (sortedRows c schema targets spec rows) w = slice at hm
  obtain ⟨start, items⟩ := slice
  simp only at hm
  have hne : items ≠ [] := fun hnil => h (by simp only [pageFromRows, paginateKeyset, hslice, hnil, List.map_nil])
  have hstart : start ≤ (sortedRows c schema targets spec rows).length := by
    by_contra hlt
    refine hne ?_
    rw [hm, List.drop_eq_nil_of_le (by omega), List.take_nil]
  have hs : sortedRows c schema targets spec rows = (sortedRows c schema targets spec rows).take start ++ items ++
      ((sortedRows c schema targets spec rows).drop start).drop m := by
    rw [hm, List.append_assoc, List.take_append_drop, List.take_append_drop]
  refine ⟨_, items, _, hs, hne, shows_of hs ?_⟩
  rw [hslice, List.length_take, min_eq_left hstart]

/-- The first page. -/
theorem shows_first {count : Nat} (hcount : Countable count) :
    Shows c spec (pageFromRows c schema targets (.paginated spec) (.page count .forward none) rows) []
      ((sortedRows c schema targets spec rows).take count) ((sortedRows c schema targets spec rows).drop count) := by
  refine shows_of (by rw [List.nil_append, List.take_append_drop]) ?_
  simp only [itemsOf, hcount.toNat, Int.toNat_natCast, List.length_nil]

/-- What the rows and their cursors are promised to be. -/
structure Distinct (c : Codec) (spec : CursorSpec) (rows : List Row) : Prop where
  exact : ∀ r ∈ rows, c.Exact spec (keyedRow spec r).krKeys
  keys : (rows.map (keyedRow spec)).Pairwise fun a b => a.krKeys ≠ b.krKeys

theorem Distinct.sorted (h : Distinct c spec rows) (schema : Schema) (targets : List TypeName) :
    (sortedRows c schema targets spec rows).Pairwise fun a b =>
    cmpKeys (columnsOf c schema targets spec) a.krKeys b.krKeys = .lt :=
  sortedRows_pairwise c schema targets spec (fun r hr => (h.exact r hr).values) h.keys

theorem Distinct.decode (h : Distinct c spec rows) {r : KeyedRow spec.csKeyset.length}
    (hr : r ∈ sortedRows c schema targets spec rows) :
    (c.decodeCursor spec (c.encodeCursor spec r.krKeys)).toOption = some ⟨c.specHashOf spec, r.krKeys⟩ := by
  obtain ⟨row, hrow, rfl⟩ := List.mem_map.1 ((perm_sortedRows c schema targets spec rows).mem_iff.1 hr)
  rw [(h.exact row hrow).decodeCursor_encodeCursor]
  rfl

/-- The page after the last row of a page. -/
theorem shows_next (h : Distinct c spec rows) {count : Nat} (hcount : Countable count)
    {r : KeyedRow spec.csKeyset.length} (hs : sortedRows c schema targets spec rows = before ++ r :: after) :
    Shows c spec (pageFromRows c schema targets (.paginated spec)
      (.page count .forward (some ⟨c.specHashOf spec, r.krKeys⟩)) rows)
      (before ++ [r]) (after.take count) (after.drop count) := by
  have hsorted := h.sorted schema targets
  refine shows_of ?_ ?_
  · rw [hs, List.append_assoc, List.take_append_drop, List.append_assoc, List.singleton_append]
  · rw [hs] at hsorted ⊢
    exact itemsOf_forward (transCmp_keys c schema targets spec).toOrientedCmp hsorted hcount _

/-- The page before the first row of a page. -/
theorem shows_prev (h : Distinct c spec rows) {count : Nat} (hcount : Countable count)
    {r : KeyedRow spec.csKeyset.length} (hs : sortedRows c schema targets spec rows = before ++ r :: after) :
    Shows c spec (pageFromRows c schema targets (.paginated spec)
      (.page count .backward (some ⟨c.specHashOf spec, r.krKeys⟩)) rows)
      (before.take (before.length - count)) (before.drop (before.length - count)) (r :: after) := by
  have hsorted := h.sorted schema targets
  refine shows_of ?_ ?_
  · rw [hs, List.take_append_drop]
  · rw [hs] at hsorted ⊢
    rw [itemsOf_backward (transCmp_keys c schema targets spec).toOrientedCmp hsorted hcount, List.length_take,
      min_eq_left (Nat.sub_le _ _)]

/-! ## Following cursors -/

variable (c schema targets spec)

/-- A client that reads on from a page, with these sizes. -/
def followNext (rows : List Row) : List Nat → Page → Option (List Page) :=
  Keyset.follow Page.pageNext (fun t => (c.decodeCursor spec t).toOption) fun count anchor =>
    pageFromRows c schema targets (.paginated spec) (.page count .forward (some anchor)) rows

def followPrev (rows : List Row) : List Nat → Page → Option (List Page) :=
  Keyset.follow Page.pagePrev (fun t => (c.decodeCursor spec t).toOption) fun count anchor =>
    pageFromRows c schema targets (.paginated spec) (.page count .backward (some anchor)) rows

variable {c schema targets spec}

/-- The client sees everything after the page. -/
theorem followNext_exact (h : Distinct c spec rows) {page : Page}
    (hs : sortedRows c schema targets spec rows = before ++ items ++ after)
    (hpage : Shows c spec page before items after) (hitems : items = [] → after = []) {ns : List Nat}
    (hns : ∀ n ∈ ns, Countable n) :
    ∃ pages last left, followNext c schema targets spec rows ns page = some (page :: pages) ∧
      (page :: pages).getLast? = some last ∧ after.map KeyedRow.krRef = pages.flatMap Page.pageRefs ++ left ∧
      (last.pageNext = none ↔ left = []) ∧ (after.length ≤ ns.length → left = []) := by
  have hfollow := Keyset.follow_exact Page.pageNext (fun t => (c.decodeCursor spec t).toOption)
    (fun count anchor => pageFromRows c schema targets (.paginated spec) (.page count .forward (some anchor)) rows)
    Page.pageRefs Countable
    (fun page rest => ∃ before items after, sortedRows c schema targets spec rows = before ++ items ++ after ∧
      Shows c spec page before items after ∧ (items = [] → after = []) ∧ rest = after.map KeyedRow.krRef)
    ?_ ?_ hns ⟨before, items, after, hs, hpage, hitems, rfl⟩
  · rw [List.length_map] at hfollow
    exact hfollow
  · rintro page rest ⟨before, items, after, -, hpage, hitems, rfl⟩
    rw [hpage.next, List.map_eq_nil_iff]
    split_ifs with hafter
    · exact iff_of_true rfl hafter
    · obtain ⟨last, hlast⟩ := Option.isSome_iff_exists.1 (List.getLast?_isSome.2 fun hnil => hafter (hitems hnil))
      rw [hlast]
      exact iff_of_false (Option.some_ne_none _) hafter
  · rintro page rest t count ⟨before, items, after, hs, hpage, hitems, rfl⟩ ht hcount
    rw [hpage.next] at ht
    split_ifs at ht with hafter
    obtain ⟨last, hlast, rfl⟩ := Option.map_eq_some_iff.1 ht
    obtain ⟨init, rfl⟩ := List.getLast?_eq_some_iff.1 hlast
    have hs' : sortedRows c schema targets spec rows = (before ++ init) ++ last :: after := by
      rw [hs, List.append_assoc, List.append_assoc, List.append_assoc]
      rfl
    have hnext := shows_next h hcount hs'
    have hsize : after.take count ≠ [] := by
      rw [Ne, List.take_eq_nil_iff, not_or]
      exact ⟨Nat.one_le_iff_ne_zero.1 hcount.1, hafter⟩
    refine ⟨_, h.decode (by rw [hs']; exact List.mem_append_right _ List.mem_cons_self),
      (after.drop count).map KeyedRow.krRef, ?_, ?_, _, _, _, ?_, hnext, fun hnil => absurd hnil hsize, rfl⟩
    · rw [hnext.refs, ← List.map_append, List.take_append_drop]
    · rw [hnext.refs]
      exact fun hnil => hsize (List.map_eq_nil_iff.1 hnil)
    · rw [hs', List.append_assoc _ _ (after.drop count), List.take_append_drop, List.append_assoc _ [last]]
      rfl

/-- The client sees everything before the page. -/
theorem followPrev_exact (h : Distinct c spec rows) {page : Page}
    (hs : sortedRows c schema targets spec rows = before ++ items ++ after)
    (hpage : Shows c spec page before items after) (hitems : items ≠ []) {ns : List Nat}
    (hns : ∀ n ∈ ns, Countable n) :
    ∃ pages last left, followPrev c schema targets spec rows ns page = some (page :: pages) ∧
      (page :: pages).getLast? = some last ∧ before.map KeyedRow.krRef = left ++ pages.reverse.flatMap Page.pageRefs ∧
      (last.pagePrev = none ↔ left = []) ∧ (before.length ≤ ns.length → left = []) := by
  have hfollow := Keyset.follow_exact Page.pagePrev (fun t => (c.decodeCursor spec t).toOption)
    (fun count anchor => pageFromRows c schema targets (.paginated spec) (.page count .backward (some anchor)) rows)
    (fun page => page.pageRefs.reverse) Countable
    (fun page rest => ∃ before items after, sortedRows c schema targets spec rows = before ++ items ++ after ∧
      Shows c spec page before items after ∧ items ≠ [] ∧ rest = (before.map KeyedRow.krRef).reverse)
    ?_ ?_ hns ⟨before, items, after, hs, hpage, hitems, rfl⟩
  · obtain ⟨pages, last, left, hrun, hlast, hshown, hend, henough⟩ := hfollow
    rw [List.length_reverse, List.length_map] at henough
    refine ⟨pages, last, left.reverse, hrun, hlast, ?_, ?_, fun hlen => ?_⟩
    · rw [← List.reverse_reverse (before.map KeyedRow.krRef), hshown, List.reverse_append, List.reverse_flatMap]
      congr 2
      funext page
      exact List.reverse_reverse _
    · rw [hend, List.reverse_eq_nil_iff]
    · rw [henough hlen, List.reverse_nil]
  · rintro page rest ⟨before, items, after, -, hpage, hitems, rfl⟩
    rw [hpage.prev, List.reverse_eq_nil_iff, List.map_eq_nil_iff]
    split_ifs with hbefore
    · exact iff_of_true rfl hbefore
    · obtain ⟨first, rest, rfl⟩ := List.exists_cons_of_ne_nil hitems
      exact iff_of_false (Option.some_ne_none _) hbefore
  · rintro page rest t count ⟨before, items, after, hs, hpage, hitems, rfl⟩ ht hcount
    rw [hpage.prev] at ht
    split_ifs at ht with hbefore
    obtain ⟨first, others, rfl⟩ := List.exists_cons_of_ne_nil hitems
    cases ht
    have hs' : sortedRows c schema targets spec rows = before ++ first :: (others ++ after) := by
      rw [hs, List.append_assoc, List.cons_append]
    have hprev := shows_prev h hcount hs'
    have hsize : before.drop (before.length - count) ≠ [] := by
      have hpos := List.length_pos_iff.2 hbefore
      have hone := hcount.1
      rw [← List.length_pos_iff, List.length_drop]
      omega
    refine ⟨_, h.decode (by rw [hs']; exact List.mem_append_right _ List.mem_cons_self),
      ((before.take (before.length - count)).map KeyedRow.krRef).reverse, ?_, ?_, _, _, _, ?_, hprev, hsize, rfl⟩
    · rw [hprev.refs, ← List.reverse_append, ← List.map_append, List.take_append_drop]
    · rw [hprev.refs]
      exact fun hnil => hsize (List.map_eq_nil_iff.1 (List.reverse_eq_nil_iff.1 hnil))
    · rw [List.take_append_drop, hs']

/-- What pagination is for. -/
structure Paginates (c : Codec) (schema : Schema) (targets : List TypeName) (spec : CursorSpec) (rows : List Row) :
    Prop where
  /-- The rows in the order of their keysets. -/
  perm : (sortedRows c schema targets spec rows).Perm (rows.map (keyedRow spec))
  sorted : (sortedRows c schema targets spec rows).Pairwise fun a b =>
    cmpKeys (columnsOf c schema targets spec) a.krKeys b.krKeys = .lt
  /-- From the first page on, every row is seen once and in order, and then there is no cursor. -/
  forward : ∀ n ns, Countable n → (∀ n' ∈ ns, Countable n') → ∃ pages last left,
    followNext c schema targets spec rows ns
      (pageFromRows c schema targets (.paginated spec) (.page n .forward none) rows) = some pages ∧
    pages.getLast? = some last ∧
    (sortedRows c schema targets spec rows).map KeyedRow.krRef = pages.flatMap Page.pageRefs ++ left ∧
    (last.pageNext = none ↔ left = []) ∧ (rows.length ≤ ns.length → left = [])
  /-- A nonempty page offers the cursors that it needs, and from it every earlier row is seen. -/
  backward : ∀ w page, page = pageFromRows c schema targets (.paginated spec) w rows → page.pageRefs ≠ [] →
    ∃ before items after, sortedRows c schema targets spec rows = before ++ items ++ after ∧
      page.pageRefs = items.map KeyedRow.krRef ∧ (page.pageNext.isSome ↔ after ≠ []) ∧
      (page.pagePrev.isSome ↔ before ≠ []) ∧
      ∀ ns, (∀ n ∈ ns, Countable n) → ∃ pages last left,
        followPrev c schema targets spec rows ns page = some (page :: pages) ∧ (page :: pages).getLast? = some last ∧
        before.map KeyedRow.krRef = left ++ pages.reverse.flatMap Page.pageRefs ∧
        (last.pagePrev = none ↔ left = []) ∧ (rows.length ≤ ns.length → left = [])
  around : ∀ r ∈ sortedRows c schema targets spec rows, ∀ n hash, Countable n → r.krRef ∈
    (pageFromRows c schema targets (.paginated spec) (.page n .around (some ⟨hash, r.krKeys⟩)) rows).pageRefs

def rankSpec : CursorSpec := ⟨[("rank", .asc)], .none⟩

def rankRows : List Row := [(⟨"Item", "b"⟩, [("rank", .number 2)]), (⟨"Item", "a"⟩, [("rank", .number 1)])]

/-- The text `["nwOXQw",1]`, and the same with `2`. -/
def rankBytes (digit : UInt8) : List UInt8 := [91, 34, 110, 119, 79, 88, 81, 119, 34, 44, digit, 93]

/-- The other packages, on what the two rows need of them. -/
def rankCodec : Codec where
  encodeUnpadded bs :=
    if bs = [159, 3, 151, 67] then "nwOXQw" else if bs = rankBytes 49 then "WyJud09YUXciLDFd" else "WyJud09YUXciLDJd"
  decodeUnpadded t :=
    if t = "WyJud09YUXciLDFd" then some (rankBytes 49)
    else if t = "WyJud09YUXciLDJd" then some (rankBytes 50) else none
  decodeStrict bs :=
    if bs = [49] then some (.number 1) else if bs = [50] then some (.number 2)
    else if bs = rankBytes 49 then some (.array [.string "nwOXQw", .number 1])
    else if bs = rankBytes 50 then some (.array [.string "nwOXQw", .number 2]) else none
  encodeText s := [34] ++ s.toList.map (fun d => UInt8.ofNat d.toNat) ++ [34]
  formatScientific _ := []
  cursorSpecHash _ := [159, 3, 151, 67]

theorem specHashOf_rank : rankCodec.specHashOf rankSpec = "nwOXQw" := by decide

theorem exact_rank {d : UInt8} {k : ℚ} (hk : rankCodec.canonicalJson (.number k) = [d])
    (hurl : rankCodec.decodeUnpadded (rankCodec.encodeUnpadded (rankBytes d)) = some (rankBytes d))
    (hcursor : rankCodec.decodeStrict (rankBytes d) = some (.array [.string "nwOXQw", .number k]))
    (hvalue : rankCodec.decodeStrict [d] = some (.number k)) : rankCodec.Exact rankSpec [.number k] := by
  have hvalueOf : rankCodec.cursorValue rankSpec [.number k] = .array [.string "nwOXQw", .number k] := by
    rw [Codec.cursorValue, specHashOf_rank]
  have htext : rankCodec.encodeText "nwOXQw" = [34, 110, 119, 79, 88, 81, 119, 34] := by decide
  have hjson : rankCodec.canonicalJson (.array [.string "nwOXQw", .number k]) = rankBytes d := by
    simp only [Codec.canonicalJson, Codec.canonicalValues] at hk ⊢
    rw [htext, hk]
    rfl
  constructor
  · rw [hvalueOf, hjson, hurl]
  · rw [hvalueOf, Codec.Reads, hjson, hcursor]
  · intro v hv
    rw [List.mem_singleton.1 hv, Codec.Reads, hk, hvalue]

theorem distinct_rankRows : Distinct rankCodec rankSpec rankRows := by
  constructor
  · intro r hr
    simp only [rankRows, List.mem_cons, List.not_mem_nil, or_false] at hr
    rcases hr with rfl | rfl
    · exact exact_rank (d := 50) (by decide) (by decide) rfl rfl
    · exact exact_rank (d := 49) (by decide) (by decide) rfl rfl
  · refine List.pairwise_pair.2 ?_
    show [Value.number 2] ≠ [Value.number 1]
    simp

def lastRow : Row := (⟨"Item", "b"⟩, [("rank", .number 2)])

end Wireform.Lattice.Backend

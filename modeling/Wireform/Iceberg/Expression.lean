/-
  Filter expressions over file metrics (`Iceberg.Expression`).

  * `evaluateInclusive`: whether a file may have a row that satisfies the
    expression; `evaluateStrict`: whether every row does;
  * `inclusivePredicate`, `strictPredicate`: the fourteen operations, over the
    counts and bounds of a column.
-/
import Wireform.Iceberg.SingleValue
import Wireform.AssocMap

namespace Wireform.Iceberg

/-! ## Expressions -/

inductive PredicateOp where
  | eq | notEq | lt | ltEq | gt | gtEq | isNull | notNull | isNan | notNan | isIn | notIn | startsWith | notStartsWith
  deriving DecidableEq

inductive Literal where
  | bool (b : Bool)
  | int (n : Int32)
  | long (n : Int64)
  | float (bits : UInt32)
  | double (bits : UInt64)
  | string (s : String)
  | bytes (bs : ByteString)
  | set (xs : List Literal)

structure Predicate where
  predOp : PredicateOp
  predField : String
  predLits : List Literal

inductive Expression where
  | true
  | false
  | predicate (p : Predicate)
  | and (a b : Expression)
  | or (a b : Expression)
  | not (e : Expression)

structure StructField where
  sfId : Int
  sfName : String
  sfType : IcebergType

structure Schema where
  schemaFields : List StructField

structure FileMetrics where
  fmRecordCount : Int
  fmValueCounts : AssocMap Int Int
  fmNullCounts : AssocMap Int Int
  fmNanCounts : AssocMap Int Int
  fmLowerBounds : AssocMap Int ByteString
  fmUpperBounds : AssocMap Int ByteString

def emptyFileMetrics (n : Int) : FileMetrics := ⟨n, [], [], [], [], []⟩

/-! ## Columns -/

def lookupField (schema : Schema) (name : String) : Option (Int × IcebergType) :=
  (schema.schemaFields.find? fun sf => sf.sfName = name).map fun sf => (sf.sfId, sf.sfType)

def hasAnyNull (fm : FileMetrics) (fid : Int) : Bool :=
  match AssocMap.lookup fid fm.fmNullCounts with
  | some c => 0 < c
  | none => true

def hasAnyNonNull (fm : FileMetrics) (fid : Int) : Bool :=
  match AssocMap.lookup fid fm.fmNullCounts, AssocMap.lookup fid fm.fmValueCounts with
  | some nc, some vc => nc < vc
  | _, _ => true

def hasAnyNan (fm : FileMetrics) (fid : Int) : Bool :=
  match AssocMap.lookup fid fm.fmNanCounts with
  | some c => 0 < c
  | none => true

/-- The low bytes of an integer, the lowest first. -/
def intBytes (k : Nat) (n : Int) : ByteString := (List.range k).map fun i => UInt8.ofNat (n / 256 ^ i % 256).toNat

def intLE : Int → ByteString := intBytes 4

def longLE : Int → ByteString := intBytes 8

def literalBytes : IcebergType → Literal → Option ByteString
  | .boolean, .bool b => some [if b then 1 else 0]
  | .int, .int n | .date, .int n => some (intLE n.toInt)
  | .long, .long n | .timestamp, .long n | .timestampTz, .long n | .timestampNs, .long n | .timestampTzNs, .long n
  | .time, .long n => some (longLE n.toInt)
  | .float, .float bits => some (intLE (signed 4 bits.toNat))
  | .double, .double bits => some (longLE (signed 8 bits.toNat))
  | .string, .string t => some (textBytes t)
  | .binary, .bytes b | .fixed _, .bytes b | .uuid, .bytes b => some b
  | _, _ => none

def literalRawBytes : Literal → Option ByteString
  | .string t => some (textBytes t)
  | .bytes b => some b
  | _ => none

/-! ## Ranges -/

section
variable (ty : IcebergType) (fm : FileMetrics) (fid : Int)

def rangeCovers (lo hi : Literal) : Bool :=
  (do
    let loB ← literalBytes ty lo
    let hiB ← literalBytes ty hi
    match AssocMap.lookup fid fm.fmLowerBounds, AssocMap.lookup fid fm.fmUpperBounds with
    | some lb, some ub => some (decide (compareTy ty lb hiB ≠ Ordering.gt) && decide (compareTy ty ub loB ≠ Ordering.lt))
    | _, _ => some true).getD true

def rangeIs (lit : Literal) : Bool :=
  (do
    let litB ← literalBytes ty lit
    let lb ← AssocMap.lookup fid fm.fmLowerBounds
    let ub ← AssocMap.lookup fid fm.fmUpperBounds
    some (decide (compareTy ty lb litB = Ordering.eq) && decide (compareTy ty ub litB = Ordering.eq))).getD false

def rangeStartsBefore (lit : Literal) (inclusive : Bool) : Bool :=
  (do
    let litB ← literalBytes ty lit
    let lb ← AssocMap.lookup fid fm.fmLowerBounds
    let c := compareTy ty lb litB
    some (if inclusive then decide (c ≠ Ordering.gt) else decide (c = Ordering.lt))).getD true

def rangeEndsAfter (lit : Literal) (inclusive : Bool) : Bool :=
  (do
    let litB ← literalBytes ty lit
    let ub ← AssocMap.lookup fid fm.fmUpperBounds
    let c := compareTy ty ub litB
    some (if inclusive then decide (c ≠ Ordering.lt) else decide (c = Ordering.gt))).getD true

def rangeStrictlyBelow (lit : Literal) (inclusive : Bool) : Bool :=
  (do
    let litB ← literalBytes ty lit
    let ub ← AssocMap.lookup fid fm.fmUpperBounds
    let c := compareTy ty ub litB
    some (if inclusive then decide (c ≠ Ordering.gt) else decide (c = Ordering.lt))).getD false

def rangeStrictlyAbove (lit : Literal) (inclusive : Bool) : Bool :=
  (do
    let litB ← literalBytes ty lit
    let lb ← AssocMap.lookup fid fm.fmLowerBounds
    let c := compareTy ty lb litB
    some (if inclusive then decide (c ≠ Ordering.lt) else decide (c = Ordering.gt))).getD false

end

/-- The prefixes of the bounds are around the prefix. -/
def rangeMatchesPrefix (fm : FileMetrics) (fid : Int) (lit : Literal) : Bool :=
  match literalRawBytes lit, AssocMap.lookup fid fm.fmLowerBounds, AssocMap.lookup fid fm.fmUpperBounds with
  | some pre, some lb, some ub =>
    decide (compareBytes (lb.take pre.length) pre ≠ Ordering.gt) && decide (compareBytes pre (ub.take pre.length) ≠ Ordering.gt)
  | _, _, _ => true

def rangeAlwaysHasPrefix (fm : FileMetrics) (fid : Int) (lit : Literal) : Bool :=
  match literalRawBytes lit, AssocMap.lookup fid fm.fmLowerBounds, AssocMap.lookup fid fm.fmUpperBounds with
  | some pre, some lb, some ub => pre.isPrefixOf lb && pre.isPrefixOf ub
  | _, _, _ => false

/-! ## Predicates -/

def withLit (p : Predicate) (f : Literal → Bool) : Bool :=
  match p.predLits with
  | lit :: _ => f lit
  | [] => true

def withLitFalse (p : Predicate) (f : Literal → Bool) : Bool :=
  match p.predLits with
  | lit :: _ => f lit
  | [] => false

def inclusivePredicate (schema : Schema) (fm : FileMetrics) (p : Predicate) : Bool :=
  match lookupField schema p.predField with
  | none => true
  | some (fid, ty) =>
    match p.predOp with
    | .isNull => hasAnyNull fm fid
    | .notNull => hasAnyNonNull fm fid
    | .isNan => hasAnyNan fm fid
    | .notNan => true
    | .eq => withLit p fun lit => rangeCovers ty fm fid lit lit
    | .notEq => true
    | .lt => withLit p fun lit => rangeStartsBefore ty fm fid lit false
    | .ltEq => withLit p fun lit => rangeStartsBefore ty fm fid lit true
    | .gt => withLit p fun lit => rangeEndsAfter ty fm fid lit false
    | .gtEq => withLit p fun lit => rangeEndsAfter ty fm fid lit true
    | .startsWith => withLit p fun lit => rangeMatchesPrefix fm fid lit
    | .notStartsWith => true
    | .isIn => (p.predLits.any fun lit => rangeCovers ty fm fid lit lit) || p.predLits.isEmpty
    | .notIn => true

def strictPredicate (schema : Schema) (fm : FileMetrics) (p : Predicate) : Bool :=
  match lookupField schema p.predField with
  | none => false
  | some (fid, ty) =>
    match p.predOp with
    | .isNull => !hasAnyNonNull fm fid
    | .notNull => !hasAnyNull fm fid
    | .eq => withLitFalse p fun lit => rangeIs ty fm fid lit
    | .lt => withLitFalse p fun lit => rangeStrictlyBelow ty fm fid lit false
    | .ltEq => withLitFalse p fun lit => rangeStrictlyBelow ty fm fid lit true
    | .gt => withLitFalse p fun lit => rangeStrictlyAbove ty fm fid lit false
    | .gtEq => withLitFalse p fun lit => rangeStrictlyAbove ty fm fid lit true
    | .startsWith => withLitFalse p fun lit => rangeAlwaysHasPrefix fm fid lit
    | _ => false

/-- The file might have a row that satisfies the expression. -/
def evaluateInclusive (schema : Schema) (fm : FileMetrics) : Expression → Bool
  | .true => true
  | .false => false
  | .and a b => evaluateInclusive schema fm a && evaluateInclusive schema fm b
  | .or a b => evaluateInclusive schema fm a || evaluateInclusive schema fm b
  | .not e => !evaluateInclusive schema fm e
  | .predicate p => inclusivePredicate schema fm p

/-- Every row of the file satisfies the expression. -/
def evaluateStrict (schema : Schema) (fm : FileMetrics) : Expression → Bool
  | .true => true
  | .false => false
  | .and a b => evaluateStrict schema fm a && evaluateStrict schema fm b
  | .or a b => evaluateStrict schema fm a || evaluateStrict schema fm b
  | .not e => !evaluateInclusive schema fm e
  | .predicate p => strictPredicate schema fm p

end Wireform.Iceberg

/-
  The metadata of a file, as far as the predicates consult it.

  * `SchemaElement`: a column of the schema with its carrier and its annotations; a newer
    annotation (`LogicalType`) stands beside the older one (`ConvertedType`);
  * `hasCompatiblePhysicalType`, `hasDefinedStatisticsOrder`: whether the annotations fit the
    carrier, and whether bounds have an order;
  * `Statistics`, `ColumnIndex`: the bounds of a column chunk and of its pages.
-/
import Mathlib.Data.Nat.Notation

namespace Wireform.Parquet

/-! ## Schema -/

inductive ParquetType where
  | boolean | int32 | int64 | int96 | float | double | byteArray | fixedLenByteArray
  deriving DecidableEq, Repr

instance : LawfulBEq (Option ParquetType) := inferInstance

inductive ConvertedType where
  | utf8 | map | mapKeyValue | list | enum | decimal | date | timeMillis | timeMicros | timestampMillis
  | timestampMicros | uInt8 | uInt16 | uInt32 | uInt64 | int8 | int16 | int32 | int64 | json | bson | interval
  deriving DecidableEq, Repr

inductive LtTimeUnit where
  | millis | micros | nanos
  deriving DecidableEq, Repr

inductive LogicalType where
  | string
  | map
  | list
  | enum
  | decimal (precision scale : Int)
  | date
  | time (isAdjustedToUTC : Bool) (unit : LtTimeUnit)
  | timestamp (isAdjustedToUTC : Bool) (unit : LtTimeUnit)
  | integer (width : Int) (signed : Bool)
  | null
  | json
  | bson
  | uuid
  | float16
  | geometry
  | geography
  | file
  | variant (version : Int)
  | unsupported
  deriving DecidableEq, Repr

structure SchemaElement where
  seType : Option ParquetType
  seConvertedType : Option ConvertedType := none
  seLogicalType : Option LogicalType := none
  seTypeLength : Option Int := none
  deriving DecidableEq, Repr

def log10TwoLowerNumerator : Int := 30102999566398119521373889472449302676818988146210

def log10TwoDenominator : Int := 100000000000000000000000000000000000000000000000000

/-- Whether a decimal precision fits the signed numbers of a width. -/
def decimalPrecisionFits (precision width : Int) : Bool :=
  if precision ≤ 0 ∨ width ≤ 0 then false
  else precision ≤ ((8 * width - 1) * log10TwoLowerNumerator).tdiv log10TwoDenominator

def SchemaElement.physical (field : SchemaElement) (ty : ParquetType) : Bool := field.seType = some ty

def SchemaElement.fixed (field : SchemaElement) (size : Int) : Bool :=
  field.physical .fixedLenByteArray && field.seTypeLength = some size

def SchemaElement.group (field : SchemaElement) : Bool := field.seType = none

/-- Whether a recognized annotation has the carrier it asks for. The older annotation counts
    where the newer one is missing. -/
def hasCompatiblePhysicalType (field : SchemaElement) : Bool :=
  match field.seLogicalType with
  | some .unsupported => false
  | some .string => field.physical .byteArray
  | some .enum => field.physical .byteArray
  | some .json => field.physical .byteArray
  | some .bson => field.physical .byteArray
  | some .geometry => field.physical .byteArray
  | some .geography => field.physical .byteArray
  | some .date => field.physical .int32
  | some (.time _ .millis) => field.physical .int32
  | some (.time _ _) => field.physical .int64
  | some (.timestamp _ _) => field.physical .int64 || field.fixed 12
  | some (.integer width _) =>
    (width ∈ [(8 : Int), 16, 32] && field.physical .int32) || (width = 64 && field.physical .int64)
  | some (.decimal precision scale) =>
    0 < precision && 0 ≤ scale && scale ≤ precision &&
      match field.seType with
      | some .int32 => decide (precision ≤ 9)
      | some .int64 => decide (precision ≤ 18)
      | some .byteArray => true
      | some .fixedLenByteArray => field.seTypeLength.elim false (decimalPrecisionFits precision)
      | _ => false
  | some .float16 => field.fixed 2
  | some .uuid => field.fixed 16
  | some .list => field.group
  | some .map => field.group
  | some (.variant _) => field.group
  | some .file => field.group
  | some .null => true
  | none =>
    match field.seConvertedType with
    | some .utf8 => field.physical .byteArray
    | some .enum => field.physical .byteArray
    | some .json => field.physical .byteArray
    | some .bson => field.physical .byteArray
    | some .date => field.physical .int32
    | some .timeMillis => field.physical .int32
    | some .timeMicros => field.physical .int64
    | some .timestampMillis => field.physical .int64
    | some .timestampMicros => field.physical .int64
    | some .uInt8 => field.physical .int32
    | some .uInt16 => field.physical .int32
    | some .uInt32 => field.physical .int32
    | some .uInt64 => field.physical .int64
    | some .int8 => field.physical .int32
    | some .int16 => field.physical .int32
    | some .int32 => field.physical .int32
    | some .int64 => field.physical .int64
    | some .interval => field.fixed 12
    | some .map => field.group
    | some .mapKeyValue => field.group
    | some .list => field.group
    | some .decimal =>
      field.seType ∈ [some ParquetType.int32, some .int64, some .byteArray, some .fixedLenByteArray]
    | none => true

/-- Some annotations forbid bounds. -/
def hasDefinedStatisticsOrder (field : SchemaElement) : Bool :=
  hasCompatiblePhysicalType field &&
    match field.seLogicalType with
    | some .geometry => false
    | some .geography => false
    | some .file => false
    | some .null => false
    | some (.variant _) => false
    | _ => field.seConvertedType ≠ some .interval

/-! ## Row groups -/

inductive ColumnOrder where
  | typeDefinedOrder | ieee754TotalOrder | int96TimestampOrder | unsupportedColumnOrder
  deriving DecidableEq, Repr

/-- The bounds of a column chunk; `statMin` and `statMax` are the older ones. -/
structure Statistics where
  statMin : Option (List UInt8) := none
  statMax : Option (List UInt8) := none
  statNullCount : Option Int := none
  statMinValue : Option (List UInt8) := none
  statMaxValue : Option (List UInt8) := none
  deriving DecidableEq, Repr

structure ColumnMetadata where
  cmType : ParquetType
  cmPathInSchema : List String
  cmStatistics : Option Statistics
  deriving DecidableEq, Repr

structure ColumnChunk where
  ccMetadata : Option ColumnMetadata
  deriving DecidableEq, Repr

structure RowGroup where
  rgColumns : List ColumnChunk
  deriving DecidableEq, Repr

structure FileMetadata where
  fmSchema : List SchemaElement
  fmColumnOrders : Option (List ColumnOrder)
  deriving DecidableEq, Repr

/-- The bounds of the pages of a column chunk. -/
structure ColumnIndex where
  ciNullPages : List Bool
  ciMinValues : List (List UInt8)
  ciMaxValues : List (List UInt8)
  deriving DecidableEq, Repr

end Wireform.Parquet

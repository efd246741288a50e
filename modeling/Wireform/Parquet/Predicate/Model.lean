/-
  What the statistics, the page bounds and the bloom filters of a column let a reader skip.

  * `decodePValueForSchema`: a bound as a literal, by the annotations of its column;
  * `evalRowGroup`, `evalColumnChunk`: by the statistics of the column chunks;
  * `evalPagesByColumnIndex`: by the bounds of the pages;
  * `evalBloomChunk`: by the bytes of the literals.
-/
import Wireform.Columnar.Predicate
import Wireform.Parquet.BloomFilter
import Wireform.Parquet.Types

namespace Wireform.Parquet

open Columnar

/-! ## Bounds as literals -/

def readLE32 (bs : List UInt8) (o : Nat) : UInt32 :=
  let b0 := (bs.getD o 0).toUInt32
  let b1 := (bs.getD (o + 1) 0).toUInt32
  let b2 := (bs.getD (o + 2) 0).toUInt32
  let b3 := (bs.getD (o + 3) 0).toUInt32
  b0 ||| b1 <<< 8 ||| b2 <<< 16 ||| b3 <<< 24

def readLE64 (bs : List UInt8) (o : Nat) : UInt64 :=
  let lo := (readLE32 bs o).toUInt64
  let hi := (readLE32 bs (o + 4)).toUInt64
  lo ||| hi <<< 32

/-- Big-endian two's complement. -/
def decodeDecimalInteger : List UInt8 → Option Int
  | [] => none
  | b :: bs => some ((b :: bs).foldl (fun n byte => n * 256 + byte.toNat) (if b.toNat.testBit 7 then -1 else 0))

/-- A half is exactly a double: a subnormal of the narrow format is a normal of the wide one. -/
def float16ToDouble (w : UInt16) : UInt64 :=
  let negative := decide (w &&& 0x8000 ≠ 0)
  let ex := (w >>> 10 &&& 0x1f).toNat
  let mant := (w &&& 0x3ff).toNat
  if ex = 0 then UInt64.ofNat (Ieee.binary64.encode negative mant (-24))
  else if ex = 31 then
    if mant = 0 then (if negative then 0xfff0000000000000 else 0x7ff0000000000000) else 0x7ff8000000000000
  else UInt64.ofNat (Ieee.binary64.encode negative (1024 + mant) ((ex : Int) - 25))

def isNaN (f : Ieee) (bits : Nat) : Bool := (f.value bits).isNone

def decodePValueLE (ty : ParquetType) (bs : List UInt8) : Option PValue :=
  match ty with
  | .boolean =>
    match bs with
    | [b] => if b ≤ 1 then some (.bool (b ≠ 0)) else none
    | _ => none
  | .int32 => if bs.length = 4 then some (.int32 (readLE32 bs 0).toInt32) else none
  | .int64 => if bs.length = 8 then some (.int64 (readLE64 bs 0).toInt64) else none
  | .float =>
    if bs.length = 4 then
      let value := readLE32 bs 0
      if isNaN .binary32 value.toNat then none else some (.float value)
    else none
  | .double =>
    if bs.length = 8 then
      let value := readLE64 bs 0
      if isNaN .binary64 value.toNat then none else some (.double value)
    else none
  | .byteArray => some (.binary bs)
  | .fixedLenByteArray => some (.binary bs)
  | .int96 => none

def unsignedConverted : List (Option ConvertedType) := [some .uInt8, some .uInt16, some .uInt32, some .uInt64]

def SchemaElement.unsigned (field : SchemaElement) : Bool :=
  match field.seLogicalType with
  | some (.integer _ signed) => !signed
  | _ => field.seConvertedType ∈ unsignedConverted

def SchemaElement.text (field : SchemaElement) : Bool :=
  field.physical .byteArray &&
    (field.seLogicalType ∈ [some LogicalType.string, some .enum, some .json] ||
      field.seConvertedType ∈ [some ConvertedType.utf8, some .enum, some .json])

def decodeUtf8' (bytes : List UInt8) : Option String := String.fromUTF8? ⟨bytes.toArray⟩

def decodePValueForSchema.unscaled (field : SchemaElement) (bytes : List UInt8) : Option Int :=
  match field.seType with
  | some .int32 => if bytes.length = 4 then some (readLE32 bytes 0).toInt32.toInt else none
  | some .int64 => if bytes.length = 8 then some (readLE64 bytes 0).toInt64.toInt else none
  | some .byteArray => decodeDecimalInteger bytes
  | some .fixedLenByteArray => decodeDecimalInteger bytes
  | _ => none

def decodePValueForSchema.decimal (field : SchemaElement) (bytes : List UInt8) (precision scale : Int) : Option PValue :=
  if 0 < precision ∧ precision ≤ 76 ∧ 0 ≤ scale ∧ scale ≤ precision then
    (unscaled field bytes).map fun (value : Int) => .decimal ((value : ℚ) / 10 ^ scale.toNat)
  else none

def decodePValueForSchema.carrier (field : SchemaElement) (bytes : List UInt8) : Option PValue :=
  if field.unsigned then
    match field.seType with
    | some .int32 => if bytes.length = 4 then some (.unsigned (readLE32 bytes 0).toUInt64) else none
    | some .int64 => if bytes.length = 8 then some (.unsigned (readLE64 bytes 0)) else none
    | _ => none
  else if field.text then (decodeUtf8' bytes).map .text
  else field.seType.bind (decodePValueLE · bytes)

/-- A bound as a literal. -/
def decodePValueForSchema (field : SchemaElement) (bytes : List UInt8) : Option PValue :=
  if !hasDefinedStatisticsOrder field then none
  else
    match field.seLogicalType with
    | some .float16 =>
      match bytes with
      | [b0, b1] =>
        let bits := b0.toUInt16 ||| b1.toUInt16 <<< 8
        let value := float16ToDouble bits
        if isNaN .binary64 value.toNat then none else some (.double value)
      | _ => none
    | some (.timestamp _ _) =>
      if field.seType ≠ some .int64 then none else decodePValueForSchema.carrier field bytes
    | some (.decimal precision scale) => decodePValueForSchema.decimal field bytes precision scale
    | _ => decodePValueForSchema.carrier field bytes

/-! ## Statistics -/

structure StatisticsContext where
  statisticsField : SchemaElement
  statisticsOrder : Option ColumnOrder

def FileMetadata.leaves (metadata : FileMetadata) : List SchemaElement :=
  metadata.fmSchema.filter fun field => field.seType.isSome

def statisticsContext (metadata : FileMetadata) (index : Nat) : Option StatisticsContext := do
  let field ← metadata.leaves[index]?
  some ⟨field, metadata.fmColumnOrders.bind (·[index]?)⟩

def modernOrderSupported (context : StatisticsContext) : Bool :=
  hasDefinedStatisticsOrder context.statisticsField &&
    match context.statisticsOrder with
    | some .typeDefinedOrder => context.statisticsField.seType ≠ some .int96
    | some .ieee754TotalOrder =>
      context.statisticsField.seType ∈ [some ParquetType.float, some .double] ||
        context.statisticsField.seLogicalType = some .float16
    | some .int96TimestampOrder => context.statisticsField.seType = some .int96
    | _ => false

def legacyOrderMatches (field : SchemaElement) : Bool :=
  field.seType ∈ [some ParquetType.boolean, some .int32, some .int64, some .float, some .double] &&
    match field.seLogicalType with
    | some (.integer _ false) => false
    | some (.decimal _ _) => field.seType ∈ [some ParquetType.int32, some .int64]
    | _ => field.seConvertedType ∉ unsignedConverted ++ [some .decimal]

def statisticValue (context : StatisticsContext) (current legacy : Option (List UInt8)) : Option PValue :=
  (match current with
    | some value =>
      if modernOrderSupported context then some value
      else if legacyOrderMatches context.statisticsField then legacy else none
    | none => if legacyOrderMatches context.statisticsField then legacy else none).bind
  (decodePValueForSchema context.statisticsField)

def minimumStatistic (field : StatisticsContext) (stats : Statistics) : Option PValue :=
  statisticValue field stats.statMinValue stats.statMin

def maximumStatistic (field : StatisticsContext) (stats : Statistics) : Option PValue :=
  statisticValue field stats.statMaxValue stats.statMax

def evalLeaf (field : StatisticsContext) (stats : Statistics) (cp : PColPredicate) : Decision :=
  match cp with
  | .isNull => if stats.statNullCount = some 0 then .skip else .maybeKeep
  | .isNotNull => .maybeKeep
  | cp =>
    match minimumStatistic field stats, maximumStatistic field stats with
    | some mn, some mx => evalRange mn mx cp
    | _, _ => .maybeKeep

def evalPredicate (look : String → Option (StatisticsContext × Statistics)) : Predicate → Decision
  | .tt => .maybeKeep
  | .ff => .skip
  | .col name cp =>
    match look name with
    | none => .maybeKeep
    | some (ty, stats) => evalLeaf ty stats cp
  | .and a b => combineDecisions (evalPredicate look a) (evalPredicate look b)
  | .or a b =>
    match evalPredicate look a, evalPredicate look b with
    | .skip, .skip => .skip
    | _, _ => .maybeKeep
  | .not _ => .maybeKeep

/-- Whether a column chunk bears a name; the names of a nested column are joined by dots. -/
def ColumnChunk.named (column : ColumnChunk) (name : String) : Bool :=
  match column.ccMetadata with
  | some columnMetadata =>
    columnMetadata.cmPathInSchema = [name] || name = ".".intercalate columnMetadata.cmPathInSchema
  | none => false

def findIndices {α : Type} (p : α → Bool) (xs : List α) : List Nat :=
  (List.range xs.length).filter fun i => xs[i]?.elim false p

/-- The one column that bears a name. -/
def lookupStats.index (metadata : FileMetadata) (rg : RowGroup) (name : String) : Option Nat :=
  let found := findIndices (fun column => ColumnChunk.named column name) rg.rgColumns
  if metadata.leaves.length = rg.rgColumns.length ∧ found.length = 1 then found.head? else none

def lookupStats (metadata : FileMetadata) (rg : RowGroup) (name : String) : Option (StatisticsContext × Statistics) := do
  let index ← lookupStats.index metadata rg name
  let context ← statisticsContext metadata index
  let column ← rg.rgColumns[index]?
  let columnMetadata ← column.ccMetadata
  let statistics ← columnMetadata.cmStatistics
  if context.statisticsField.seType = some columnMetadata.cmType then some (context, statistics) else none

/-- Whether a row group may be skipped. -/
def evalRowGroup (metadata : FileMetadata) (p : Predicate) (rg : RowGroup) : Decision :=
  evalPredicate (lookupStats metadata rg) p

def evalColumnChunk (context : StatisticsContext) (cc : ColumnChunk) (cp : PColPredicate) : Decision :=
  match cc.ccMetadata with
  | none => .maybeKeep
  | some md =>
    match md.cmStatistics with
    | none => .maybeKeep
    | some stats => if context.statisticsField.seType = some md.cmType then evalLeaf context stats cp else .maybeKeep

/-! ## Pages -/

def evalPage (context : StatisticsContext) (cp : PColPredicate) (isNull : Bool) (min max : List UInt8) : Decision :=
  let decodeBound (bytes : List UInt8) : Option PValue :=
    if modernOrderSupported context then decodePValueForSchema context.statisticsField bytes else none
  if isNull then
    match cp with
    | .isNull => .maybeKeep
    | _ => .skip
  else
    match decodeBound min, decodeBound max with
    | some mn, some mx => evalRange mn mx cp
    | _, _ => .maybeKeep

/-- Whether each page of a column chunk may be skipped. -/
def evalPagesByColumnIndex (context : StatisticsContext) (ci : ColumnIndex) (cp : PColPredicate) : List Decision :=
  let n := ci.ciNullPages.length
  if ci.ciMinValues.length ≠ n ∨ ci.ciMaxValues.length ≠ n then List.replicate n .maybeKeep
  else
    (List.range n).map fun i =>
      evalPage context cp (ci.ciNullPages.getD i false) (ci.ciMinValues.getD i []) (ci.ciMaxValues.getD i [])

/-! ## Bloom filters -/

def word32LE (w : UInt32) : List UInt8 :=
  [w.toUInt8, (w / 0x100).toUInt8, (w / 0x10000).toUInt8, (w / 0x1000000).toUInt8]

def word64LE (w : UInt64) : List UInt8 :=
  [w.toUInt8, (w / 0x100).toUInt8, (w / 0x10000).toUInt8, (w / 0x1000000).toUInt8,
    (w / 0x100000000).toUInt8, (w / 0x10000000000).toUInt8, (w / 0x1000000000000).toUInt8,
    (w / 0x100000000000000).toUInt8]

def encodePlain.decimal (field : SchemaElement) (decimal : ℚ) : Option (List UInt8) :=
  match field.seLogicalType with
  | some (.decimal _ scale) =>
    if 0 ≤ scale ∧ scale ≤ 76 then
      let scaled := decimal * 10 ^ scale.toNat
      let integer := scaled.num
      if scaled.den ≠ 1 then none
      else
        match field.seType with
        | some .int32 => if -2 ^ 31 ≤ integer ∧ integer ≤ 2 ^ 31 - 1 then some (word32LE (Int32.ofInt integer).toUInt32) else none
        | some .int64 => if -2 ^ 63 ≤ integer ∧ integer ≤ 2 ^ 63 - 1 then some (word64LE (Int64.ofInt integer).toUInt64) else none
        | _ => none
    else none
  | _ => none

def SchemaElement.isDecimal (field : SchemaElement) : Bool :=
  match field.seLogicalType with
  | some (.decimal _ _) => true
  | _ => false

def encodePlain.carrier (field : SchemaElement) (value : PValue) : Option (List UInt8) :=
  match field.seType, value with
  | some .int32, .int32 n => some (word32LE n.toUInt32)
  | some .int64, .int64 n => some (word64LE n.toUInt64)
  | some .int32, .unsigned n => if field.unsigned && n ≤ 0xffffffff then some (word32LE n.toUInt32) else none
  | some .int64, .unsigned n => if field.unsigned then some (word64LE n) else none
  | some .float, .float f => some (word32LE f)
  | some .double, .double d => some (word64LE d)
  | some .boolean, .bool b => some [if b then 1 else 0]
  | some .byteArray, .text t => some (encodeUtf8 t)
  | some .byteArray, .binary bytes => some bytes
  | some .fixedLenByteArray, .binary bytes => some bytes
  | _, _ => none

/-- The bytes of a literal, where a column has one way to write it. -/
def encodePlain (field : SchemaElement) (value : PValue) : Option (List UInt8) :=
  if !hasCompatiblePhysicalType field then none
  else
    match value with
    | .decimal decimal => encodePlain.decimal field decimal
    | value => if field.isDecimal then none else encodePlain.carrier field value

section

variable (xxh64 : List UInt8 → UInt64)

/-- A zero may stand in the column under either sign. -/
def bloomCheckVal (field : SchemaElement) (sbbf : Sbbf) (value : PValue) : Bool :=
  let check (v : PValue) : Bool := (encodePlain field v).elim true fun bytes => sbbfCheck xxh64 bytes sbbf
  match value with
  | .float f =>
    if Ieee.binary32.same f.toNat 0 then check (.float 0) || check (.float 0x80000000) else check value
  | .double d =>
    if Ieee.binary64.same d.toNat 0 then check (.double 0) || check (.double 0x8000000000000000) else check value
  | value => check value

/-- Whether a column chunk may be skipped by its filter. -/
def evalBloomChunk (field : SchemaElement) (sbbf : Sbbf) : PColPredicate → Decision
  | .eq v => if bloomCheckVal xxh64 field sbbf v then .maybeKeep else .skip
  | .isIn vs => if vs.all fun v => !bloomCheckVal xxh64 field sbbf v then .skip else .maybeKeep
  | _ => .maybeKeep

end

end Wireform.Parquet

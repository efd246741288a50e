/-
  The writer of hybrid streams: runs of a repeated value, and bit-packed groups of eight.

  * `planRLEHybrid`, `planRepeatedRLEHybrid`: the values are checked, and the size of the
    stream is measured;
  * `encodeHybridPlan`: the stream of a plan, written in a buffer of that size.

  A writer is the bytes that it puts at its offset; it returns the offset behind them.
-/
import Wireform.Numerals

namespace Wireform.Parquet

/-- `maxBound :: Int` -/
def maxBound : Nat := 0x7fffffffffffffff

/-- A slice of an array of 32-bit integers, whose bytes are addressable. -/
structure PrimVector where
  offset : Nat
  values : List Int32
  addressable : values.length ≤ maxBound / 4

/-! ## Stores -/

/-- `targetByteOrder` -/
inductive ByteOrder where
  | littleEndian
  | bigEndian
deriving DecidableEq

/-- The bytes of a word of `k` bytes in memory. -/
def poke (order : ByteOrder) (k n : Nat) : List UInt8 :=
  match order with
  | .littleEndian => leBytes k n
  | .bigEndian => (leBytes k n).reverse

/-- `byteSwap32`, `byteSwap64` -/
def byteSwap (k n : Nat) : Nat := leValue (leBytes k n).reverse

/-- `dWord32LE`, `dWord64LE`, as they are called: with the bytes swapped on a machine of the other order. -/
def dWordLE (order : ByteOrder) (k n : Nat) : List UInt8 :=
  poke order k (match order with | .littleEndian => n | .bigEndian => byteSwap k n)

def dVarint.go (v : UInt64) : List UInt8 :=
  if v < 0x80 then [v.toUInt8] else (v &&& 0x7F ||| 0x80).toUInt8 :: go (v >>> 7)
termination_by v.toNat
decreasing_by
  rename_i h
  have h7 : (7 : UInt64).toNat % 64 = 7 := rfl
  have hv : 128 ≤ v.toNat := Nat.not_lt.1 h
  rw [UInt64.toNat_shiftRight, h7, Nat.shiftRight_eq_div_pow]
  omega

def dVarint (n : UInt64) : List UInt8 :=
  if n < 0x80 then [n.toUInt8]
  else if n < 0x4000 then [(n &&& 0x7F ||| 0x80).toUInt8, (n >>> 7).toUInt8]
  else if n < 0x200000 then
    [(n &&& 0x7F ||| 0x80).toUInt8, (n >>> 7 &&& 0x7F ||| 0x80).toUInt8, (n >>> 14).toUInt8]
  else dVarint.go n

/-! ## Plans -/

inductive HybridBody where
  | empty
  | repeated (count : Nat) (value : UInt32)
  | packed (values : List Int32)
  | mixed (values : List Int32) (firstRepeated : Nat)

structure HybridPlan where
  width : Nat
  encodedSize : Nat
  body : HybridBody

def maxRepeatedValues : Nat := 0x7fffffff

/-- A packed header counts groups; the limit applies to values. -/
def maxPackedGroups : Nat := 0x0fffffff

def widthMask (width : Int) : Except String UInt32 :=
  if width < 0 ∨ 32 < width then .error "Parquet.LevelsEncode: bit width out of range"
  else .ok (((1 : UInt64) <<< UInt64.ofNat width.toNat) - 1).toUInt32

def varintSize.go (bytes : Nat) (value : UInt64) : Nat :=
  if value < 128 then bytes else go (bytes + 1) (value >>> 7)
termination_by value.toNat
decreasing_by
  rename_i h
  have h7 : (7 : UInt64).toNat % 64 = 7 := rfl
  have hv : 128 ≤ value.toNat := Nat.not_lt.1 h
  rw [UInt64.toNat_shiftRight, h7, Nat.shiftRight_eq_div_pow]
  omega

def varintSize (value : UInt64) : Nat := varintSize.go 1 value

def repeatedHeader (count : Nat) : UInt64 := UInt64.ofNat count <<< 1

def packedHeader (groups : Nat) : UInt64 := UInt64.ofNat groups <<< 1 ||| 1

def exceedsAddressable : String := "Parquet.LevelsEncode: encoded stream exceeds addressable size"

/-- The sum is with the unbounded integers. -/
def repeatedPlan (width count : Nat) (value : UInt32) : Except String HybridPlan :=
  let full := count / maxRepeatedValues
  let rest := count % maxRepeatedValues
  let bytes := (width + 7) / 8
  let tailSize := if rest = 0 then 0 else varintSize (repeatedHeader rest) + bytes
  let size := full * (5 + bytes) + tailSize
  if maxBound < size then .error exceedsAddressable else .ok ⟨width, size, .repeated count value⟩

def planRepeatedRLEHybrid (width count : Int) (value : UInt32) : Except String HybridPlan := do
  let mask ← widthMask width
  if count < 0 then .error "Parquet.LevelsEncode: negative value count"
  else if count = 0 then .ok ⟨width.toNat, 0, .empty⟩
  else if mask < value then .error "Parquet.LevelsEncode: repeated value exceeds bit width"
  else repeatedPlan width.toNat count.toNat value

/-! ### Repeated runs among other values -/

/-- At width one, a run of eight takes twice the payload of a packed group. -/
def minimumRepeatedValues (width : Nat) : Nat := if width = 1 then 16 else 8

def findRepeatedEnd.stop (width start row : Nat) (atEnd : Bool) : Nat :=
  let count := row - start
  let compactTail := atEnd ∧ (width ≠ 1 ∨ 9 ≤ count)
  if minimumRepeatedValues width ≤ count ∨ compactTail then row else 0

/-- From a row on, with the values that stand there. -/
def findRepeatedEnd.go (width start : Nat) (first : Int32) : Nat → List Int32 → Nat
  | row, [] => stop width start row true
  | row, v :: vs => if v ≠ first then stop width start row false else go width start first (row + 1) vs

/-- The end of the repeated run that starts at a row, or zero.  The last value of the shortest run is
    looked at before the others. -/
def findRepeatedEnd (values : List Int32) (start width : Nat) : Nat :=
  match values.drop start with
  | [] => 0
  | first :: rest =>
    if minimumRepeatedValues width ≤ values.length - start ∧
        values[start + minimumRepeatedValues width - 1]? ≠ some first then 0
    else findRepeatedEnd.go width start first (start + 1) rest

theorem findRepeatedEnd.lt_stop {width start row : Nat} {atEnd : Bool} (h : start < row)
    (h0 : stop width start row atEnd ≠ 0) : start < stop width start row atEnd := by
  have hstop : stop width start row atEnd = row := by
    unfold stop at h0 ⊢
    exact if_pos (by_contra fun hno => h0 (if_neg hno))
  rwa [hstop]

theorem findRepeatedEnd.lt_go {width start : Nat} {first : Int32} {row : Nat} {vs : List Int32} (h : start < row)
    (h0 : go width start first row vs ≠ 0) : start < go width start first row vs := by
  induction vs generalizing row with
  | nil => exact lt_stop h h0
  | cons v vs ih =>
    unfold go at h0 ⊢
    by_cases hv : v = first
    · simp only [hv, ne_eq, not_true_eq_false, if_false] at h0 ⊢
      exact ih (Nat.lt_succ_of_lt h) h0
    · simp only [ne_eq, hv, not_false_eq_true, if_true] at h0 ⊢
      exact lt_stop h h0

theorem lt_findRepeatedEnd {values : List Int32} {start width : Nat} (h0 : findRepeatedEnd values start width ≠ 0) :
    start < findRepeatedEnd values start width := by
  unfold findRepeatedEnd at h0 ⊢
  split at h0
  · exact absurd rfl h0
  · split at h0
    · exact absurd rfl h0
    · rename_i hno
      simp only [hno, if_false] at h0 ⊢
      exact findRepeatedEnd.lt_go (Nat.lt_succ_self start) h0

/-! ### Sizes -/

def withPackedSize (width count total : Nat) : Except String Nat :=
  if count = 0 then .ok total
  else
    let groups := count / 8 + if count % 8 = 0 then 0 else 1
    let full := groups / maxPackedGroups
    let rest := groups % maxPackedGroups
    let headers := full * 5 + if rest = 0 then 0 else varintSize (packedHeader rest)
    let remaining : Int := (maxBound : Int) - total - headers
    if remaining < 0 ∨ (width ≠ 0 ∧ (groups : Int) > remaining / width) then .error exceedsAddressable
    else .ok (total + headers + groups * width)

def withRepeatedSize (width count total : Nat) : Except String Nat :=
  let bytes := (width + 7) / 8
  let size :=
    if count = 0 then 0
    else if count ≤ maxRepeatedValues then varintSize (repeatedHeader count) + bytes
    else
      let full := count / maxRepeatedValues
      let rest := count % maxRepeatedValues
      full * (5 + bytes) + if rest = 0 then 0 else varintSize (repeatedHeader rest) + bytes
  if (total : Int) > (maxBound : Int) - size then .error exceedsAddressable else .ok (total + size)

def measureMixedHybrid.go (width : Nat) (values : List Int32) (firstRepeated row packedStart total : Nat)
    (hasRepeated : Bool) : Except String HybridPlan :=
  if values.length ≤ row then do
    let size ← withPackedSize width (row - packedStart) total
    .ok ⟨width, size, if hasRepeated then .mixed values firstRepeated else .packed values⟩
  else if findRepeatedEnd values row width = 0 then
    go width values firstRepeated (row + min 8 (values.length - row)) packedStart total hasRepeated
  else do
    let beforeRun ← withPackedSize width (row - packedStart) total
    let afterRun ← withRepeatedSize width (findRepeatedEnd values row width - row) beforeRun
    go width values firstRepeated (findRepeatedEnd values row width) (findRepeatedEnd values row width) afterRun true
termination_by values.length - row
decreasing_by
  · omega
  · have := lt_findRepeatedEnd (by assumption)
    omega

/-- The constant prefix is a run of its own if it is long enough. -/
def measureMixedHybrid (width : Nat) (values : List Int32) (firstDifferent : Nat) : Except String HybridPlan :=
  let firstRepeated := if minimumRepeatedValues width ≤ firstDifferent then firstDifferent else 0
  if firstRepeated = 0 then measureMixedHybrid.go width values firstRepeated 0 0 0 false
  else do
    let size ← withRepeatedSize width firstRepeated 0
    measureMixedHybrid.go width values firstRepeated firstRepeated firstRepeated size true

/-! ### Checks -/

/-- Two values as one word.  The lanes are the other way round on a machine of the other order. -/
def pairs (order : ByteOrder) : List Int32 → List UInt64
  | a :: b :: vs =>
    (match order with
      | .littleEndian => a.toUInt32.toUInt64 ||| b.toUInt32.toUInt64 <<< 32
      | .bigEndian => b.toUInt32.toUInt64 ||| a.toUInt32.toUInt64 <<< 32) :: pairs order vs
  | _ => []

/-- All the bits that the values have, against a mask.  An odd value in front is read alone, and so is
    one at the end. -/
def valuesFitMask (order : ByteOrder) (maximumValue : UInt32) (offset : Nat) (values : List Int32) : Bool :=
  if values.length = 0 then true
  else
    let start := offset % 2
    let remaining := values.length - start
    let combined := (pairs order ((values.drop start).take (remaining / 2 * 2))).foldl (· ||| ·) 0
    let lanes := combined.toUInt32 ||| (combined >>> 32).toUInt32
    let leading := if start = 0 then lanes else lanes ||| (values.headD 0).toUInt32
    let allBits := if remaining % 2 = 0 then leading else leading ||| (values.getLastD 0).toUInt32
    allBits ≤ maximumValue

def outOfRange (row : Nat) : Except String HybridPlan :=
  .error ("Parquet.LevelsEncode: value at row " ++ toString row ++ " exceeds maximum")

def planRLEHybrid.validate (width : Nat) (maximumValue : UInt32) (values : List Int32) (firstDifferent : Nat) :
    Nat → List Int32 → Except String HybridPlan
  | _, [] => measureMixedHybrid width values firstDifferent
  | row, v :: vs =>
    if maximumValue < v.toUInt32 then outOfRange row
    else validate width maximumValue values firstDifferent (row + 1) vs

/-- An equal value has passed with the first one. -/
def planRLEHybrid.seekDifference (order : ByteOrder) (width : Nat) (mask maximumValue : UInt32) (vector : PrimVector)
    (first : Int32) : Nat → List Int32 → Except String HybridPlan
  | _, [] => repeatedPlan width vector.values.length first.toUInt32
  | row, v :: vs =>
    if v = first then seekDifference order width mask maximumValue vector first (row + 1) vs
    else if maximumValue = 0xffffffff then measureMixedHybrid width vector.values row
    else if maximumValue = mask ∧ valuesFitMask order mask (vector.offset + row) (v :: vs) then
      measureMixedHybrid width vector.values row
    else validate width maximumValue vector.values row row (v :: vs)

def planRLEHybrid (order : ByteOrder) (width : Int) (maximumValue : UInt32) (vector : PrimVector) :
    Except String HybridPlan := do
  let mask ← widthMask width
  if mask < maximumValue then .error "Parquet.LevelsEncode: maximum exceeds bit width"
  else
    match vector.values with
    | [] => .ok ⟨width.toNat, 0, .empty⟩
    | first :: rest =>
      if maximumValue < first.toUInt32 then outOfRange 0
      else planRLEHybrid.seekDifference order width.toNat mask maximumValue vector first 1 rest

/-! ## Writing -/

def writeValue (order : ByteOrder) (width : Nat) (value : UInt32) : List UInt8 :=
  match (width + 7) / 8 with
  | 0 => []
  | 1 => [value.toUInt8]
  | 2 => [value.toUInt8, (value >>> 8).toUInt8]
  | 3 => [value.toUInt8, (value >>> 8).toUInt8, (value >>> 16).toUInt8]
  | _ => dWordLE order 4 value.toNat

def encodeRepeatedRuns (order : ByteOrder) (width : Nat) (value : UInt32) (remaining : Nat) : List UInt8 :=
  if remaining = 0 then []
  else if remaining ≤ maxRepeatedValues then dVarint (repeatedHeader remaining) ++ writeValue order width value
  else
    dVarint (repeatedHeader maxRepeatedValues) ++ writeValue order width value ++
      encodeRepeatedRuns order width value (remaining - maxRepeatedValues)
termination_by remaining
decreasing_by
  have : 0 < maxRepeatedValues := by decide
  omega

/-- Zeros up to the end of the payload.  Past the end, the loop does not stop. -/
def zeroPad (byteCount : Nat) (written : List UInt8) : Option (List UInt8) :=
  if written.length ≤ byteCount then some (written ++ List.replicate (byteCount - written.length) 0) else none

def tailBytes (byteCount : Nat) (written : List UInt8) (bits : Nat) (acc : UInt64) : Option (List UInt8) :=
  if bits = 0 then zeroPad byteCount written
  else tailBytes byteCount (written ++ [acc.toUInt8]) (bits - 8) (acc >>> 8)
termination_by bits

/-- The high bits of a value that straddles two words are kept for the next. -/
def consume (order : ByteOrder) (width byteCount : Nat) :
    List Int32 → List UInt8 → Nat → UInt64 → Option (List UInt8)
  | [], written, bits, acc => tailBytes byteCount written bits acc
  | v :: vs, written, bits, acc =>
    let word := v.toUInt32.toUInt64
    let combined := acc ||| word <<< UInt64.ofNat bits
    let nextBits := bits + width
    if nextBits < 64 then consume order width byteCount vs written nextBits combined
    else
      consume order width byteCount vs (written ++ dWordLE order 8 combined.toNat) (nextBits - 64)
        (word >>> UInt64.ofNat (64 - bits))

/-- Whole values are copied as they stand in memory. -/
def packValues (order : ByteOrder) (width byteCount : Nat) (values : List Int32) : Option (List UInt8) :=
  if width = 32 ∧ order = .littleEndian then
    zeroPad byteCount (values.flatMap fun v => poke order 4 v.toUInt32.toNat)
  else consume order width byteCount values [] 0 0

/-- The packed runs of a slice of the values. -/
def encodePackedRuns (order : ByteOrder) (width : Nat) (slice : List Int32) : Option (List UInt8) :=
  if slice.length = 0 then some []
  else
    let groups := min maxPackedGroups (slice.length / 8 + if slice.length % 8 = 0 then 0 else 1)
    let countHere := min slice.length (groups * 8)
    do
      let payload ← packValues order width (groups * width) (slice.take countHere)
      let rest ← encodePackedRuns order width (slice.drop countHere)
      some (dVarint (packedHeader groups) ++ payload ++ rest)
termination_by slice.length
decreasing_by
  have : 0 < maxPackedGroups := by decide
  rw [List.length_drop]
  split <;> omega

def encodeMixedRuns.go (order : ByteOrder) (width : Nat) (values : List Int32) (row packedStart : Nat) :
    Option (List UInt8) :=
  if values.length ≤ row then encodePackedRuns order width ((values.drop packedStart).take (row - packedStart))
  else if findRepeatedEnd values row width = 0 then
    go order width values (row + min 8 (values.length - row)) packedStart
  else do
    let afterPacked ← encodePackedRuns order width ((values.drop packedStart).take (row - packedStart))
    let afterRepeated := encodeRepeatedRuns order width (values[row]?.getD 0).toUInt32 (findRepeatedEnd values row width - row)
    let rest ← go order width values (findRepeatedEnd values row width) (findRepeatedEnd values row width)
    some (afterPacked ++ afterRepeated ++ rest)
termination_by values.length - row
decreasing_by
  · omega
  · have := lt_findRepeatedEnd (by assumption)
    omega

def encodeMixedRuns (order : ByteOrder) (width : Nat) (values : List Int32) (firstRepeated : Nat) : Option (List UInt8) :=
  if firstRepeated = 0 then encodeMixedRuns.go order width values 0 0
  else do
    let rest ← encodeMixedRuns.go order width values firstRepeated firstRepeated
    some (encodeRepeatedRuns order width (values.headD 0).toUInt32 firstRepeated ++ rest)

def encodeHybridInto (order : ByteOrder) (plan : HybridPlan) : Option (List UInt8) :=
  match plan.body with
  | .empty => some []
  | .repeated count value => some (encodeRepeatedRuns order plan.width value count)
  | .packed values => encodePackedRuns order plan.width values
  | .mixed values firstRepeated => encodeMixedRuns order plan.width values firstRepeated

/-- What is written to a buffer of `plan.encodedSize` bytes, whose end nothing checks. -/
def encodeHybridPlan (order : ByteOrder) (plan : HybridPlan) : Option (List UInt8) :=
  if plan.encodedSize = 0 then some [] else encodeHybridInto order plan

end Wireform.Parquet

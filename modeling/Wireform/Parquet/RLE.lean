/-
  The reader of hybrid streams.

  * `withHybridRun`: the header of a run, with its checks, and where its payload and the next
    header stand;
  * `decodeHybridRleUnsigned32`: the structure of the runs is validated, then the values are
    read.

  A cursor into the bytes is what stands there.
-/
import Wireform.Parquet.LevelsEncode

namespace Wireform.Parquet

/-! ## Runs -/

inductive HybridRun where
  | invalid (error : String)
  | packed (payload next : List UInt8) (emit : Nat)
  | repeated (payload next : List UInt8) (emit : Nat)

def withHybridRun.run (width : Nat) (rest : List UInt8) (value : UInt64) (remaining : Nat) : HybridRun :=
  if value &&& 1 ≠ 0 then
    let groups := (value >>> 1).toNat
    if groups = 0 then .invalid "Parquet.RLE: zero-length bit-packed run"
    else if 0x0fffffff < groups then .invalid "Parquet.RLE: bit-packed run exceeds signed 32-bit length"
    else if rest.length / width < groups then .invalid "Parquet.RLE: truncated bit-packed run"
    else
      .packed rest (rest.drop (groups * width)) (if remaining / 8 < groups then remaining else groups * 8)
  else
    let count := (value >>> 1).toNat
    let paddedBytes := (width + 7) / 8
    if count = 0 then .invalid "Parquet.RLE: invalid RLE run length"
    else if 0x7fffffff < count then .invalid "Parquet.RLE: RLE run exceeds signed 32-bit length"
    else if rest.length < paddedBytes then .invalid "Parquet.RLE: truncated padded value"
    else .repeated rest (rest.drop paddedBytes) (if remaining < count then remaining else count)

def withHybridRun.varint (width remaining : Nat) : List UInt8 → UInt64 → Nat → HybridRun
  | [], _, _ => .invalid "Parquet.RLE: truncated hybrid stream"
  | byte :: rest, acc, shift =>
    let value := acc ||| (byte &&& 0x7f).toUInt64 <<< UInt64.ofNat shift
    if shift = 63 ∧ 1 < byte then .invalid "Parquet.RLE: run header overflows 64 bits"
    else if byte &&& 0x80 ≠ 0 then varint width remaining rest value (shift + 7)
    else run width rest value remaining

def withHybridRun (width : Nat) (bytes : List UInt8) (remaining : Nat) : HybridRun :=
  withHybridRun.varint width remaining bytes 0 0

/-- Where the next header stands, and how many values come before it. -/
def HybridRun.After (rest : List UInt8) : HybridRun → Prop
  | .invalid _ => True
  | .packed _ next _ | .repeated _ next _ => next.length ≤ rest.length

theorem withHybridRun.run_after (width : Nat) (rest : List UInt8) (value : UInt64) (remaining : Nat) :
    (run width rest value remaining).After rest := by
  unfold run
  dsimp only
  repeat' split
  all_goals first
    | trivial
    | exact (List.drop_sublist _ _).length_le

theorem withHybridRun.varint_after {width remaining : Nat} {byte : UInt8} {rest : List UInt8} (acc : UInt64) (shift : Nat) :
    (varint width remaining (byte :: rest) acc shift).After rest := by
  induction rest generalizing byte acc shift with
  | nil =>
    unfold varint
    dsimp only
    split
    · trivial
    · split
      · trivial
      · exact run_after _ _ _ _
  | cons b rest ih =>
    unfold varint
    dsimp only
    split
    · trivial
    · split
      · have h := @ih b (acc ||| (byte &&& 0x7f).toUInt64 <<< UInt64.ofNat shift) (shift + 7)
        revert h
        cases varint width remaining (b :: rest) (acc ||| (byte &&& 0x7f).toUInt64 <<< UInt64.ofNat shift) (shift + 7) with
        | invalid e => exact fun h => h
        | packed p n e => exact fun h => Nat.le_succ_of_le h
        | repeated p n e => exact fun h => Nat.le_succ_of_le h
      · exact run_after _ _ _ _

theorem next_lt {width remaining : Nat} {bytes payload next : List UInt8} {emit : Nat}
    (h : withHybridRun width bytes remaining = .packed payload next emit ∨
      withHybridRun width bytes remaining = .repeated payload next emit) : next.length < bytes.length := by
  cases bytes with
  | nil => rcases h with h | h <;> cases h
  | cons byte rest =>
    have hafter := @withHybridRun.varint_after width remaining byte rest 0 0
    unfold withHybridRun at h
    rcases h with h | h <;>
      · rw [h] at hafter
        exact Nat.lt_succ_of_le hafter

/-! ## Values -/

/-- The bytes of a value, little end first. -/
def readBits.go : List UInt8 → Nat → UInt64 → UInt64
  | [], _, acc => acc
  | b :: bs, i, acc => go bs (i + 1) (acc ||| b.toUInt64 <<< UInt64.ofNat (i * 8))

def readBits (bytes : List UInt8) (bit width : Nat) : UInt64 :=
  readBits.go (bytes.take ((bit + width + 7) / 8)) 0 0 >>> UInt64.ofNat bit

def readMask (width : Nat) : UInt64 := (1 <<< UInt64.ofNat width) - 1

def readValue (width : Nat) (bytes : List UInt8) (bit : Nat) : Int32 :=
  (readBits bytes bit width &&& readMask width).toUInt32.toInt32

def values (width : Nat) : Nat → List UInt8 → Nat → List Int32
  | 0, _, _ => []
  | n + 1, bytes, bit =>
    readValue width bytes bit :: values width n (bytes.drop ((bit + width) / 8)) ((bit + width) % 8)

/-- The fields of one byte, when the width divides it. -/
def byteFields (width : Nat) (byte : UInt8) : List Int32 :=
  match width with
  | 1 => [byte &&& 1, byte >>> 1 &&& 1, byte >>> 2 &&& 1, byte >>> 3 &&& 1, byte >>> 4 &&& 1, byte >>> 5 &&& 1,
      byte >>> 6 &&& 1, byte >>> 7].map fun b => b.toUInt32.toInt32
  | 2 => [byte &&& 3, byte >>> 2 &&& 3, byte >>> 4 &&& 3, byte >>> 6].map fun b => b.toUInt32.toInt32
  | 4 => [byte &&& 15, byte >>> 4].map fun b => b.toUInt32.toInt32
  | _ => [byte.toUInt32.toInt32]

/-- `bits1`, `bits2`, `bits4`, `bits8`: the complete bytes are decoded at once. -/
def bitsBytes (width : Nat) : Nat → List UInt8 → List Int32
  | left, [] => values width left [] 0
  | left, byte :: bytes =>
    if left < 8 / width then values width left (byte :: bytes) 0
    else byteFields width byte ++ bitsBytes width (left - 8 / width) bytes

def packedValues (width emit : Nat) (payload : List UInt8) : List Int32 :=
  match width with
  | 1 | 2 | 4 | 8 => bitsBytes width emit payload
  | _ => values width emit payload 0

def repeatedValues (width emit : Nat) (payload : List UInt8) : List Int32 :=
  List.replicate emit (readValue width payload 0)

/-! ## Streams -/

def validate (width : Nat) (bytes : List UInt8) (remaining : Nat) : Except String Unit :=
  if remaining = 0 then .ok ()
  else
    match _h : withHybridRun width bytes remaining with
    | .invalid e => .error e
    | .packed _ next emit => validate width next (remaining - emit)
    | .repeated _ next emit => validate width next (remaining - emit)
termination_by bytes.length
decreasing_by
  · exact next_lt (Or.inl _h)
  · exact next_lt (Or.inr _h)

/-- From a header on.  What is written to the output is what is returned. -/
def header (width : Nat) (bytes : List UInt8) (remaining : Nat) : Except String (List Int32) :=
  if remaining = 0 then .ok []
  else
    match _h : withHybridRun width bytes remaining with
    | .invalid e => .error e
    | .packed payload next emit => (packedValues width emit payload ++ ·) <$> header width next (remaining - emit)
    | .repeated payload next emit => (repeatedValues width emit payload ++ ·) <$> header width next (remaining - emit)
termination_by bytes.length
decreasing_by
  · exact next_lt (Or.inl _h)
  · exact next_lt (Or.inr _h)

def decodeHybridRleUnsigned32 (width count : Int) (bytes : List UInt8) : Except String (List Int32) :=
  if count < 0 then .error "Parquet.RLE: negative value count"
  else if width < 0 ∨ 32 < width then .error "Parquet.RLE: bit width out of range"
  else if count = 0 then .ok []
  else if (maxBound / 4 : Nat) < count then .error "Parquet.RLE: decoded vector exceeds addressable size"
  else if width = 0 then .ok (List.replicate count.toNat 0)
  else if bytes = [] then .error "Parquet.RLE: empty hybrid stream"
  else
    let width := width.toNat
    let count := count.toNat
    match withHybridRun width bytes count with
    | .invalid e => .error e
    -- the first run is kept, so that its header is parsed once
    | .packed payload next emit => do
      validate width next (count - emit)
      let rest ← header width next (count - emit)
      .ok (packedValues width emit payload ++ rest)
    | .repeated payload next emit => do
      validate width next (count - emit)
      let rest ← header width next (count - emit)
      .ok (repeatedValues width emit payload ++ rest)

end Wireform.Parquet

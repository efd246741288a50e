/-
  Decoding header blocks (`Network.HTTP2.HPACK.Decode`).

  Reading a byte outside the block raises an exception: this is the outcome
  `crash`.  The loop over the block has as many steps as the block has bytes, and
  one more; `more` is the outcome of a loop that would need another step.
-/
import Wireform.MachineInt
import Wireform.Http2.Hpack.Table

namespace Wireform.Http2.Hpack

/-- The outcome of a decoder. -/
inductive Res (α : Type) where
  | right (a : α)
  | left (e : DecodeError)
  | crash
  | more
  deriving DecidableEq, Repr

def Res.bind {α β : Type} (r : Res α) (k : α → Res β) : Res β :=
  match r with
  | .right a => k a
  | .left e => .left e
  | .crash => .crash
  | .more => .more

@[simp] theorem Res.bind_right {α β : Type} (a : α) (k : α → Res β) : (Res.right a).bind k = k a := rfl

@[simp] theorem Res.bind_left {α β : Type} (e : DecodeError) (k : α → Res β) :
    (Res.left e).bind k = .left e := rfl

@[simp] theorem Res.bind_crash {α β : Type} (k : α → Res β) : Res.crash.bind k = .crash := rfl

@[simp] theorem Res.bind_more {α β : Type} (k : α → Res β) : Res.more.bind k = .more := rfl

/-- Length as a signed 64-bit integer. -/
def bsLen (bs : ByteString) : Int := bs.length

/-- `BS.index`: the byte at `i`, an exception outside the block. -/
def withIndex {α : Type} (bs : ByteString) (i : Int) (k : UInt8 → Res α) : Res α :=
  if 0 ≤ i then
    match bs[i.toNat]? with
    | some b => k b
    | none => .crash
  else .crash

/-! ## Integers -/

/-- The shifts at which `decodeContinuation` accepts a byte, in order. -/
def continuationShifts : List Nat := [0, 7, 14, 21, 28, 35, 42, 49, 56]

/-- `decodeContinuation`, over the shifts still allowed. -/
def decodeContinuation (bs : ByteString) : List Nat → Int → UInt64 → Res (UInt64 × Int)
  | [], off, _ => if off ≥ bsLen bs then .left .headerBlockTruncated else .left .integerOverflow
  | shift :: shifts, off, value =>
    if off ≥ bsLen bs then .left .headerBlockTruncated
    else withIndex bs off fun b =>
      let value' := value + ((b &&& 0x7F).toUInt64 <<< UInt64.ofNat shift)
      if b &&& 0x80 ≠ 0 then decodeContinuation bs shifts (addInt off 1) value'
      else .right (value', addInt off 1)

/-- Decode an integer with a prefix of `n` bits. -/
def decodeInteger (bs : ByteString) (off : Int) (n : Nat) : Res (UInt64 × Int) :=
  if off ≥ bsLen bs then .left .headerBlockTruncated
  else withIndex bs off fun b =>
    let mask : UInt8 := (1 <<< UInt8.ofNat n) - 1
    if b &&& mask < mask then .right ((b &&& mask).toUInt64, addInt off 1)
    else decodeContinuation bs continuationShifts (addInt off 1) (b &&& mask).toUInt64

/-! ## Strings -/

/-- `BS.take (fromIntegral strLen) (BS.drop off bs)`. -/
def takeDrop (bs : ByteString) (off len : Int) : ByteString := (bs.drop off.toNat).take len.toNat

/-- Decode a string literal. -/
def decodeString (bs : ByteString) (off : Int) : Res (ByteString × Int) :=
  if off ≥ bsLen bs then .left .headerBlockTruncated
  else (decodeInteger bs off 7).bind fun (strLen, off') =>
    let stop := addInt off' (ofWord strLen)
    if stop > bsLen bs then .left .headerBlockTruncated
    else withIndex bs off fun b =>
      if b &&& 0x80 ≠ 0 then
        match huffmanDecode (takeDrop bs off' (ofWord strLen)) with
        | .error e => .left e
        | .ok decoded => .right (decoded, stop)
      else .right (takeDrop bs off' (ofWord strLen), stop)

/-! ## Headers -/

/-- A result, and the table after it. -/
abbrev TableM (α : Type) := Res α × DynamicTable

def decodeIndexed (dt : DynamicTable) (bs : ByteString) (off : Int) : TableM (Option Header × Int) :=
  ((decodeInteger bs off 7).bind fun (idx, off') =>
    match lookupEntry dt (ofWord idx) with
    | none => .left (.indexOutOfRange (ofWord idx))
    | some hdr => .right (some hdr, off'), dt)

/-- The name of a literal header: a string, or the name of an entry. -/
def decodeName (dt : DynamicTable) (bs : ByteString) (idx : UInt64) (off : Int) : Res (ByteString × Int) :=
  if idx = 0 then (decodeString bs off).bind fun (name, off') => .right (internName name, off')
  else
    match lookupEntry dt (ofWord idx) with
    | none => .left (.indexOutOfRange (ofWord idx))
    | some (name, _) => .right (name, off)

/-- The name and the value of a literal header with a prefix of `n` bits. -/
def decodeLiteral (dt : DynamicTable) (bs : ByteString) (off : Int) (n : Nat) : Res (Header × Int) :=
  (decodeInteger bs off n).bind fun (idx, off') =>
    (decodeName dt bs idx off').bind fun (name, off'') =>
      (decodeString bs off'').bind fun (value, off''') => .right ((name, value), off''')

def decodeLiteralIncremental (dt : DynamicTable) (bs : ByteString) (off : Int) :
    TableM (Option Header × Int) :=
  match decodeLiteral dt bs off 6 with
  | .right (hdr, off') => (.right (some hdr, off'), insertEntry dt hdr)
  | .left e => (.left e, dt)
  | .crash => (.crash, dt)
  | .more => (.more, dt)

def decodeLiteralCommon (dt : DynamicTable) (bs : ByteString) (off : Int) (n : Nat) :
    TableM (Option Header × Int) :=
  ((decodeLiteral dt bs off n).bind fun (hdr, off') => .right (some hdr, off'), dt)

def decodeLiteralNoIndex (dt : DynamicTable) (bs : ByteString) (off : Int) :
    TableM (Option Header × Int) := decodeLiteralCommon dt bs off 4

def decodeLiteralNeverIndex (dt : DynamicTable) (bs : ByteString) (off : Int) :
    TableM (Option Header × Int) := decodeLiteralCommon dt bs off 4

def decodeDynamicTableUpdate (dt : DynamicTable) (maxSize : Int) (bs : ByteString) (off : Int) :
    TableM (Option Header × Int) :=
  match decodeInteger bs off 5 with
  | .right (newSize, off') =>
    if ofWord newSize > maxSize then (.left (.invalidTableSizeUpdate (ofWord newSize)), dt)
    else (.right (none, off'), setMaxSize dt (ofWord newSize))
  | .left e => (.left e, dt)
  | .crash => (.crash, dt)
  | .more => (.more, dt)

/-- Decode one representation that is no table size update at the start of a
    block. -/
def decodeHeader (dt : DynamicTable) (bs : ByteString) (off : Int) : TableM (Option Header × Int) :=
  if off ≥ bsLen bs then (.left .headerBlockTruncated, dt)
  else if 0 ≤ off then
    match bs[off.toNat]? with
    | none => (.crash, dt)
    | some b =>
      if b &&& 0x80 ≠ 0 then decodeIndexed dt bs off
      else if b &&& 0x40 ≠ 0 then decodeLiteralIncremental dt bs off
      else if b &&& 0xF0 = 0 then decodeLiteralNoIndex dt bs off
      else if b &&& 0xF0 = 0x10 then decodeLiteralNeverIndex dt bs off
      else decodeDynamicTableUpdate dt 4096 bs off
  else (.crash, dt)

/-- The loop of `decodeHeaderBlockWithMaxSize`, in at most the given number of
    steps. -/
def decodeHeaderBlock.go (maxTableSize : Int) (bs : ByteString) :
    Nat → DynamicTable → Int → List Header → Bool → TableM (List Header)
  | 0, dt, _, _, _ => (.more, dt)
  | n + 1, dt, off, acc, allowTableUpdate =>
    if off ≥ bsLen bs then (.right acc.reverse, dt)
    else if 0 ≤ off then
      match bs[off.toNat]? with
      | none => (.crash, dt)
      | some b =>
        if b &&& 0xE0 = 0x20 then
          if allowTableUpdate then
            match decodeDynamicTableUpdate dt maxTableSize bs off with
            | (.right (none, off'), dt) => go maxTableSize bs n dt off' acc true
            | (.right (some _, _), dt) => (.left (.invalidTableSizeUpdate 0), dt)
            | (.left e, dt) => (.left e, dt)
            | (.crash, dt) => (.crash, dt)
            | (.more, dt) => (.more, dt)
          else (.left (.invalidTableSizeUpdate 0), dt)
        else
          match decodeHeader dt bs off with
          | (.right (none, off'), dt) => go maxTableSize bs n dt off' acc false
          | (.right (some hdr, off'), dt) => go maxTableSize bs n dt off' (hdr :: acc) false
          | (.left e, dt) => (.left e, dt)
          | (.crash, dt) => (.crash, dt)
          | (.more, dt) => (.more, dt)
    else (.crash, dt)

/-- Decode a header block, with table sizes up to `maxTableSize`. -/
def decodeHeaderBlockWithMaxSize (dt : DynamicTable) (maxTableSize : Int) (bs : ByteString) :
    TableM (List Header) := decodeHeaderBlock.go maxTableSize bs (bs.length + 1) dt 0 [] true

def decodeHeaderBlock (dt : DynamicTable) (bs : ByteString) : TableM (List Header) :=
  decodeHeaderBlockWithMaxSize dt 4096 bs

end Wireform.Http2.Hpack

/-
  The protobuf wire format: wire types, tags, and the decoder type
  (`Proto.Internal.Wire`, `Proto.Internal.Wire.Decode`).

  A decoder reads a byte string from an offset and gives a value with the next
  offset, or a `DecodeError`.  Two more outcomes make every run of the program
  a value: `fault`, a read outside the input (the program indexes without a
  bounds check), and `more`, a loop cut off by its step budget.  Offsets are
  64-bit signed integers, added with wrap-around.
-/
import Wireform.MachineInt

namespace Wireform.Proto

abbrev ByteString := List UInt8

/-! ## Wire types and tags -/

/-- Protobuf wire types. -/
inductive WireType where
  | varint | bit64 | lengthDelimited | startGroup | endGroup | bit32
  deriving DecidableEq, Repr

/-- The wire type in the low three bits of a tag value. -/
def wireTypeFromTag (n : UInt32) : Option WireType :=
  match (n &&& 0x07).toNat with
  | 0 => some .varint
  | 1 => some .bit64
  | 2 => some .lengthDelimited
  | 3 => some .startGroup
  | 4 => some .endGroup
  | 5 => some .bit32
  | _ => none

/-- The numeric encoding of a wire type. -/
def wireTypeToWord : WireType → UInt32
  | .varint => 0
  | .bit64 => 1
  | .lengthDelimited => 2
  | .startGroup => 3
  | .endGroup => 4
  | .bit32 => 5

/-- A decoded tag: field number and wire type. -/
structure Tag where
  fieldNumber : Int
  wireType : WireType
  deriving DecidableEq, Repr

/-- The tag of a varint value; field number `0` and unknown wire types are
    rejected. -/
def decodeTag (w : UInt64) : Option Tag :=
  match wireTypeFromTag (w &&& 0x07).toUInt32 with
  | none => none
  | some wt =>
    let fn := ofWord (w >>> 3)
    if fn = 0 then none else some ⟨fn, wt⟩

/-- A tag as a single word. -/
def encodeTag (t : Tag) : UInt64 :=
  (UInt64.ofInt t.fieldNumber <<< 3) ||| (wireTypeToWord t.wireType).toUInt64

/-- The wire tag of a field number and a wire type. -/
def fieldTag (fn : Int) (wt : WireType) : UInt64 := encodeTag ⟨fn, wt⟩

/-! ## Decoders -/

/-- Errors of wire-format decoding. -/
inductive DecodeError where
  | unexpectedEnd
  | invalidVarint
  | invalidTag (w : UInt64)
  | invalidWireType (wt : Int)
  | invalidUtf8
  | negativeLength
  | extraBytes
  | subMessageError (e : DecodeError)
  | customError (msg : String)
  deriving DecidableEq, Repr

/-- The outcome of a decoder: a value with the next offset, an error, a read
    outside the input, or a loop cut off by its step budget. -/
inductive Result (α : Type) where
  | ok (a : α) (off : Int)
  | fail (e : DecodeError)
  | fault
  | more
  deriving DecidableEq, Repr

/-- Go on with the value and the offset of a decoder that succeeded. -/
def Result.bind {α β : Type} (r : Result α) (k : α → Int → Result β) : Result β :=
  match r with
  | .ok a off => k a off
  | .fail e => .fail e
  | .fault => .fault
  | .more => .more

@[simp] theorem Result.bind_ok {α β : Type} (a : α) (off : Int) (k : α → Int → Result β) :
    (Result.ok a off).bind k = k a off := rfl

@[simp] theorem Result.bind_fail {α β : Type} (e : DecodeError) (k : α → Int → Result β) :
    (Result.fail e).bind k = .fail e := rfl

@[simp] theorem Result.bind_fault {α β : Type} (k : α → Int → Result β) :
    Result.fault.bind k = .fault := rfl

@[simp] theorem Result.bind_more {α β : Type} (k : α → Int → Result β) :
    Result.more.bind k = .more := rfl

abbrev Decoder (α : Type) := ByteString → Int → Result α

/-- `pure`: the value, nothing consumed. -/
def Decoder.pure {α : Type} (a : α) : Decoder α := fun _ off => .ok a off

/-- `>>=`: the second decoder runs at the offset the first one reached. -/
def Decoder.bind {α β : Type} (g : Decoder α) (f : α → Decoder β) : Decoder β := fun bs off =>
  (g bs off).bind fun a off' => f a bs off'

instance : Monad Decoder where
  pure := Decoder.pure
  bind := Decoder.bind

/-- Length as a signed 64-bit integer. -/
def bsLen (bs : ByteString) : Int := bs.length

/-- `unsafeIndex`: the byte at `i`, a fault outside the input. -/
def withByte {α : Type} (bs : ByteString) (i : Int) (k : UInt8 → Result α) : Result α :=
  if 0 ≤ i then
    match bs[i.toNat]? with
    | some b => k b
    | none => .fault
  else .fault

/-- The region `unsafeTake len (unsafeDrop start bs)` denotes, which nothing
    checks against `bs`. -/
structure Slice where
  start : Int
  len : Int
  deriving DecidableEq, Repr

/-- The slice lies inside `bs`. -/
def Slice.Inside (s : Slice) (bs : ByteString) : Prop :=
  0 ≤ s.start ∧ 0 ≤ s.len ∧ s.start + s.len ≤ bsLen bs

instance (s : Slice) (bs : ByteString) : Decidable (s.Inside bs) := by
  unfold Slice.Inside; infer_instance

/-- The bytes of a slice. -/
def Slice.bytes (s : Slice) (bs : ByteString) : ByteString :=
  (bs.drop s.start.toNat).take s.len.toNat

/-- The outcome of running a decoder on a whole input. -/
inductive Run (α : Type) where
  | right (a : α)
  | left (e : DecodeError)
  | fault
  | more
  deriving DecidableEq, Repr

/-- Run a decoder from offset `0`; it has to consume the whole input. -/
def runDecoder {α : Type} (d : Decoder α) (bs : ByteString) : Run α :=
  match d bs 0 with
  | .ok a off => if off = bsLen bs then .right a else .left .extraBytes
  | .fail e => .left e
  | .fault => .fault
  | .more => .more

end Wireform.Proto

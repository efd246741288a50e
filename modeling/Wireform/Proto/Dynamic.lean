/-
  Dynamic messages (`Proto.Dynamic`, with the descriptors of `Proto.Schema`).

  * `decodeDynamic` reads a message by the wire types of its tags;
  * `compileParseTable` turns a schema into a `ParseTable`, and
    `decodeDynamicWithSchema` reads a message with it.

  A text is its UTF-8 bytes, and a floating-point number its bits.  Decoding
  with a table runs in `IO`, where `error` raises an exception: this is the
  outcome `throws`.
-/
import Wireform.AssocMap
import Wireform.Utf8
import Wireform.Proto.Swar

namespace Wireform.Proto

open AssocMap

/-! ## Values -/

mutual

/-- A dynamically-typed protobuf value. -/
inductive DynamicValue where
  | dynVarint (v : UInt64)
  | dynSVarint (v : Int64)
  | dynFixed32 (v : UInt32)
  | dynFixed64 (v : UInt64)
  | dynFloat (bits : UInt32)
  | dynDouble (bits : UInt64)
  | dynBool (b : Bool)
  | dynString (text : ByteString)
  | dynBytes (bytes : ByteString)
  | dynMessage (m : DynamicMessage)
  | dynEnum (n : Int)
  | dynRepeated (vs : List DynamicValue)
  | dynMap (kvs : List (DynamicValue × DynamicValue))

/-- A dynamically-typed message: its fields by number, and its unknown
    fields. -/
inductive DynamicMessage where
  | mk (dynFields : List (Int × DynamicValue))
      (dynUnknownFields : List (Int × WireType × ByteString))

end

/-- The fields of a message. -/
def DynamicMessage.dynFields : DynamicMessage → AssocMap Int DynamicValue
  | .mk fs _ => fs

/-- Add one more value of a field: a second value makes the field repeated. -/
def appendValue (fn : Int) (val : DynamicValue) (acc : AssocMap Int DynamicValue) :
    AssocMap Int DynamicValue :=
  match lookup fn acc with
  | none => insert fn val acc
  | some (.dynRepeated vs) => insert fn (.dynRepeated (vs ++ [val])) acc
  | some existing => insert fn (.dynRepeated [existing, val]) acc

/-! ## Decoding without a schema -/

/-- Decode the value of a field from its wire type. -/
def decodeWireValue (n : Nat) (wt : WireType) : Decoder DynamicValue := fun bs off =>
  match wt with
  | .varint => (getVarint bs off).bind fun v off' => .ok (.dynVarint v) off'
  | .bit64 => (getFixed64 bs off).bind fun v off' => .ok (.dynFixed64 v) off'
  | .bit32 => (getFixed32 bs off).bind fun v off' => .ok (.dynFixed32 v) off'
  | .lengthDelimited => (getLengthDelimited bs off).bind fun s off' =>
    withSlice bs s fun bytes => .ok (.dynBytes bytes) off'
  | wt => (skipField n wt bs off).bind fun _ off' => .ok (.dynBytes []) off'

/-- The loop of `decodeDynLoop`, in at most the given number of steps. -/
def decodeDynLoop.go : Nat → AssocMap Int DynamicValue → Decoder DynamicMessage
  | 0, _ => fun _ _ => .more
  | n + 1, acc => fun bs off =>
    (getTagOrU bs off).bind fun mt off' =>
      match mt with
      | none => .ok (.mk acc []) off'
      | some ⟨fn, wt⟩ => (decodeWireValue n wt bs off').bind fun val off'' =>
        go n (appendValue fn val acc) bs off''

def decodeDynLoop (n : Nat) : Decoder DynamicMessage := decodeDynLoop.go n []

/-- Decode a dynamic message using wire type inference. -/
def decodeDynamic (n : Nat) (bs : ByteString) : Run DynamicMessage :=
  runDecoder (decodeDynLoop n) bs

/-! ## Schemas -/

/-- Scalar field types. -/
inductive ScalarFieldType where
  | doubleField | floatField | int32Field | int64Field | uInt32Field | uInt64Field | sInt32Field
  | sInt64Field | fixed32Field | fixed64Field | sFixed32Field | sFixed64Field | boolField
  | stringField | bytesField
  deriving DecidableEq, Repr

inductive FieldTypeDescriptor where
  | scalarType (s : ScalarFieldType)
  | messageType (name : String)
  | enumType (name : String)
  | mapType (key : ScalarFieldType) (value : FieldTypeDescriptor)
  deriving DecidableEq, Repr

inductive FieldLabel where
  | labelOptional | labelRequired | labelRepeated
  deriving DecidableEq, Repr

structure FieldDescriptor where
  fdNumber : Int
  fdTypeDesc : FieldTypeDescriptor
  fdLabel : FieldLabel
  deriving DecidableEq, Repr

/-- The descriptors of a message type in ascending order of their numbers,
    each of them a number that a tag can hold. -/
structure Schema where
  fieldDescriptors : List FieldDescriptor
  ascending : (fieldDescriptors.map (·.fdNumber)).Pairwise (· < ·)
  positive : ∀ fd ∈ fieldDescriptors, 0 < fd.fdNumber
  small : ∀ fd ∈ fieldDescriptors, fd.fdNumber < 2 ^ 61

/-- The wire type of a field type. -/
def fieldWireType : FieldTypeDescriptor → WireType
  | .scalarType .doubleField => .bit64
  | .scalarType .floatField => .bit32
  | .scalarType .int32Field => .varint
  | .scalarType .int64Field => .varint
  | .scalarType .uInt32Field => .varint
  | .scalarType .uInt64Field => .varint
  | .scalarType .sInt32Field => .varint
  | .scalarType .sInt64Field => .varint
  | .scalarType .fixed32Field => .bit32
  | .scalarType .fixed64Field => .bit64
  | .scalarType .sFixed32Field => .bit32
  | .scalarType .sFixed64Field => .bit64
  | .scalarType .boolField => .varint
  | .scalarType .stringField => .lengthDelimited
  | .scalarType .bytesField => .lengthDelimited
  | .messageType _ => .lengthDelimited
  | .enumType _ => .varint
  | .mapType _ _ => .lengthDelimited

/-! ## Thunks -/

/-- The outcome of an `IO` action of the decoder: a value, an exception with
    the text it starts with and the decode error it shows, a read outside the
    input, or a loop cut off by its step budget. -/
inductive Outcome (α : Type) where
  | done (a : α)
  | throws (what : String) (e : DecodeError)
  | fault
  | more

def Outcome.bind {α β : Type} (r : Outcome α) (k : α → Outcome β) : Outcome β :=
  match r with
  | .done a => k a
  | .throws what e => .throws what e
  | .fault => .fault
  | .more => .more

/-- Parse one field: the value and the next offset. -/
abbrev FieldThunk := ByteString → Int → Outcome (DynamicValue × Int)

/-- The result of a decoder in `IO`, where an error is an exception. -/
def Result.orThrow {α : Type} (what : String) (r : Result α) : Outcome (α × Int) :=
  match r with
  | .ok a off => .done (a, off)
  | .fail e => .throws what e
  | .fault => .fault
  | .more => .more

/-- The same for a run on a whole input. -/
def Run.orThrow {α : Type} (what : String) (r : Run α) : Outcome α :=
  match r with
  | .right a => .done a
  | .left e => .throws what e
  | .fault => .fault
  | .more => .more

def thunkVarint (f : UInt64 → DynamicValue) : FieldThunk := fun bs off =>
  ((getVarint bs off).orThrow "dynamic varint decode: ").bind fun r => .done (f r.1, r.2)

def thunkFixed32 (f : UInt32 → DynamicValue) : FieldThunk := fun bs off =>
  ((getFixed32 bs off).orThrow "dynamic fixed32 decode: ").bind fun r => .done (f r.1, r.2)

def thunkFixed64 (f : UInt64 → DynamicValue) : FieldThunk := fun bs off =>
  ((getFixed64 bs off).orThrow "dynamic fixed64 decode: ").bind fun r => .done (f r.1, r.2)

def thunkLenDelim (f : ByteString → Run DynamicValue) : FieldThunk := fun bs off =>
  ((getLengthDelimited bs off).orThrow "dynamic len-delim decode: ").bind fun r =>
    if r.1.Inside bs then
      ((f (r.1.bytes bs)).orThrow "dynamic len-delim decode: ").bind fun v => .done (v, r.2)
    else .fault

/-- `decodeUtf8Lenient` on bytes that are UTF-8: nothing is replaced. -/
def decodeUtf8Lenient (bytes : ByteString) (_ : Utf8.validateUtf8 bytes = true) : ByteString :=
  bytes

def decodeTextValue (bytes : ByteString) : Run ByteString :=
  if h : Utf8.validateUtf8 bytes = true then .right (decodeUtf8Lenient bytes h)
  else .left .invalidUtf8

/-- Decode a submessage using wire type inference. -/
def decodeSubmsg (n : Nat) (bytes : ByteString) : Run DynamicMessage := decodeDynamic n bytes

def Run.map {α β : Type} (f : α → β) (r : Run α) : Run β :=
  match r with
  | .right a => .right (f a)
  | .left e => .left e
  | .fault => .fault
  | .more => .more

/-- The thunk of a field type. -/
def mkThunk (n : Nat) : FieldTypeDescriptor → FieldThunk
  | .scalarType .doubleField => thunkFixed64 .dynDouble
  | .scalarType .floatField => thunkFixed32 .dynFloat
  | .scalarType .int32Field => thunkVarint .dynVarint
  | .scalarType .int64Field => thunkVarint .dynVarint
  | .scalarType .uInt32Field => thunkVarint .dynVarint
  | .scalarType .uInt64Field => thunkVarint .dynVarint
  | .scalarType .sInt32Field => thunkVarint .dynVarint
  | .scalarType .sInt64Field => thunkVarint .dynVarint
  | .scalarType .fixed32Field => thunkFixed32 .dynFixed32
  | .scalarType .fixed64Field => thunkFixed64 .dynFixed64
  | .scalarType .sFixed32Field => thunkFixed32 .dynFixed32
  | .scalarType .sFixed64Field => thunkFixed64 .dynFixed64
  | .scalarType .boolField => thunkVarint fun v => .dynBool (v != 0)
  | .scalarType .stringField => thunkLenDelim fun bytes => (decodeTextValue bytes).map .dynString
  | .scalarType .bytesField => thunkLenDelim fun bytes => .right (.dynBytes bytes)
  | .messageType _ => thunkLenDelim fun bytes => (decodeSubmsg n bytes).map .dynMessage
  | .enumType _ => thunkVarint fun v => .dynEnum (ofWord v)
  | .mapType _ _ => thunkLenDelim fun bytes => .right (.dynBytes bytes)

/-! ## Parse tables -/

/-- A field's entry in the table. -/
structure FieldParser where
  fpTag : UInt64
  fpFieldNum : Int
  fpNextOk : Nat
  fpNextErr : Nat
  fpTypeDesc : FieldTypeDescriptor
  fpLabel : FieldLabel

/-- Parse a field's value (`fpParse`). -/
def FieldParser.fpParse (n : Nat) (fp : FieldParser) : FieldThunk := mkThunk n fp.fpTypeDesc

/-- Compiled parse table for a message type. -/
structure ParseTable where
  ptFields : List FieldParser
  ptTagLUT : ByteString
  ptTagMap : AssocMap Int Nat
  ptMaxMiss : Nat

def mkFieldParser (idx nFields : Nat) (fd : FieldDescriptor) : FieldParser where
  fpTag := fieldTag fd.fdNumber (fieldWireType fd.fdTypeDesc)
  fpFieldNum := fd.fdNumber
  fpNextOk := (idx + 1) % nFields
  fpNextErr := (idx + 1) % nFields
  fpTypeDesc := fd.fdTypeDesc
  fpLabel := fd.fdLabel

/-- The field parsers of a schema, in order. -/
def fieldParsers (sc : Schema) : List FieldParser :=
  sc.fieldDescriptors.mapIdx fun i fd => mkFieldParser i sc.fieldDescriptors.length fd

/-- The map from the tags of a schema to the indices of their parsers. -/
def tagIndexMap (sc : Schema) : AssocMap Int Nat :=
  fromList ((fieldParsers sc).mapIdx fun i fp => (ofWord fp.fpTag, i))

/-- The entry of the lookup table for a one-byte tag. -/
def tagLUTEntry (sc : Schema) (tag : Nat) : UInt8 :=
  match lookup (tag : Int) (tagIndexMap sc) with
  | some idx => if idx < 256 then UInt8.ofNat idx else 0xFF
  | none => 0xFF

/-- Compile a schema into a parse table. -/
def compileParseTable (sc : Schema) : ParseTable where
  ptFields := fieldParsers sc
  ptTagLUT := (List.range 128).map (tagLUTEntry sc)
  ptTagMap := tagIndexMap sc
  ptMaxMiss := min 4 sc.fieldDescriptors.length

/-- Follow the error links, then fall back to the map. -/
def walkErr (pt : ParseTable) (tagW : UInt64) : Nat → Nat → Option Nat
  | _, 0 => lookup (ofWord tagW) pt.ptTagMap
  | curIdx, tries + 1 =>
    match pt.ptFields[curIdx]? with
    | none => lookup (ofWord tagW) pt.ptTagMap
    | some fp => if fp.fpTag = tagW then some curIdx else walkErr pt tagW fp.fpNextErr tries

/-- Find the field parser of a tag, `fault` for a read outside the table. -/
def findField (pt : ParseTable) (tagW : UInt64) (curIdx : Nat) : Outcome (Option Nat) :=
  if 0 ≤ ofWord tagW ∧ ofWord tagW < 128 then
    match pt.ptTagLUT[(ofWord tagW).toNat]? with
    | none => .fault
    | some lutVal => .done (if lutVal ≠ 0xFF then some lutVal.toNat else none)
  else
    match pt.ptFields[curIdx]? with
    | none => .done (walkErr pt tagW curIdx pt.ptMaxMiss)
    | some fp =>
      .done (if fp.fpTag = tagW then some curIdx else walkErr pt tagW curIdx pt.ptMaxMiss)

/-- Skip a wire value by its wire type as a number: `none` if it cannot be
    skipped, or the next offset. -/
def skipWireValue (wt : Nat) (bs : ByteString) (off : Int) : Outcome (Option Int) :=
  match wt with
  | 0 =>
    match getVarint bs off with
    | .ok _ off' => .done (some off')
    | .fail _ => .done none
    | .fault => .fault
    | .more => .more
  | 1 => .done (if addInt off 8 ≤ bsLen bs then some (addInt off 8) else none)
  | 2 =>
    match getVarint bs off with
    | .ok lenW off' =>
      .done (if addInt off' (ofWord lenW) ≤ bsLen bs then some (addInt off' (ofWord lenW))
        else none)
    | .fail _ => .done none
    | .fault => .fault
    | .more => .more
  | 5 => .done (if addInt off 4 ≤ bsLen bs then some (addInt off 4) else none)
  | _ => .done none

/-! ## Decoding with a schema -/

/-- The loop of `decodeRaw`. -/
def decodeRaw.go (bs : ByteString) :
    Nat → Int → AssocMap Int DynamicValue → Outcome (AssocMap Int DynamicValue)
  | 0, _, _ => .more
  | n + 1, off, fields =>
    if off ≥ bsLen bs then .done fields
    else
      let store {α : Type} (fn : Int) (f : α → DynamicValue) (r : Result α) :=
        match r with
        | .ok v off2 => go bs n off2 (insert fn (f v) fields)
        | .fail _ => .done fields
        | .fault => .fault
        | .more => .more
      match getVarint bs off with
      | .ok tagW off1 =>
        let fn := ofWord (tagW / 8)
        match (tagW % 8).toNat with
        | 0 => store fn .dynVarint (getVarint bs off1)
        | 1 => store fn .dynFixed64 (getFixed64 bs off1)
        | 2 => store fn .dynBytes ((getLengthDelimited bs off1).bind fun s off2 =>
            withSlice bs s fun bytes => .ok bytes off2)
        | 5 => store fn .dynFixed32 (getFixed32 bs off1)
        | _ => .done fields
      | .fail _ => .done fields
      | .fault => .fault
      | .more => .more

/-- Decode a message by wire type inference, as the fallback for a schema
    without fields. -/
def decodeRaw (n : Nat) (bs : ByteString) : Outcome DynamicMessage :=
  (decodeRaw.go bs n 0 []).bind fun fields => .done (.mk fields [])

/-- `relocatePageBoundary`: the same bytes, in a buffer where eight bytes can be
    loaded at any position. -/
def relocatePageBoundary (bs : ByteString) : ByteString := bs

/-- Decode a tag byte by byte. -/
def decodeTagSlow (bs : ByteString) (off : Int) : Outcome (Option (UInt64 × Int)) :=
  match getVarint bs off with
  | .ok v o => .done (some (v, o))
  | .fail _ => .done none
  | .fault => .fault
  | .more => .more

/-- Decode a tag, from one loaded word where eight bytes are left. -/
def decodeTagFast (bs : ByteString) (off : Int) : Outcome (Option (UInt64 × Int)) :=
  if addInt off 8 ≤ bsLen (relocatePageBoundary bs) then
    if 0 ≤ off then
      match decodeVarintSwar (loadWord (((relocatePageBoundary bs).drop off.toNat).take 8)) with
      | some (v, consumed) => .done (some (UInt64.ofBitVec v, addInt off consumed))
      | none => decodeTagSlow bs off
    else .fault
  else decodeTagSlow bs off

/-- Store a parsed value in its field. -/
def storeField (label : FieldLabel) (fn : Int) (val : DynamicValue)
    (fields : AssocMap Int DynamicValue) : AssocMap Int DynamicValue :=
  match label with
  | .labelRepeated => appendValue fn val fields
  | _ => insert fn val fields

/-- The loop of `decodeDynamicWithSchema`, in at most the given number of
    steps. -/
def decodeDynamicWithSchema.go (pt : ParseTable) (bs : ByteString) :
    Nat → Int → Nat → AssocMap Int DynamicValue → Outcome (AssocMap Int DynamicValue)
  | 0, _, _, _ => .more
  | n + 1, off, curIdx, fields =>
    if off ≥ bsLen bs then .done fields
    else (decodeTagFast bs off).bind fun mt =>
      match mt with
      | none => .done fields
      | some (tagW, off1) =>
        if off1 > bsLen bs then .done fields
        else (findField pt tagW curIdx).bind fun mIdx =>
          match mIdx with
          | some idx =>
            match pt.ptFields[idx]? with
            | none => .fault
            | some fp => (fp.fpParse n bs off1).bind fun r =>
              go pt bs n r.2 fp.fpNextOk (storeField fp.fpLabel fp.fpFieldNum r.1 fields)
          | none => (skipWireValue (tagW % 8).toNat bs off1).bind fun mo =>
            match mo with
            | some off2 => go pt bs n off2 curIdx fields
            | none => .done fields

/-- Decode a message with a compiled table.  `done (.error e)` is `Left e`. -/
def decodeDynamicWithSchema (n : Nat) (pt : ParseTable) (bs : ByteString) :
    Outcome (Except DecodeError DynamicMessage) :=
  if bs = [] then .done (.ok (.mk [] []))
  else if pt.ptFields = [] then (decodeRaw n bs).bind fun m => .done (.ok m)
  else (decodeDynamicWithSchema.go pt bs n 0 0 []).bind fun fields => .done (.ok (.mk fields []))

end Wireform.Proto

/-
  The protobuf wire primitives (`Proto.Internal.Wire.Decode`, and
  `decodeFieldMessage` of `Proto.Decode`).

  `skipGroup` follows declared lengths that may move it backwards, so it takes
  a step budget and ends in `Result.more` when the budget runs out.
-/
import Wireform.Proto.Wire

namespace Wireform.Proto

/-! ## Varints -/

/-- The payload bits of a byte, at a shift. -/
def varintBits (b : UInt8) (shift : Nat) : UInt64 :=
  (b.toUInt64 &&& 0x7F) <<< UInt64.ofNat shift

/-- The shifts at which `getVarintSlow` accepts a byte, in order. -/
def varintShifts : List Nat := [0, 7, 14, 21, 28, 35, 42, 49, 56, 63]

/-- The loop of `getVarintSlow`, over the shifts still allowed. -/
def getVarintSlow.go (bs : ByteString) : List Nat → UInt64 → Int → Result UInt64
  | [], _, _ => .fail .invalidVarint
  | shift :: shifts, acc, pos =>
    if pos ≥ bsLen bs then .fail .unexpectedEnd
    else withByte bs pos fun b =>
      if b < 0x80 then .ok (acc ||| varintBits b shift) (addInt pos 1)
      else go bs shifts (acc ||| varintBits b shift) (addInt pos 1)

def getVarintSlow (bs : ByteString) (off : Int) : Result UInt64 :=
  getVarintSlow.go bs varintShifts 0 off

/-- Decode a varint; up to four bytes are read inline. -/
def getVarint : Decoder UInt64 := fun bs off =>
  if off ≥ bsLen bs then .fail .unexpectedEnd
  else withByte bs off fun b0 =>
  if b0 < 0x80 then .ok b0.toUInt64 (addInt off 1)
  else if addInt off 1 ≥ bsLen bs then .fail .unexpectedEnd
  else withByte bs (addInt off 1) fun b1 =>
  if b1 < 0x80 then .ok (varintBits b0 0 ||| (b1.toUInt64 <<< 7)) (addInt off 2)
  else if addInt off 2 ≥ bsLen bs then .fail .unexpectedEnd
  else withByte bs (addInt off 2) fun b2 =>
  if b2 < 0x80 then
    .ok (varintBits b0 0 ||| varintBits b1 7 ||| (b2.toUInt64 <<< 14)) (addInt off 3)
  else if addInt off 3 ≥ bsLen bs then .fail .unexpectedEnd
  else withByte bs (addInt off 3) fun b3 =>
  if b3 < 0x80 then
    .ok (varintBits b0 0 ||| varintBits b1 7 ||| varintBits b2 14 ||| (b3.toUInt64 <<< 21))
      (addInt off 4)
  else getVarintSlow bs off

/-! ## Fixed-width values -/

/-- The `n` bytes at `off` as a little-endian number, loaded unchecked. -/
def readLE (n : Nat) (bs : ByteString) (off : Int) : Option Nat :=
  if 0 ≤ off ∧ off + n ≤ bsLen bs then
    some (((bs.drop off.toNat).take n).foldr (fun b acc => b.toNat + 256 * acc) 0)
  else none

/-- Decode a little-endian value of `n` bytes. -/
def getFixed {α : Type} (n : Nat) (k : Nat → α) : Decoder α := fun bs off =>
  if addInt off n > bsLen bs then .fail .unexpectedEnd
  else
    match readLE n bs off with
    | some v => .ok (k v) (addInt off n)
    | none => .fault

def getFixed32 : Decoder UInt32 := getFixed 4 UInt32.ofNat

def getFixed64 : Decoder UInt64 := getFixed 8 UInt64.ofNat

/-! ## Length-delimited values -/

/-- Decode a length-delimited field: a slice of the input. -/
def getLengthDelimited : Decoder Slice := fun bs off =>
  (getVarint bs off).bind fun lenW off' =>
    if ofWord lenW < 0 then .fail .negativeLength
    else if addInt off' (ofWord lenW) > bsLen bs then .fail .unexpectedEnd
    else .ok ⟨off', ofWord lenW⟩ (addInt off' (ofWord lenW))

/-- The text of a byte string, if it is UTF-8 (`decodeUtf8'`). -/
def decodeUtf8 (bytes : ByteString) : Option String := String.fromUTF8? ⟨bytes.toArray⟩

/-- Read the bytes of a slice of `bs`, a fault if it reaches outside. -/
def withSlice {α : Type} (bs : ByteString) (s : Slice) (k : ByteString → Result α) : Result α :=
  if s.Inside bs then k (s.bytes bs) else .fault

/-- Decode a text field. -/
def getText : Decoder String := fun bs off =>
  (getLengthDelimited bs off).bind fun s off' =>
    withSlice bs s fun bytes =>
      match decodeUtf8 bytes with
      | some t => .ok t off'
      | none => .fail .invalidUtf8

/-- Run a message decoder on a submessage, which it has to consume, and go on
    at `off'`. -/
def runSubmessage {α : Type} (messageDecoder : Decoder α) (sub : ByteString) (len off' : Int) :
    Result α :=
  match messageDecoder sub 0 with
  | .ok a subOff => if subOff = len then .ok a off' else .fail (.subMessageError .extraBytes)
  | .fail e => .fail (.subMessageError e)
  | .fault => .fault
  | .more => .more

/-- Decode a submessage field. -/
def decodeFieldMessage {α : Type} (messageDecoder : Decoder α) : Decoder α := fun bs off =>
  (getVarint bs off).bind fun lenW off' =>
    if ofWord lenW < 0 then .fail .negativeLength
    else if addInt off' (ofWord lenW) > bsLen bs then .fail .unexpectedEnd
    else withSlice bs ⟨off', ofWord lenW⟩ fun sub =>
      runSubmessage messageDecoder sub (ofWord lenW) (addInt off' (ofWord lenW))

/-! ## Tags -/

/-- Decode a field tag. -/
def getTag : Decoder Tag := fun bs off =>
  (getVarint bs off).bind fun w off' =>
    match decodeTag w with
    | some tag => .ok tag off'
    | none => .fail (.invalidTag w)

/-- Decode a tag, `none` at the end of the input. -/
def getTagOrU : Decoder (Option Tag) := fun bs off =>
  if off ≥ bsLen bs then .ok none off
  else (getTag bs off).bind fun tag off' => .ok (some tag) off'

/-! ## Skipping -/

def skip (n : Int) : Decoder Unit := fun bs off =>
  if addInt off n > bsLen bs then .fail .unexpectedEnd else .ok () (addInt off n)

/-- The loop of `skipVarint`, over the bytes at and after the position. -/
def skipVarint.go : List UInt8 → Int → Result Unit
  | [], _ => .fail .unexpectedEnd
  | b :: rest, pos => if b < 0x80 then .ok () (addInt pos 1) else go rest (addInt pos 1)

def skipVarint : Decoder Unit := fun bs off =>
  if 0 ≤ off then skipVarint.go (bs.drop off.toNat) off else .fault

/-- Skip a length prefix and what it announces (inlined in `skipField` and in
    `skipWireType`). -/
def skipLengthDelimited : Decoder Unit := fun bs off =>
  (getVarint bs off).bind fun lenW off' =>
    if addInt off' (ofWord lenW) > bsLen bs then .fail .unexpectedEnd
    else .ok () (addInt off' (ofWord lenW))

/-- `skipField`, given what skips a group. -/
def skipFieldWith (group : Decoder Unit) : WireType → Decoder Unit
  | .varint => skipVarint
  | .bit64 => skip 8
  | .lengthDelimited => skipLengthDelimited
  | .startGroup => group
  | .endGroup => pure ()
  | .bit32 => skip 4

/-- Skip the rest of a group, in at most the given number of steps. -/
def skipGroup : Nat → Decoder Unit
  | 0 => fun _ _ => .more
  | n + 1 => fun bs off =>
    (getTagOrU bs off).bind fun mt off' =>
      match mt with
      | none => .fail .unexpectedEnd
      | some ⟨_, .endGroup⟩ => .ok () off'
      | some ⟨_, wt⟩ => (skipFieldWith (skipGroup n) wt >>= fun _ => skipGroup n) bs off'

/-- Skip a field by its wire type. -/
def skipField (n : Nat) (wt : WireType) : Decoder Unit := skipFieldWith (skipGroup n) wt

/-- Skip a field by its wire type as a number. -/
def skipWireType (wt : Int) : Decoder Unit :=
  if wt = 0 then skipVarint
  else if wt = 1 then skip 8
  else if wt = 2 then skipLengthDelimited
  else if wt = 5 then skip 4
  else fun _ _ => .fail (.invalidWireType wt)

end Wireform.Proto
